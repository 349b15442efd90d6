import Skyext.Orm.Sequence

namespace Skyext.Orm
set_option autoImplicit true

open Prog

variable {schemas : Schemas} {h t : Heap} {c d i n : Nat} {schema need : SchemaType}
  {xs : List Value}

/-- The calls of `orm.insert` and `orm.remove` on an array, with and without a position. -/
inductive ListOp
  | insert (i : LuaNumber) (v : Arg)
  | append (v : Arg)
  | remove (i : LuaNumber)
  | pop

def place (i : LuaNumber) : Nat := (i.toInteger.getD 0).toNat

theorem place_eq {i : LuaNumber} (hi : i.toInteger = some ↑n) : place i = n := by
  rw [place, hi]
  rfl

namespace ListOp

def run (schemas : Schemas) (d len : Nat) : ListOp → Run (Option Value)
  | .insert i v => do
    Orm.insert schemas d len (some (.scalar (.number i))) (some v)
    pure none
  | .append v => do
    Orm.insert schemas d len (some v) none
    pure none
  | .remove i => Orm.remove schemas d len (some (.scalar (.number i)))
  | .pop => Orm.remove schemas d len none

/-- What `table.insert` and `table.remove` return, and what they make of a list; but where an equal
number is displaced, it is not replaced. -/
def apply (h : Heap) (xs : List Value) : ListOp → Option Value × List Value
  | .insert i v =>
    (none, tableInsert xs (place i) (kept xs[place i - 1]? (h.inserted v)))
  | .append v => (none, tableInsert xs (xs.length + 1) (h.inserted v))
  | .remove i => tableRemove xs (place i)
  | .pop => tableRemove xs xs.length

def Admissible (schemas : Schemas) (h : Heap) (d : Nat) (need : SchemaType) (xs : List Value) :
    ListOp → Prop
  | .insert i v => ∃ n : Nat, i.toInteger = some ↑n ∧ 1 ≤ n ∧ n ≤ xs.length + 1 ∧
      v.Admissible schemas h d need
  | .append v => v.Admissible schemas h d need
  | .remove i => ∃ n : Nat, i.toInteger = some ↑n ∧
      (1 ≤ n ∧ n ≤ xs.length + 1 ∨ n = 0 ∧ xs = [])
  | .pop => True

def value : ListOp → Option Arg
  | .insert _ v => some v
  | .append v => some v
  | _ => none

end ListOp

theorem position_nat {len : Nat} {x : LuaNumber} (hx : x.toInteger = some ↑i) (hi : 1 ≤ i)
    (hle : i ≤ len + 1) : position len (some (.scalar (.number x))) = .ok i := by
  simp only [position, hx]
  rw [if_pos (by omega)]
  rfl

theorem removePosition_nat {len : Nat} {x : LuaNumber} (hx : x.toInteger = some ↑i)
    (hi : 1 ≤ i ∧ i ≤ len + 1 ∨ i = 0 ∧ len = 0) :
    removePosition len (some (.scalar (.number x))) = .ok i := by
  have hzero : x.equals (.integer 0) = decide (i = 0) := by
    rw [LuaNumber.equals_integer, hx]
    simp
  simp only [removePosition, hzero, decide_eq_true_eq]
  rcases hi with ⟨hi, hle⟩ | ⟨rfl, rfl⟩
  · rw [if_neg (by omega)]
    exact position_nat hx hi hle
  · rw [if_pos ⟨rfl, rfl⟩]

/-- An operation on an array does what the same operation does on a list, keeps the contents of all
other documents, detaches what it removes, and makes of a table what its entries say. -/
theorem wp_listOp (hh : h.Holds schemas d need xs) {op : ListOp} {len : Nat} (hlen : h.IsLen d len)
    (ha : op.Admissible schemas h d need xs) :
    wp (op.run schemas d len)
      (fun r t => r = (op.apply h xs).1 ∧ t.Holds schemas d need (op.apply h xs).2 ∧ h.Frame t d ∧
        (∀ c, r = some (.doc c) → t.parent c = none) ∧
          ∀ v ∈ op.value, v.Becomes schemas (h.Copied schemas t) h t (some need) (h.inserted v))
      (fun _ => False) h := by
  cases hh.isLen_iff.mp hlen
  cases op with
  | insert x v =>
    obtain ⟨i, hx, hi, hle, hv⟩ := ha
    have hp : (Prog.lift (position xs.length (some (.scalar (.number x)))) : Run Nat) h =
        some (.ok i, h) := by
      rw [position_nat hx hi hle]
      rfl
    refine wp_seq (wp_bind (wp_ok hp (hh.insertAt hv hi hle))) (fun _ he => he)
      fun _ t ht => wp_pure _ ?_
    rw [ListOp.apply, place_eq hx]
    refine ⟨rfl, ht.1, ht.2.1, by rintro _ ⟨⟩, ?_⟩
    rintro _ ⟨⟩
    exact ht.2.2
  | append v =>
    refine wp_seq (hh.insertAt ha (Nat.succ_pos _) (Nat.le_refl _)) (fun _ he => he)
      fun _ t ht => wp_pure _ ⟨rfl, ?_, ht.2.1, by rintro _ ⟨⟩, ?_⟩
    · have hlast : xs[xs.length + 1 - 1]? = none := List.getElem?_eq_none (Nat.le_refl _)
      have hkept : kept none (h.inserted v) = h.inserted v := by
        rw [kept, stored_empty]
        rfl
      rw [hlast, hkept] at ht
      exact ht.1
    · rintro _ ⟨⟩
      exact ht.2.2
  | remove x =>
    obtain ⟨i, hx, hi⟩ := ha
    have hp := removePosition_nat hx (hi.imp_right fun h => ⟨h.1, by rw [h.2]; rfl⟩)
    refine wp_bind (wp_lift (fun i' hi' => ?_) fun e he => ?_)
    · cases hp.symm.trans hi'
      rw [ListOp.apply, place_eq hx]
      refine wp_mono (wp_removeAt hh hi) (fun _ t ht => ?_) fun _ he => he
      exact ⟨ht.1, ht.2.1, ht.2.2.1, ht.2.2.2, by rintro _ ⟨⟩⟩
    · cases hp.symm.trans he
  | pop =>
    refine wp_bind (wp_lift (fun i' hi' => ?_) fun e he => ?_)
    · cases hi'
      refine wp_mono (wp_removeAt hh ?_) (fun _ t ht => ?_) fun _ he => he
      · cases xs with
        | nil => exact .inr ⟨rfl, rfl⟩
        | cons y xs => exact .inl ⟨Nat.succ_pos _, Nat.le_succ _⟩
      · exact ⟨ht.1, ht.2.1, ht.2.2.1, ht.2.2.2, by rintro _ ⟨⟩⟩
    · cases he

/-- In a forest every array without holes and other keys holds its elements. -/
theorem Sound.holds {name : String} (hs : Sound schemas h) (hd : d < h.size)
    (hname : h.schema d = .schema name) (harray : schemas name = some (.array need))
    (hslots : ∀ k, h.slot d k = element xs k) : h.Holds schemas d need xs := by
  have hslot : ∀ i c : Nat, xs[i]? = some (.doc c) → h.slot d (.integer ↑(i + 1)) = some (.doc c) :=
    fun i c hx => (hslots _).trans ((element_succ xs i).trans hx)
  refine ⟨⟨name, hname, harray⟩, ⟨hs.forest.rooted d, fun x hx => hs.above_lt hd hx⟩,
    hslots, ?_, ?_,
    ?_⟩
  · intro i c hx
    exact hs.known d _ c (hslot i c hx)
  · intro i c hx
    exact (hs.forest.parent_iff c d).mpr ⟨_, hslot i c hx⟩
  · intro i j c hi hj
    have hkeys := (hs.forest.once c d _ d _ (hslot i c hi) (hslot j c hj)).2
    have hpos := Key.integer.inj hkeys
    omega

theorem Arg.admissible_of_accepted {entries : List (Key × Arg)} (hdocs : docsOf entries = [])
    (ha : (Arg.table entries).Accepted schemas h need) :
    (Arg.table entries).Admissible schemas h d need := by
  unfold Arg.Accepted at ha
  have hnone : ∀ c, c ∉ docsOf entries := by
    rw [hdocs]
    rintro _ ⟨⟩
  refine ⟨ha.1, ?_, fun c hc => absurd hc (hnone c)⟩
  rcases wp_newDoc fun c hc => absurd hc (hnone c) with ⟨c, t, hrun, _⟩ | ⟨_, _, _, _, _, hno⟩
  · exact ⟨c, t, hrun⟩
  · refine absurd ha.2 (hno ?_ fun c hc => absurd hc (hnone c))
    rw [hdocs]
    exact List.nodup_nil

/-- A sequence of operations on an array does, operation by operation, what it does on a list. -/
def Refines (schemas : Schemas) (d : Nat) (need : SchemaType) :
    List ListOp → Heap → List Value → Prop
  | [], h, xs => h.Holds schemas d need xs
  | op :: ops, h, xs => h.Holds schemas d need xs ∧
    ∀ len, h.IsLen d len → op.Admissible schemas h d need xs → ∃ t,
      op.run schemas d len h = some (.ok (op.apply h xs).1, t) ∧ h.Frame t d ∧
        (∀ c, (op.apply h xs).1 = some (.doc c) → t.parent c = none) ∧
          (∀ v ∈ op.value,
            v.Becomes schemas (h.Copied schemas t) h t (some need) (h.inserted v)) ∧
            Refines schemas d need ops t (op.apply h xs).2

theorem array_refines (hh : h.Holds schemas d need xs) (ops : List ListOp) :
    Refines schemas d need ops h xs := by
  induction ops generalizing h xs with
  | nil => exact hh
  | cons op ops ih =>
    refine ⟨hh, fun len hlen ha => ?_⟩
    rcases wp_listOp hh hlen ha with ⟨r, t, hrun, rfl, ht, hf, hdetached, hb⟩ | ⟨_, _, _, he⟩
    · exact ⟨t, hrun, hf, hdetached, hb, ih ht⟩
    · exact he.elim

def itemSchemas : Schemas := fun name =>
  if name = "item" then some (.struct [("count", .integer)])
  else if name = "arr_item" then some (.array (.schema "item"))
  else none

def arrayOf (name : String) (stage : Slots) : Heap :=
  ⟨1, fun _ => ⟨.schema name, none, stage, [], false, false, 0⟩⟩

theorem arrayOf_holds {name : String} {stage : Slots} (hname : schemas name = some (.array need))
    (hslots : ∀ k, stage.lookup k = element xs k) (hscalars : ∀ c, Value.doc c ∉ xs) :
    (arrayOf name stage).Holds schemas 0 need xs := by
  have hroot : ∀ x, (arrayOf name stage).parent x = none := fun _ => rfl
  have hno : ∀ i c : Nat, xs[i]? ≠ some (.doc c) :=
    fun i c hx => hscalars c (List.mem_of_getElem? hx)
  refine ⟨⟨name, rfl, hname⟩, ⟨.root (hroot 0), fun x hx => ?_⟩, hslots, ?_, ?_, ?_⟩
  · rw [hx.eq_of_root (hroot 0)]
    exact Nat.zero_lt_one
  · exact fun i c hx => absurd hx (hno i c)
  · exact fun i c hx => absurd hx (hno i c)
  · exact fun i j c hx => absurd hx (hno i c)

def emptyArray : Heap := arrayOf "arr_item" ∅

theorem emptyArray_holds : emptyArray.Holds itemSchemas 0 (.schema "item") [] := by
  refine arrayOf_holds (by decide) (fun k => ?_) fun c hc => by cases hc
  cases k with
  | string s => rfl
  | integer m =>
    rw [element, List.getElem?_nil, ite_self]
    rfl

def countedItem (count : Nat) : Arg :=
  .table [(.string "count", .scalar (.number (.integer count)))]

theorem array_refines_items : Refines itemSchemas 0 (.schema "item")
    [.append (countedItem 1), .insert (.integer 1) (countedItem 2), .remove (.float 2),
      .append (.doc 1), .pop, .remove (.integer 1), .pop] emptyArray [] :=
  array_refines emptyArray_holds _

def numberSchemas : Schemas := fun name =>
  if name = "arr_number" then some (.array .number) else none

def integerOne : Value := .scalar (.number (.integer 1))

def numberArray : Heap := arrayOf "arr_number" ((∅ : Slots).insert (.integer 1) integerOne)

theorem numberArray_holds : numberArray.Holds numberSchemas 0 .number [integerOne] := by
  refine arrayOf_holds (by decide) (fun k => ?_) fun c hc => ?_
  · by_cases hk : k = .integer 1
    · rw [hk, AList.lookup_insert]
      rfl
    · rw [AList.lookup_insert_ne hk]
      cases k with
      | string s => rfl
      | integer m =>
        have hm : m ≠ 1 := fun h => hk (congrArg Key.integer h)
        by_cases hpos : 0 < m
        · rw [element_gt (by simp; omega)]
          rfl
        · rw [element_nonpos _ hpos]
          rfl
  · cases List.mem_singleton.mp hc

/-- `1.0` is inserted before `1`, which stays where it is and moves on as well. -/
theorem equal_number_kept :
    numberArray.Holds numberSchemas 0 .number [integerOne] ∧ numberArray.IsLen 0 1 ∧
      (Arg.scalar (.number (.float 1))).Admissible numberSchemas numberArray 0 .number ∧
        ∃ t, insert numberSchemas 0 1 (some (.scalar (.number (.integer 1))))
            (some (.scalar (.number (.float 1)))) numberArray = some (.ok (), t) ∧
          t.slot 0 (.integer 1) = some integerOne ∧
            element (tableInsert [integerOne] 1 (.scalar (.number (.float 1)))) (.integer 1) ≠
              some integerOne := by
  refine ⟨numberArray_holds, by decide +kernel, rfl, ?_⟩
  have hrun : (insert numberSchemas 0 1 (some (.scalar (.number (.integer 1))))
      (some (.scalar (.number (.float 1)))) numberArray).map
        (fun r => (r.1.isOk, r.2.slot 0 (.integer 1))) = some (true, some integerOne) := by
    decide +kernel
  obtain ⟨⟨r, t⟩, ht, he⟩ := Option.map_eq_some_iff.mp hrun
  obtain ⟨hr, hslot⟩ := Prod.mk.inj he
  cases r with
  | ok a => exact ⟨t, ht, hslot, by decide +kernel⟩
  | error e => cases hr

end Skyext.Orm
