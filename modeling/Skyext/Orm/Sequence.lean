import Skyext.Orm.Accepted

namespace Skyext.Orm
set_option autoImplicit true

open Parents Prog

/-- What a list has at a key, its positions counted from 1. -/
def element (xs : List Value) : Key → Option Value
  | .integer m => if 0 < m then xs[(m - 1).toNat]? else none
  | .string _ => none

def tableInsert (xs : List Value) (i : Nat) (x : Value) : List Value := xs.insertIdx (i - 1) x

/-- `table.remove(xs, i)` -/
def tableRemove (xs : List Value) (i : Nat) : Option Value × List Value :=
  (xs[i - 1]?, xs.eraseIdx (i - 1))

/-- The chain of parents ends within the documents there are. -/
structure Heap.Anchored (h : Heap) (d : Nat) : Prop where
  rooted : Rooted h.parent d
  lt : ∀ x, Above h.parent x d → x < h.size

/-- An array with the elements of a list at 1, 2, and so on, and nothing else; the documents among
them are in it once and have it as their parent. -/
structure Heap.Holds (schemas : Schemas) (h : Heap) (d : Nat) (need : SchemaType)
    (xs : List Value) : Prop where
  array : ∃ name, h.schema d = .schema name ∧ schemas name = some (.array need)
  anchored : h.Anchored d
  slots : ∀ k, h.slot d k = element xs k
  known : ∀ i c : Nat, xs[i]? = some (.doc c) → c < h.size
  parents : ∀ i c : Nat, xs[i]? = some (.doc c) → h.parent c = some d
  once : ∀ i j c : Nat, xs[i]? = some (.doc c) → xs[j]? = some (.doc c) → i = j

/-- What may be put into an array: a scalar of its type, a detached document of its type that is
not above it, or a table of which `_new_doc` makes a document and that holds no document above
it. -/
def Arg.Admissible (schemas : Schemas) (h : Heap) (d : Nat) (need : SchemaType) : Arg → Prop
  | .scalar s => checkVTp (.inl s) need = .ok ()
  | .doc c => c < h.size ∧ h.parent c = none ∧ ¬ Above h.parent c d ∧ h.schema c = need ∧
      need.IsSchema
  | .table entries => need.IsSchema ∧
      (∃ c t, newDoc schemas (some need) entries h = some (.ok c, t)) ∧
      ∀ c ∈ docsOf entries, c < h.size ∧ (h.parent c = none → ¬ Above h.parent c d)

/-- The element that a value becomes: a table becomes the next document. -/
def Heap.inserted (h : Heap) : Arg → Value
  | .scalar s => .scalar s
  | .doc c => .doc c
  | .table _ => .doc h.size

/-- What stands where `x` is inserted before `old`: an equal value is not replaced. -/
def kept (old : Option Value) (x : Value) : Value := (stored old (some x)).getD x

/-- What an operation on an array leaves alone: the contents of all other documents. -/
def Heap.Frame (h t : Heap) (d : Nat) : Prop :=
  h.size ≤ t.size ∧
    ∀ c, c < h.size → t.schema c = h.schema c ∧ (c ≠ d → ∀ k, t.slot c k = h.slot c k)

variable {schemas : Schemas} {h t u : Heap} {c d d' i n x : Nat} {k k' : Key} {v : Option Value}
  {schema need : SchemaType} {xs ys : List Value}

theorem stored_kept (old : Option Value) (y : Value) : stored old (some y) = some (kept old y) := by
  have hsome : (stored old (some y)).isSome := stored_isSome
  obtain ⟨z, hz⟩ := Option.isSome_iff_exists.mp hsome
  rw [kept, hz]
  rfl

theorem kept_doc {old : Option Value} {y : Value} : kept old y = .doc c ↔ y = .doc c := by
  have hs : stored old (some y) = some (.doc c) ↔ some y = some (.doc c) := stored_doc
  rwa [stored_kept, Option.some.injEq, Option.some.injEq] at hs

theorem Arg.Admissible.known {a : Arg} (ha : a.Admissible schemas h d need) :
    ∀ c ∈ a.docs, c < h.size := by
  cases a with
  | scalar s => rintro _ ⟨⟩
  | doc c =>
    intro x hx
    cases List.mem_singleton.mp hx
    exact ha.1
  | table entries =>
    intro x hx
    unfold Arg.docs at hx
    exact (ha.2.2 x hx).1

theorem element_succ (xs : List Value) (i : Nat) : element xs (.integer ↑(i + 1)) = xs[i]? := by
  have hpos : 0 < ((i + 1 : Nat) : Int) := by omega
  have hnat : (((i + 1 : Nat) : Int) - 1).toNat = i := by omega
  rw [element, if_pos hpos, hnat]

theorem element_of_pos {i : Nat} (xs : List Value) (hi : 1 ≤ i) :
    element xs (.integer i) = xs[i - 1]? := by
  obtain ⟨j, rfl⟩ := Nat.exists_eq_add_of_le' hi
  exact element_succ xs j

theorem element_nonpos {m : Int} (xs : List Value) (hm : ¬ 0 < m) :
    element xs (.integer m) = none := by
  rw [element, if_neg hm]

theorem getElem?_tableInsert {y : Value} (hi : 1 ≤ i) (hle : i ≤ xs.length + 1) (j : Nat) :
    (tableInsert xs i y)[j]? =
      if j + 1 < i then xs[j]? else if j + 1 = i then some y else xs[j - 1]? := by
  rw [tableInsert, List.getElem?_insertIdx]
  by_cases hlt : j + 1 < i
  · rw [if_pos hlt, if_pos (by omega)]
  · rw [if_neg hlt, if_neg (by omega)]
    by_cases he : j + 1 = i
    · rw [if_pos he, if_pos (by omega), if_pos (by omega)]
    · rw [if_neg he, if_neg (by omega)]

theorem element_gt {m : Int} (hm : ↑xs.length < m) : element xs (.integer m) = none := by
  obtain ⟨j, rfl⟩ : ∃ j : Nat, m = ↑(j + 1) := ⟨(m - 1).toNat, by omega⟩
  rw [element_succ]
  exact List.getElem?_eq_none (by omega)

theorem element_tableInsert {y : Value} (hi : 1 ≤ i) (hle : i ≤ xs.length + 1) (m : Int) :
    element (tableInsert xs i y) (.integer m) =
      if m < i then element xs (.integer m) else if m = i then some y
        else element xs (.integer (m - 1)) := by
  by_cases hm : 0 < m
  · obtain ⟨j, rfl⟩ : ∃ j : Nat, m = ↑(j + 1) := ⟨(m - 1).toNat, by omega⟩
    rw [element_succ, element_succ, getElem?_tableInsert hi hle]
    simp only [Int.ofNat_lt, Int.natCast_inj]
    split
    · rfl
    · split
      · rfl
      · have hj : ((j + 1 : Nat) : Int) - 1 = (j : Nat) := by omega
        rw [hj, element_of_pos xs (by omega)]
  · rw [element_nonpos _ hm, if_pos (by omega), element_nonpos _ hm]

theorem tableInsert_cases {y z : Value} {j : Nat} (hi : 1 ≤ i) (hle : i ≤ xs.length + 1)
    (hj : (tableInsert xs i y)[j]? = some z) :
    j + 1 = i ∧ z = y ∨ ∃ j', xs[j']? = some z ∧ j = if j' + 1 < i then j' else j' + 1 := by
  rw [getElem?_tableInsert hi hle] at hj
  split at hj
  · next hlt => exact .inr ⟨j, hj, by rw [if_pos hlt]⟩
  · split at hj
    · next he => exact .inl ⟨he, (Option.some.inj hj).symm⟩
    · next hne =>
      refine .inr ⟨j - 1, hj, ?_⟩
      rw [if_neg] <;> omega

theorem getElem?_tableRemove (xs : List Value) (hi : 1 ≤ i) (j : Nat) :
    (tableRemove xs i).2[j]? = if j + 1 < i then xs[j]? else xs[j + 1]? := by
  rw [tableRemove, List.getElem?_eraseIdx]
  by_cases hlt : j + 1 < i
  · rw [if_pos hlt, if_pos (by omega)]
  · rw [if_neg hlt, if_neg (by omega)]

theorem element_tableRemove (xs : List Value) (hi : 1 ≤ i) (m : Int) :
    element (tableRemove xs i).2 (.integer m) =
      if m < i then element xs (.integer m) else element xs (.integer (m + 1)) := by
  by_cases hm : 0 < m
  · obtain ⟨j, rfl⟩ : ∃ j : Nat, m = ↑(j + 1) := ⟨(m - 1).toNat, by omega⟩
    have hnext : ((j + 1 : Nat) : Int) + 1 = ((j + 1 + 1 : Nat) : Int) := by omega
    rw [hnext, element_succ, element_succ, element_succ, getElem?_tableRemove xs hi]
    simp only [Int.ofNat_lt]
  · rw [element_nonpos _ hm, if_pos (by omega), element_nonpos _ hm]

theorem tableRemove_cases {z : Value} {j : Nat} (hi : 1 ≤ i)
    (hj : (tableRemove xs i).2[j]? = some z) :
    ∃ j', xs[j']? = some z ∧ j' + 1 ≠ i ∧ j = if j' + 1 < i then j' else j' - 1 := by
  rw [getElem?_tableRemove xs hi] at hj
  split at hj
  · next hlt => exact ⟨j, hj, Nat.ne_of_lt hlt, by rw [if_pos hlt]⟩
  · exact ⟨j + 1, hj, by omega, by rw [if_neg (by omega), Nat.add_sub_cancel]⟩

namespace Heap

theorem Anchored.ends (ha : h.Anchored d) : h.Ends d := by
  obtain ⟨l, hl⟩ := ha.rooted.path
  exact ⟨l, hl, hl.length_le fun x hx => ha.lt x (hl.mem_iff.mp hx)⟩

theorem Anchored.congr (ha : h.Anchored d) (hsize : h.size ≤ t.size)
    (hp : ∀ x, Above h.parent x d → t.parent x = h.parent x) : t.Anchored d :=
  ⟨ha.rooted.congr hp, fun x hx => Nat.lt_of_lt_of_le (ha.lt x (hx.of_congr hp)) hsize⟩

theorem Anchored.known (ha : h.Anchored d) : d < h.size := ha.lt d (.refl _ _)

namespace Holds

theorem isLen_iff (hh : h.Holds schemas d need xs) : h.IsLen d n ↔ n = xs.length := by
  rw [IsLen, hh.slots, hh.slots, element_succ]
  cases n with
  | zero =>
    simp only [true_or, true_and, List.getElem?_eq_none_iff]
    omega
  | succ n =>
    rw [element_succ, Option.isSome_iff_ne_none, ne_eq, List.getElem?_eq_none_iff,
      List.getElem?_eq_none_iff]
    omega

theorem keyType (hh : h.Holds schemas d need xs) :
    (h.schema d).keyType schemas = some .integer := by
  obtain ⟨name, hname, hs⟩ := hh.array
  simp only [hname, SchemaType.keyType, hs]

theorem index (hh : h.Holds schemas d need xs) (k : Key) :
    (h.schema d).index schemas k = some need := by
  obtain ⟨name, hname, hs⟩ := hh.array
  simp only [hname, SchemaType.index, hs]

/-- No element is above the array. -/
theorem not_above (hh : h.Holds schemas d need xs) (hx : xs[i]? = some (.doc c)) :
    ¬ Above h.parent c d := by
  have hp := hh.parents i c hx
  exact (Rooted.child hp hh.anchored.rooted).not_above d hp

/-- Documents are made elsewhere. -/
theorem grown {moved : List Nat} (hh : h.Holds schemas d need xs) (hg : h.Grown t moved)
    (hm : ∀ c ∈ moved, h.parent c = none → ¬ Above h.parent c d) :
    t.Holds schemas d need xs ∧ ∀ x, Above h.parent x d → t.parent x = h.parent x := by
  have hd := hh.anchored.known
  have habove : ∀ x, Above h.parent x d → t.parent x = h.parent x := by
    intro x hx
    rcases hg.parent x (hh.anchored.lt x hx) with hp | ⟨hp, hmem⟩
    · exact hp
    · exact absurd hx (hm x hmem hp)
  refine ⟨⟨?_, hh.anchored.congr hg.size habove, ?_, ?_, ?_, hh.once⟩, habove⟩
  · rw [hg.schema d hd]
    exact hh.array
  · intro k
    rw [hg.slot d hd]
    exact hh.slots k
  · intro i c hx
    exact Nat.lt_of_lt_of_le (hh.known i c hx) hg.size
  · intro i c hx
    have hp := hh.parents i c hx
    rcases hg.parent c (hh.known i c hx) with hp' | ⟨hp', _⟩
    · exact hp'.trans hp
    · cases hp'.symm.trans hp

theorem checkK (hh : h.Holds schemas d need xs) (m : Int) :
    (h.schema d).checkK schemas (.integer m) = .ok () ∧
      (h.schema d).parseK schemas (.integer m) = .ok (.integer m) :=
  SchemaType.keyType_integer hh.keyType m

theorem free (hh : h.Holds schemas d need xs) (hroot : h.parent c = none) (k : Key) :
    h.slot d k ≠ some (.doc c) := by
  intro hslot
  rw [hh.slots] at hslot
  cases k with
  | integer m =>
    rw [element] at hslot
    split at hslot
    · cases hroot.symm.trans (hh.parents _ c hslot)
    · cases hslot
  | string s => cases hslot

theorem attach (hh : h.Holds schemas d need xs) (hroot : h.parent c = none)
    (habove : ¬ Above h.parent c d) (htype : h.schema c = need) (hn : need.IsSchema) (i : Nat) :
    wp (Orm.attach schemas d (.integer i) c)
      (fun _ w => h.Written w d (.integer i) (some (.doc c))) (fun _ => False) h := by
  obtain ⟨hcheck, _⟩ := hh.checkK i
  refine wp_mono (wp_attach hh.anchored.ends habove (hh.free hroot _) hcheck)
    (fun _ w hw => hw.2) fun w hw => hw.2 ?_
  rw [SchemaType.checkKv_eq hcheck (hh.index _), checkVTp_schema]
  exact ⟨htype, hn⟩

/-- `doc[i] = v` with what may be put into the array writes one slot. -/
theorem assign {a : Arg} (hh : h.Holds schemas d need xs) (ha : a.Admissible schemas h d need)
    (hi : 1 ≤ i) :
    wp (Orm.assign schemas d (.integer i) (some a))
      (fun _ w => ∃ u, u.Holds schemas d need xs ∧ h.Grown u a.docs ∧
        (∀ c, h.inserted a = .doc c → c < u.size ∧ u.parent c = none ∧ ¬ Above u.parent c d) ∧
          u.Written w d (.integer i) (some (kept xs[i - 1]? (h.inserted a))) ∧
            a.Becomes schemas (h.Copied schemas w) h w (some need) (h.inserted a))
      (fun _ => False) h := by
  obtain ⟨hcheck, hparse⟩ := hh.checkK i
  cases a with
  | scalar s =>
    change wp (Orm.docChange schemas d (.integer i) (some (.scalar s))) _ _ h
    refine wp_mono (wp_docChange hh.anchored.ends (by rintro _ ⟨⟩))
      (fun _ w hw => ?_) fun w hw => ?_
    · obtain ⟨k', hk, hw, _⟩ := hw
      cases hparse.symm.trans hk
      rw [hh.slots, element_of_pos xs hi, stored_kept] at hw
      exact ⟨h, hh, .refl h _, by rintro _ ⟨⟩, hw, by unfold Arg.Becomes; rfl⟩
    · rcases hw with ⟨⟨e, he⟩, _⟩ | ⟨k', hk, ⟨⟨_, ⟨⟩, _⟩, _⟩ | ⟨_, ⟨⟩, _, _, hval, _⟩⟩
      · cases hparse.symm.trans he
      · cases hparse.symm.trans hk
        rw [SchemaType.checkKv_eq hcheck (hh.index _)] at hval
        exact hval ha
  | doc c =>
    obtain ⟨hc, hroot, habove, htype, hn⟩ := ha
    refine wp_bind (wp_get (wp_bind (wp_lift (fun k' hk => ?_) fun e he => ?_)))
    · cases hparse.symm.trans hk
      simp only [hroot, Option.isSome_none, Bool.false_eq_true, if_false]
      refine wp_mono (hh.attach hroot habove htype hn i) (fun _ w hw => ?_) fun _ he => he
      refine ⟨h, hh, .refl h _, ?_, ?_, ?_⟩
      · rintro _ ⟨⟩
        exact ⟨hc, hroot, habove⟩
      · rwa [inserted, kept_doc.mpr rfl]
      · unfold Arg.Becomes
        exact .inl ⟨rfl, hroot⟩
    · cases hparse.symm.trans he
  | table entries =>
    have hknown := ha.known
    obtain ⟨hn, ⟨c, t, hnew⟩, hdocs⟩ := ha
    refine wp_bind (wp_get (wp_bind (wp_lift (fun k' hk => ?_) fun e he => ?_)))
    · cases hparse.symm.trans hk
      rw [hh.index]
      rcases wp_newDoc fun c hc => (hdocs c hc).1 with
        ⟨c', u, hrun, hg, rfl, hlt, hroot, hschema, _, hb⟩ | ⟨e, u, hrun, _⟩
      · obtain ⟨hu, habove⟩ := hh.grown hg fun c hc => (hdocs c hc).2
        have hnot : ¬ Above u.parent h.size d := fun ha =>
          absurd (hh.anchored.lt _ (ha.of_congr habove)) (Nat.lt_irrefl _)
        refine wp_bind (wp_ok hrun (wp_mono (hu.attach hroot hnot hschema hn i) (fun _ w hw => ?_)
          fun _ he => he))
        refine ⟨u, hu, hg, ?_, ?_, hb.later (hw.steady.mono fun x hx => ?_) hknown⟩
        · rintro _ ⟨⟩
          exact ⟨hlt, hroot, hnot⟩
        · rwa [inserted, kept_doc.mpr rfl]
        · rintro rfl
          exact absurd hh.anchored.known (Nat.not_lt.mpr hx)
      · cases hnew.symm.trans hrun
    · cases hparse.symm.trans he

theorem same (hh : h.Holds schemas d need xs) (hs : h.Same t) : t.Holds schemas d need xs := by
  refine ⟨?_, hh.anchored.congr (Nat.le_of_eq hs.size.symm) fun x _ => hs.parent x, ?_, ?_, ?_,
    hh.once⟩
  · rw [hs.schema]
    exact hh.array
  · intro k
    rw [hs.slot]
    exact hh.slots k
  · intro i c hx
    exact hs.size ▸ hh.known i c hx
  · intro i c hx
    rw [hs.parent]
    exact hh.parents i c hx

/-- The elements behind the position move up and the displaced one has the array as its parent
again. -/
theorem inserted {w z : Heap} {y : Value} (hh : h.Holds schemas d need xs) (hi : 1 ≤ i)
    (hle : i ≤ xs.length + 1) (hw : h.Written w d (.integer i) (some y))
    (hy : ∀ c, y = .doc c → c < h.size ∧ h.parent c = none ∧ ¬ Above h.parent c d)
    (hsize : z.size = w.size) (hschema : ∀ x, z.schema x = w.schema x)
    (hparent : ∀ x, z.parent x = if xs[i - 1]? = some (.doc x) then some d else w.parent x)
    (hslots : ∀ k, z.slot d k = element (tableInsert xs i y) k) :
    z.Holds schemas d need (tableInsert xs i y) := by
  have hold : ∀ j c : Nat, xs[j]? = some (.doc c) → y ≠ .doc c := by
    intro j c hj hc
    cases (hy c hc).2.1.symm.trans (hh.parents j c hj)
  have hslot : h.slot d (.integer i) = xs[i - 1]? := (hh.slots _).trans (element_of_pos xs hi)
  have hkeep : ∀ j c : Nat, xs[j]? = some (.doc c) → z.parent c = some d := by
    intro j c hj
    rw [hparent]
    split
    · rfl
    · next hne =>
      rw [hw.parent, if_neg fun he => hold j c hj (Option.some.inj he), hslot, if_neg hne]
      exact hh.parents j c hj
  have habove : ∀ x, Above h.parent x d → z.parent x = h.parent x := by
    intro x hx
    have hne : xs[i - 1]? ≠ some (.doc x) := fun he => hh.not_above he hx
    rw [hparent, if_neg hne, hw.parent, hslot, if_neg hne, if_neg]
    intro he
    exact (hy x (Option.some.inj he)).2.2 hx
  refine ⟨?_, ?_, hslots, ?_, ?_, ?_⟩
  · rw [hschema, hw.schema]
    exact hh.array
  · exact hh.anchored.congr (Nat.le_of_eq (hsize.trans hw.size).symm) habove
  · intro j c hj
    rw [hsize, hw.size]
    rcases tableInsert_cases hi hle hj with ⟨_, he⟩ | ⟨j', hj', _⟩
    · exact (hy c he.symm).1
    · exact hh.known j' c hj'
  · intro j c hj
    rcases tableInsert_cases hi hle hj with ⟨_, he⟩ | ⟨j', hj', _⟩
    · rw [hparent, if_neg, hw.parent, if_pos (by rw [he])]
      intro hx
      exact hold _ c hx he.symm
    · exact hkeep j' c hj'
  · intro j₁ j₂ c h₁ h₂
    rcases tableInsert_cases hi hle h₁ with ⟨he₁, hy₁⟩ | ⟨j₁', hj₁, rfl⟩
    · rcases tableInsert_cases hi hle h₂ with ⟨he₂, _⟩ | ⟨j₂', hj₂, _⟩
      · omega
      · exact absurd hy₁.symm (hold j₂' c hj₂)
    · rcases tableInsert_cases hi hle h₂ with ⟨_, hy₂⟩ | ⟨j₂', hj₂, rfl⟩
      · exact absurd hy₂.symm (hold j₁' c hj₁)
      · rw [hh.once j₁' j₂' c hj₁ hj₂]

/-- What is written behind the last element is the new last one. -/
theorem slot_appended {w : Heap} {y : Value} (hh : h.Holds schemas d need xs)
    (hw : h.Written w d (.integer i) (some y)) (hi : i = xs.length + 1) (k : Key) :
    w.slot d k = element (tableInsert xs i y) k := by
  cases k with
  | string s =>
    rw [hw.slot, if_neg (by rintro ⟨_, ⟨⟩⟩), hh.slots]
    rfl
  | integer m =>
    rw [hw.slot, hh.slots, element_tableInsert (by omega) (by omega)]
    simp only [true_and, Key.integer.injEq]
    rcases Int.lt_trichotomy m i with hm | rfl | hm
    · rw [if_neg (by omega), if_pos hm]
    · rw [if_pos rfl, if_neg (by omega), if_pos rfl]
    · rw [if_neg (by omega), if_neg (by omega), if_neg (by omega), element_gt (by omega),
        element_gt (by omega)]

/-- What is written over an element stands before it once all from there on have moved up. -/
theorem slot_shifted {w : Heap} {y z : Value} (hh : h.Holds schemas d need xs)
    (hw : h.Written w d (.integer i) (some y)) (hi : 1 ≤ i) (hx : xs[i - 1]? = some z) (k : Key) :
    ((w.shiftUp d i (xs.length - i)).move d (.integer ↑(i + 1)) (some z)).slot d k =
      element (tableInsert xs i y) k := by
  have hlen : i ≤ xs.length := by
    obtain ⟨hlt, _⟩ := List.getElem?_eq_some_iff.mp hx
    omega
  cases k with
  | string s =>
    rw [slot_move, if_neg (by rintro ⟨_, ⟨⟩⟩), (slot_shift_string ..).1, hw.slot,
      if_neg (by rintro ⟨_, ⟨⟩⟩), hh.slots]
    rfl
  | integer m =>
    rw [slot_move, slot_shiftUp, hw.slot, hw.slot, hh.slots, hh.slots,
      element_tableInsert hi (by omega)]
    simp only [true_and, Key.integer.injEq]
    rcases Int.lt_trichotomy m i with hm | rfl | hm
    · rw [if_neg (by omega), if_neg (by omega), if_neg (by omega), if_pos hm]
    · rw [if_neg (by omega), if_neg (by omega), if_pos rfl, if_neg (by omega), if_pos rfl]
    · rw [if_neg (by omega : ¬ m < i), if_neg (by omega : ¬ m = i)]
      by_cases hnext : m = i + 1
      · have hm₁ : m - 1 = i := by omega
        rw [if_pos (by omega), if_neg (by omega), hm₁, element_of_pos xs hi, hx]
      · rw [if_neg (by omega)]
        by_cases hin : m ≤ xs.length + 1
        · rw [if_pos (by omega), if_neg (by omega), if_neg (by omega)]
        · rw [if_neg (by omega), if_neg (by omega), element_gt (by omega), element_gt (by omega)]

theorem inserted_frame {a : Arg} {w z : Heap} {x : Value} (hd : d < h.size)
    (ha : ∀ c ∈ a.docs, c < h.size) (hg : h.Grown u a.docs) (hw : u.Written w d k v)
    (hb : a.Becomes schemas (h.Copied schemas w) h w (some need) x) (hs : Steady (· ≠ d) w z)
    (hschema : ∀ x, z.schema x = w.schema x) :
    h.Frame z d ∧ a.Becomes schemas (h.Copied schemas z) h z (some need) x := by
  refine ⟨⟨hg.size.trans (hw.size ▸ hs.size), fun c hc => ⟨?_, fun hcd k => ?_⟩⟩, ?_⟩
  · rw [hschema, hw.schema, hg.schema c hc]
  · have hcw : c < w.size := hw.size.symm ▸ Nat.lt_of_lt_of_le hc hg.size
    rw [(hs.same c hcd hcw).2, hw.slot, if_neg fun he => hcd he.1, hg.slot c hc]
  · refine hb.later (hs.mono fun x hx => ?_) ha
    rintro rfl
    exact absurd hd (Nat.not_lt.mpr hx)

theorem insertAt {a : Arg} (hh : h.Holds schemas d need xs) (ha : a.Admissible schemas h d need)
    (hi : 1 ≤ i) (hle : i ≤ xs.length + 1) :
    wp (Orm.insertAt schemas d xs.length i (some a))
      (fun _ t => t.Holds schemas d need (tableInsert xs i (kept xs[i - 1]? (h.inserted a))) ∧
        h.Frame t d ∧ a.Becomes schemas (h.Copied schemas t) h t (some need) (h.inserted a))
      (fun _ => False) h := by
  have hknown := ha.known
  refine wp_seq (wp_index schemas h d (.integer i)) (fun _ ht => absurd (hh.checkK i).1 ht.2)
    fun lv t ht => ?_
  obtain ⟨rfl, rfl, _⟩ := ht
  refine wp_bind (wp_get ?_)
  refine wp_seq (hh.assign ha hi) (fun _ he => he) fun _ w hw => ?_
  obtain ⟨u, hu, hg, hval, hw, hb⟩ := hw
  have hval : ∀ c, kept xs[i - 1]? (t.inserted a) = .doc c →
      c < u.size ∧ u.parent c = none ∧ ¬ Above u.parent c d := fun c hc => hval c (kept_doc.mp hc)
  generalize kept xs[i - 1]? (t.inserted a) = y at hw hval ⊢
  have hslot : t.slot d (.integer i) = xs[i - 1]? := (hh.slots _).trans (element_of_pos xs hi)
  have hframe : ∀ z : Heap, Steady (· ≠ d) w z → (∀ x, z.schema x = w.schema x) →
      t.Frame z d ∧ a.Becomes schemas (t.Copied schemas z) t z (some need) (t.inserted a) :=
    fun z => inserted_frame hh.anchored.known hknown hg hw hb
  have hmark : ∀ z : Heap, z.Holds schemas d need (tableInsert xs i y) → Steady (· ≠ d) w z →
      (∀ x, z.schema x = w.schema x) → wp (do
        let h ← get
        if (h.docs d).revision = (t.docs d).revision then markDirty d)
        (fun _ z => z.Holds schemas d need (tableInsert xs i y) ∧ t.Frame z d ∧
          a.Becomes schemas (t.Copied schemas z) t z (some need) (t.inserted a))
        (fun _ => False) z := by
    intro z hz hs hschema
    refine wp_bind (wp_get ?_)
    split
    · refine wp_mono hz.anchored.ends.markDirty (fun _ z' hm => ⟨hz.same hm, ?_⟩) fun _ he => he
      exact hframe z' (hs.trans (hm.steady _)) fun x => (hm.schema x).trans (hschema x)
    · exact wp_pure _ ⟨hz, hframe z hs hschema⟩
  refine wp_bind (wp_modify _ ?_)
  rw [hslot]
  cases hx : xs[i - 1]? with
  | none =>
    have hlen : i = xs.length + 1 := by
      have hge := List.getElem?_eq_none_iff.mp hx
      omega
    have hzero : xs.length - i = 0 := by omega
    rw [hzero]
    refine wp_bind (wp_pure _ (hmark w (hu.inserted hi hle hw hval rfl (fun _ => rfl) ?_
      (hu.slot_appended hw hlen)) ⟨Nat.le_refl _, fun _ _ _ => ⟨rfl, rfl⟩⟩ fun _ => rfl))
    intro x
    rw [if_neg]
    rw [hx]
    rintro ⟨⟩
  | some y =>
    refine wp_bind (wp_modify _ (hmark _ (hu.inserted hi hle hw hval (by simp) (by simp) ?_ ?_)
      ⟨by simp, fun c hc _ => ⟨by simp, funext fun k => ?_⟩⟩ (by simp)))
    · intro x
      simp only [parent_restore, parent_move, parent_shiftUp, hx, Option.some.injEq]
    · intro k
      rw [slot_restore, hu.slot_shifted hw hi hx]
    · rw [slot_restore, slot_move, if_neg fun he => hc he.1, (shift_slot_other hc).1]

theorem slot_removed {w : Heap} (hh : h.Holds schemas d need xs)
    (hw : h.Written w d (.integer i) none) (hi : 1 ≤ i) (hle : i ≤ xs.length) (k : Key) :
    ((w.shiftDown d i (xs.length - i)).move d (.integer xs.length) none).slot d k =
      element (tableRemove xs i).2 k := by
  cases k with
  | string s =>
    rw [slot_move, if_neg (by rintro ⟨_, ⟨⟩⟩), (slot_shift_string ..).2, hw.slot,
      if_neg (by rintro ⟨_, ⟨⟩⟩), hh.slots]
    rfl
  | integer m =>
    rw [slot_move, slot_shiftDown, hw.slot, hw.slot, hh.slots, hh.slots, element_tableRemove xs hi]
    simp only [true_and, Key.integer.injEq]
    by_cases hlast : m = xs.length
    · rw [if_pos hlast, if_neg (by omega), element_gt (by omega)]
    · rw [if_neg hlast]
      by_cases hm : m < i
      · rw [if_neg (by omega), if_neg (by omega), if_pos hm]
      · rw [if_neg hm]
        by_cases hlt : m < xs.length
        · rw [if_pos (by omega), if_neg (by omega)]
        · rw [if_neg (by omega), if_neg (by omega), element_gt (by omega), element_gt (by omega)]

/-- The elements behind the position move down and the one there is detached. -/
theorem removed {z : Heap} (hh : h.Holds schemas d need xs) (hi : 1 ≤ i)
    (hsize : z.size = h.size) (hschema : ∀ x, z.schema x = h.schema x)
    (hparent : ∀ x, z.parent x = if xs[i - 1]? = some (.doc x) then none else h.parent x)
    (hslots : ∀ k, z.slot d k = element (tableRemove xs i).2 k) :
    z.Holds schemas d need (tableRemove xs i).2 := by
  refine ⟨?_, ?_, hslots, ?_, ?_, ?_⟩
  · rw [hschema]
    exact hh.array
  · apply hh.anchored.congr (Nat.le_of_eq hsize.symm)
    intro x hx
    rw [hparent, if_neg]
    exact fun he => hh.not_above he hx
  · intro j c hj
    obtain ⟨j', hj', _⟩ := tableRemove_cases hi hj
    exact hsize ▸ hh.known j' c hj'
  · intro j c hj
    obtain ⟨j', hj', hne, _⟩ := tableRemove_cases hi hj
    rw [hparent, if_neg]
    · exact hh.parents j' c hj'
    · intro he
      have heq := hh.once (i - 1) j' c he hj'
      omega
  · intro j₁ j₂ c h₁ h₂
    obtain ⟨j₁', hj₁, _, rfl⟩ := tableRemove_cases hi h₁
    obtain ⟨j₂', hj₂, _, rfl⟩ := tableRemove_cases hi h₂
    rw [hh.once j₁' j₂' c hj₁ hj₂]

end Holds
end Heap

/-- `doc_remove` from its check of the position on. -/
theorem wp_removeAt (hh : h.Holds schemas d need xs)
    (hi : 1 ≤ i ∧ i ≤ xs.length + 1 ∨ i = 0 ∧ xs = []) :
    wp (do
      if i = 0 ∨ xs.length < i then pure none
      else do
        let v ← Orm.index schemas d (.integer i)
        docChange schemas d (.integer i) none
        modify fun h => (h.shiftDown d i (xs.length - i)).move d (.integer xs.length) none
        pure v)
      (fun v t => v = (tableRemove xs i).1 ∧ t.Holds schemas d need (tableRemove xs i).2 ∧
        h.Frame t d ∧ ∀ c, v = some (.doc c) → t.parent c = none)
      (fun _ => False) h := by
  split
  · next hout =>
    have hnone : xs[i - 1]? = none := by
      rcases hi with ⟨hi, hle⟩ | ⟨rfl, rfl⟩
      · exact List.getElem?_eq_none (by omega)
      · rfl
    have hsame : (tableRemove xs i).2 = xs := by
      exact List.eraseIdx_of_length_le (List.getElem?_eq_none_iff.mp hnone)
    refine wp_pure _ ⟨hnone.symm, ?_, ⟨Nat.le_refl _, fun _ _ => ⟨rfl, fun _ _ => rfl⟩⟩, ?_⟩
    · rw [hsame]
      exact hh
    · rintro _ ⟨⟩
  · next hin =>
    obtain ⟨hne, hle⟩ := not_or.mp hin
    have hi : 1 ≤ i := Nat.pos_of_ne_zero hne
    obtain ⟨hcheck, hparse⟩ := hh.checkK i
    refine wp_seq (wp_index schemas h d (.integer i)) (fun _ ht => absurd hcheck ht.2)
      fun v t ht => ?_
    obtain ⟨rfl, rfl, _⟩ := ht
    have hslot : t.slot d (.integer i) = xs[i - 1]? := (hh.slots _).trans (element_of_pos xs hi)
    refine wp_seq (wp_docChange hh.anchored.ends (by rintro _ ⟨⟩)) (fun w hw => ?_) fun _ w hw => ?_
    · rcases hw with ⟨⟨e, he⟩, _⟩ | ⟨k', _, ⟨⟨_, ⟨⟩, _⟩, _⟩ | ⟨_, ⟨⟩, _⟩⟩
      cases hparse.symm.trans he
    · obtain ⟨k', hk, hw, _⟩ := hw
      cases hparse.symm.trans hk
      rw [stored_nil] at hw
      have hparent : ∀ x, ((w.shiftDown d i (xs.length - i)).move d (.integer xs.length)
          none).parent x = if xs[i - 1]? = some (.doc x) then none else t.parent x := by
        intro x
        rw [Heap.parent_move, Heap.parent_shiftDown, hw.parent, if_neg (by rintro ⟨⟩), hslot]
      refine wp_bind (wp_modify _ (wp_pure _ ⟨hslot, hh.removed hi (by simp [hw.size])
        (by simp [hw.schema]) hparent (hh.slot_removed hw hi (Nat.not_lt.mp hle)), ⟨?_, ?_⟩, ?_⟩))
      · simp [hw.size]
      · intro c _
        refine ⟨by simp [hw.schema], fun hc k => ?_⟩
        rw [Heap.slot_move, if_neg fun he => hc he.1, (Heap.shift_slot_other hc).2, hw.slot,
          if_neg fun he => hc he.1]
      · intro c hc
        rw [hparent, if_pos (hslot.symm.trans hc)]

end Skyext.Orm
