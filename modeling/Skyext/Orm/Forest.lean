import Skyext.Lib.Parents
import Skyext.Orm.Doc

namespace Skyext.Orm
set_option autoImplicit true

open Parents

variable {h t u : Heap} {c d d' i n x : Nat} {k k' : Key} {v : Option Value}

theorem Slots.lookup_write (stage : Slots) (k : Key) (v : Option Value) (k' : Key) :
    (stage.write k v).lookup k' = if k' = k then v else stage.lookup k' := by
  by_cases hk : k' = k
  · subst hk
    rw [if_pos rfl]
    cases v with
    | none => exact AList.lookup_erase _ _
    | some v => exact AList.lookup_insert _
  · rw [if_neg hk]
    cases v with
    | none => exact AList.lookup_erase_ne hk
    | some v => exact AList.lookup_insert_ne hk

namespace Heap

@[simp] theorem parent_setParent (h : Heap) (c : Nat) (p : Option Nat) (x : Nat) :
    (h.setParent c p).parent x = if x = c then p else h.parent x := by
  simp only [parent, setParent, modify]
  split <;> rfl

@[simp] theorem slot_setParent (h : Heap) (c : Nat) (p : Option Nat) (d : Nat) :
    (h.setParent c p).slot d = h.slot d := by
  funext k
  simp only [slot, setParent, modify]
  split
  · next hd => rw [hd]
  · rfl

@[simp] theorem schema_setParent (h : Heap) (c : Nat) (p : Option Nat) (d : Nat) :
    (h.setParent c p).schema d = h.schema d := by
  simp only [schema, setParent, modify]
  split
  · next hd => rw [hd]
  · rfl

@[simp] theorem size_setParent (h : Heap) (c : Nat) (p : Option Nat) :
    (h.setParent c p).size = h.size := rfl

@[simp] theorem parent_move (h : Heap) (d : Nat) (k : Key) (v : Option Value) (x : Nat) :
    (h.move d k v).parent x = h.parent x := by
  simp only [parent, move, modify]
  split
  · next hd => rw [hd]
  · rfl

@[simp] theorem slot_move (h : Heap) (d : Nat) (k : Key) (v : Option Value) (d' : Nat) (k' : Key) :
    (h.move d k v).slot d' k' = if d' = d ∧ k' = k then v else h.slot d' k' := by
  simp only [slot, move, modify]
  by_cases hd : d' = d
  · subst hd
    simp only [if_true, true_and]
    exact Slots.lookup_write ..
  · simp only [hd, if_false, false_and]

@[simp] theorem schema_move (h : Heap) (d : Nat) (k : Key) (v : Option Value) (x : Nat) :
    (h.move d k v).schema x = h.schema x := by
  simp only [schema, move, modify]
  split
  · next hd => rw [hd]
  · rfl

@[simp] theorem size_move (h : Heap) (d : Nat) (k : Key) (v : Option Value) :
    (h.move d k v).size = h.size := rfl

@[simp] theorem parent_release (h : Heap) (v : Option Value) (x : Nat) :
    (h.release v).parent x = if v = some (.doc x) then none else h.parent x := by
  unfold release
  split
  · next c => simp only [parent_setParent, Option.some.injEq, Value.doc.injEq, eq_comm]
  · next hv => rw [if_neg (hv x)]

@[simp] theorem slot_release (h : Heap) (v : Option Value) (d : Nat) :
    (h.release v).slot d = h.slot d := by
  unfold release
  split <;> simp

@[simp] theorem schema_release (h : Heap) (v : Option Value) (d : Nat) :
    (h.release v).schema d = h.schema d := by
  unfold release
  split <;> simp

@[simp] theorem size_release (h : Heap) (v : Option Value) : (h.release v).size = h.size := by
  unfold release
  split <;> rfl

@[simp] theorem parent_restore (h : Heap) (d : Nat) (v : Value) (x : Nat) :
    (h.restore d v).parent x = if v = .doc x then some d else h.parent x := by
  cases v with
  | doc c => simp only [restore, parent_setParent, Value.doc.injEq, eq_comm]
  | scalar s => simp [restore]

@[simp] theorem slot_restore (h : Heap) (d : Nat) (v : Value) (x : Nat) :
    (h.restore d v).slot x = h.slot x := by
  cases v <;> simp [restore]

@[simp] theorem schema_restore (h : Heap) (d : Nat) (v : Value) (x : Nat) :
    (h.restore d v).schema x = h.schema x := by
  cases v <;> simp [restore]

@[simp] theorem size_restore (h : Heap) (d : Nat) (v : Value) : (h.restore d v).size = h.size := by
  cases v <;> rfl

/-- The heaps differ in no more than marks. -/
structure Same (h t : Heap) : Prop where
  size : t.size = h.size
  schema : ∀ x, t.schema x = h.schema x
  parent : ∀ x, t.parent x = h.parent x
  slot : ∀ d k, t.slot d k = h.slot d k

theorem Same.refl (h : Heap) : h.Same h := ⟨rfl, fun _ => rfl, fun _ => rfl, fun _ _ => rfl⟩

theorem Same.trans (h₁ : h.Same t) (h₂ : t.Same u) : h.Same u :=
  ⟨h₂.size.trans h₁.size, fun x => (h₂.schema x).trans (h₁.schema x),
    fun x => (h₂.parent x).trans (h₁.parent x), fun d k => (h₂.slot d k).trans (h₁.slot d k)⟩

theorem Same.modify (h : Heap) (d : Nat) {f : Doc → Doc} (hs : ∀ doc, (f doc).schema = doc.schema)
    (hp : ∀ doc, (f doc).parent = doc.parent) (hst : ∀ doc, (f doc).stage = doc.stage) :
    h.Same (h.modify d f) := by
  constructor
  case size => rfl
  case schema =>
    intro x
    simp only [Heap.schema, Heap.modify]
    split
    · next hx => rw [hs, hx]
    · rfl
  case parent =>
    intro x
    simp only [Heap.parent, Heap.modify]
    split
    · next hx => rw [hp, hx]
    · rfl
  case slot =>
    intro x k
    simp only [Heap.slot, Heap.modify]
    split
    · next hx => rw [hst, hx]
    · rfl

theorem Same.touch (h : Heap) (d : Nat) : h.Same (h.touch d) :=
  .modify h d (fun _ => rfl) (fun _ => rfl) fun _ => rfl

theorem Same.foldl_touch (h : Heap) (l : List Nat) : h.Same (l.foldl Heap.touch h) := by
  induction l generalizing h with
  | nil => exact .refl h
  | cons d l ih => exact (Same.touch h d).trans (ih _)

theorem Same.clearDirtyFrom (n : Nat) (h : Heap) (d : Nat) : h.Same (clearDirtyFrom n h d) := by
  induction n generalizing h d with
  | zero => exact .refl h
  | succ n ih =>
    have hfold (l : List Nat) (t : Heap) : t.Same (l.foldl (Heap.clearDirtyFrom n) t) := by
      induction l generalizing t with
      | nil => exact .refl t
      | cons c l ihl => exact (ih t c).trans (ihl _)
    have hclear : h.Same (h.clearDirtyDoc d) :=
      .modify h d (fun _ => rfl) (fun _ => rfl) fun _ => rfl
    exact hclear.trans (hfold (h.children d) _)

/-- `mark_dirty` goes through the document and everything above it, up to the root. -/
theorem markDirtyFrom_eq (hl : Path h.parent d l) (hn : l.length ≤ n) :
    h.markDirtyFrom n (some d) = some (l.foldl touch h) := by
  have hgen : ∀ t : Heap, (∀ x, t.parent x = h.parent x) →
      t.markDirtyFrom n (some d) = some (l.foldl touch t) := by
    induction hl generalizing n with
    | @root d hd =>
      intro t ht
      cases n with
      | zero => cases hn
      | succ n => simp only [markDirtyFrom, ht, hd, List.foldl_cons, List.foldl_nil]
    | @child d b l hd _ ih =>
      intro t ht
      cases n with
      | zero => cases hn
      | succ n =>
        simp only [markDirtyFrom, ht, hd, List.foldl_cons]
        exact ih (Nat.le_of_succ_le_succ hn) _ fun x => ((Same.touch t d).parent x).trans (ht x)
  exact hgen h fun _ => rfl

theorem shift_slot_other (hd : d' ≠ d) :
    (h.shiftUp d i n).slot d' = h.slot d' ∧ (h.shiftDown d i n).slot d' = h.slot d' := by
  constructor
  · induction n generalizing h with
    | zero => rfl
    | succ n ih =>
      rw [shiftUp, ih]
      funext k
      rw [slot_move, if_neg fun he => hd he.1]
  · induction n generalizing h i with
    | zero => rfl
    | succ n ih =>
      rw [shiftDown, ih]
      funext k
      rw [slot_move, if_neg fun he => hd he.1]

@[simp] theorem parent_shiftUp (h : Heap) (d i n x : Nat) :
    (h.shiftUp d i n).parent x = h.parent x := by
  induction n generalizing h with
  | zero => rfl
  | succ n ih => rw [shiftUp, ih, parent_move]

@[simp] theorem schema_shiftUp (h : Heap) (d i n x : Nat) :
    (h.shiftUp d i n).schema x = h.schema x := by
  induction n generalizing h with
  | zero => rfl
  | succ n ih => rw [shiftUp, ih, schema_move]

@[simp] theorem size_shiftUp (h : Heap) (d i n : Nat) : (h.shiftUp d i n).size = h.size := by
  induction n generalizing h with
  | zero => rfl
  | succ n ih => rw [shiftUp, ih, size_move]

@[simp] theorem parent_shiftDown (h : Heap) (d i n x : Nat) :
    (h.shiftDown d i n).parent x = h.parent x := by
  induction n generalizing h i with
  | zero => rfl
  | succ n ih => rw [shiftDown, ih, parent_move]

@[simp] theorem schema_shiftDown (h : Heap) (d i n x : Nat) :
    (h.shiftDown d i n).schema x = h.schema x := by
  induction n generalizing h i with
  | zero => rfl
  | succ n ih => rw [shiftDown, ih, schema_move]

@[simp] theorem size_shiftDown (h : Heap) (d i n : Nat) : (h.shiftDown d i n).size = h.size := by
  induction n generalizing h i with
  | zero => rfl
  | succ n ih => rw [shiftDown, ih, size_move]

/-- Where the loop of `doc_insert` takes the new content of a slot from. -/
theorem slot_shiftUp (h : Heap) (d i n : Nat) (m : Int) :
    (h.shiftUp d i n).slot d (.integer m) =
      if ↑i + 2 ≤ m ∧ m ≤ ↑i + ↑n + 1 then h.slot d (.integer (m - 1))
      else h.slot d (.integer m) := by
  induction n generalizing h with
  | zero =>
    rw [shiftUp, if_neg]
    omega
  | succ n ih =>
    rw [shiftUp, ih]
    simp only [slot_move, true_and, Key.integer.injEq]
    split <;> split <;> split <;> first | rfl | omega | skip
    · congr 2
      omega

theorem slot_shiftDown (h : Heap) (d i n : Nat) (m : Int) :
    (h.shiftDown d i n).slot d (.integer m) =
      if ↑i ≤ m ∧ m < ↑i + ↑n then h.slot d (.integer (m + 1)) else h.slot d (.integer m) := by
  induction n generalizing h i with
  | zero =>
    rw [shiftDown, if_neg]
    omega
  | succ n ih =>
    rw [shiftDown, ih]
    simp only [slot_move, true_and, Key.integer.injEq]
    split <;> split <;> split <;> first | rfl | omega | skip
    · congr 2
      omega

theorem slot_shift_string (h : Heap) (d i n : Nat) (s : String) :
    (h.shiftUp d i n).slot d (.string s) = h.slot d (.string s) ∧
      (h.shiftDown d i n).slot d (.string s) = h.slot d (.string s) := by
  constructor
  · induction n generalizing h with
    | zero => rfl
    | succ n ih =>
      rw [shiftUp, ih, slot_move, if_neg]
      rintro ⟨_, ⟨⟩⟩
  · induction n generalizing h i with
    | zero => rfl
    | succ n ih =>
      rw [shiftDown, ih, slot_move, if_neg]
      rintro ⟨_, ⟨⟩⟩

/-- Documents are in slots exactly as their parents say, in one slot each, and without cycles. -/
structure Forest (h : Heap) : Prop where
  parent_iff : ∀ x d, h.parent x = some d ↔ ∃ k, h.slot d k = some (.doc x)
  once : ∀ x d k d' k', h.slot d k = some (.doc x) → h.slot d' k' = some (.doc x) → d = d' ∧ k = k'
  rooted : ∀ x, Rooted h.parent x

theorem Forest.congr (hf : h.Forest) (hp : ∀ x, t.parent x = h.parent x)
    (hs : ∀ d k, t.slot d k = h.slot d k) : t.Forest := by
  constructor
  case parent_iff =>
    intro x d
    simp only [hp, hs]
    exact hf.parent_iff x d
  case once =>
    intro x d k d' k'
    simp only [hs]
    exact hf.once x d k d' k'
  case rooted => exact fun x => (hf.rooted x).congr fun y _ => hp y

/-- The slots of `d` are as in `h` except for one, which gets `v`. -/
structure Written (h t : Heap) (d : Nat) (k : Key) (v : Option Value) : Prop where
  size : t.size = h.size
  schema : ∀ x, t.schema x = h.schema x
  parent : ∀ x, t.parent x =
    if v = some (.doc x) then some d else if h.slot d k = some (.doc x) then none else h.parent x
  slot : ∀ d' k', t.slot d' k' = if d' = d ∧ k' = k then v else h.slot d' k'

theorem Written.trans (hw : h.Written t d k v) (hs : t.Same u) : h.Written u d k v :=
  ⟨hs.size.trans hw.size, fun x => (hs.schema x).trans (hw.schema x),
    fun x => (hs.parent x).trans (hw.parent x),
    fun d' k' => (hs.slot d' k').trans (hw.slot d' k')⟩

/-- Only a root may be written, and not below itself. -/
theorem Forest.written (hf : h.Forest) (hw : h.Written t d k v)
    (hv : ∀ c, v = some (.doc c) → h.parent c = none ∧ ¬ Above h.parent c d) : t.Forest := by
  have hfree {c d' : Nat} {k' : Key} (hc : v = some (.doc c)) :
      h.slot d' k' ≠ some (.doc c) := by
    intro hs
    cases (hv c hc).1.symm.trans ((hf.parent_iff c d').mpr ⟨k', hs⟩)
  constructor
  case parent_iff =>
    intro x d'
    rw [hw.parent]
    simp only [hw.slot]
    split
    · next hx =>
      rw [Option.some_inj]
      constructor
      · rintro rfl
        exact ⟨k, by rw [if_pos ⟨rfl, rfl⟩, hx]⟩
      · rintro ⟨k', hk⟩
        split at hk
        · next he => exact he.1.symm
        · exact absurd hk (hfree hx)
    · next hx =>
      split
      · next hs =>
        refine ⟨by rintro ⟨⟩, ?_⟩
        rintro ⟨k', hk⟩
        split at hk
        · exact absurd hk hx
        · next he => exact absurd ⟨(hf.once x d k d' k' hs hk).1.symm,
            (hf.once x d k d' k' hs hk).2.symm⟩ he
      · next hs =>
        rw [hf.parent_iff]
        constructor
        · rintro ⟨k', hk⟩
          refine ⟨k', ?_⟩
          rw [if_neg, hk]
          rintro ⟨rfl, rfl⟩
          exact hs hk
        · rintro ⟨k', hk⟩
          split at hk
          · exact absurd hk hx
          · exact ⟨k', hk⟩
  case once =>
    intro x d₁ k₁ d₂ k₂ h₁ h₂
    rw [hw.slot] at h₁ h₂
    split at h₁
    · next he₁ =>
      split at h₂
      · next he₂ => exact ⟨he₁.1.trans he₂.1.symm, he₁.2.trans he₂.2.symm⟩
      · exact absurd h₂ (hfree h₁)
    · split at h₂
      · exact absurd h₁ (hfree h₂)
      · exact hf.once x d₁ k₁ d₂ k₂ h₁ h₂
  case rooted =>
    intro x
    have hdetach {y : Nat} : Rooted (fun z => if h.slot d k = some (.doc z) then none
        else h.parent z) y := by
      refine (hf.rooted y).detach fun z => ?_
      split
      · exact .inr rfl
      · exact .inl rfl
    cases v with
    | none => exact hdetach.congr fun y _ => by rw [hw.parent, if_neg (by rintro ⟨⟩)]
    | some v =>
      cases v with
      | scalar s => exact hdetach.congr fun y _ => by rw [hw.parent, if_neg (by rintro ⟨⟩)]
      | doc c =>
        have habove : ¬ Above (fun z => if h.slot d k = some (.doc z) then none
            else h.parent z) c d := by
          refine fun ha => (hv c rfl).2 (ha.mono fun y z hy => ?_)
          split at hy
          · cases hy
          · exact hy
        refine (hdetach.attach hdetach habove).congr fun y _ => ?_
        rw [hw.parent]
        by_cases hy : y = c
        · subst hy
          rw [if_pos rfl, Function.update_self]
        · rw [if_neg fun he => hy (Value.doc.inj (Option.some.inj he)).symm,
            Function.update_of_ne hy]

theorem Forest.rearranged (hf : h.Forest) (f : Key → Option Key)
    (hparent : ∀ x, t.parent x = h.parent x)
    (hother : ∀ d', d' ≠ d → ∀ k, t.slot d' k = h.slot d' k)
    (hslot : ∀ k, t.slot d k = (f k).bind (h.slot d))
    (hinj : ∀ k k' j, f k = some j → f k' = some j → k = k')
    (hcover : ∀ j, (h.slot d j).isSome → ∃ k, f k = some j) : t.Forest := by
  have hback {d' x : Nat} {k : Key} (hk : t.slot d' k = some (.doc x)) :
      ∃ j, h.slot d' j = some (.doc x) ∧ (d' = d → f k = some j) := by
    by_cases hd : d' = d
    · subst hd
      rw [hslot, Option.bind_eq_some_iff] at hk
      obtain ⟨j, hj, hk⟩ := hk
      exact ⟨j, hk, fun _ => hj⟩
    · exact ⟨k, (hother d' hd k).symm.trans hk, fun he => absurd he hd⟩
  constructor
  case parent_iff =>
    intro x d'
    rw [hparent, hf.parent_iff]
    constructor
    · rintro ⟨j, hj⟩
      by_cases hd : d' = d
      · subst hd
        obtain ⟨k, hk⟩ := hcover j (by rw [hj]; rfl)
        exact ⟨k, by rw [hslot, hk]; exact hj⟩
      · exact ⟨j, (hother d' hd j).trans hj⟩
    · rintro ⟨k, hk⟩
      obtain ⟨j, hj, _⟩ := hback hk
      exact ⟨j, hj⟩
  case once =>
    intro x d₁ k₁ d₂ k₂ h₁ h₂
    obtain ⟨j₁, hj₁, hf₁⟩ := hback h₁
    obtain ⟨j₂, hj₂, hf₂⟩ := hback h₂
    obtain ⟨rfl, rfl⟩ := hf.once x d₁ j₁ d₂ j₂ hj₁ hj₂
    refine ⟨rfl, ?_⟩
    by_cases hd : d₁ = d
    · exact hinj k₁ k₂ j₁ (hf₁ hd) (hf₂ hd)
    · have hk := (hother d₁ hd k₁).symm.trans h₁
      have hk' := (hother d₁ hd k₂).symm.trans h₂
      exact (hf.once x d₁ k₁ d₁ k₂ hk hk').2
  case rooted => exact fun x => (hf.rooted x).congr fun y _ => hparent y

end Heap

end Skyext.Orm
