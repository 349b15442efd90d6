import Mathlib.Data.Nat.Basic
import Skyext.BinaryHeap.Sift
import Skyext.Lib.Machine

namespace Skyext
set_option autoImplicit true

namespace BinaryHeap
open HeapOrder Machine

namespace Plain

variable {V : Type} {o : WeakOrder V} {h : List V}

def view (lt : V → V → Bool) : View (plain lt) V where
  Ok _ := True
  entries := id
  key := id
  values_eq _ := (List.map_id _).symm
  swap_ok _ _ _ _ := trivial
  swap_entries _ _ _ _ := rfl
  erase_ok _ _ := trivial
  erase_entries _ _ := if_pos rfl

inductive Op (V : Type)
  | insert (value : V)
  | update (pos : Nat) (newValue : V)
  | remove (pos : Nat)
  | pop

/-- A call that raises an error leaves the heap as it was. -/
def call (lt : V → V → Bool) (h : List V) : Op V → List V
  | .insert value => (insert lt h value).toOption.getD h
  | .update pos newValue => (update lt h pos newValue).toOption.getD h
  | .remove pos => ((remove lt h pos).toOption.map Prod.snd).getD h
  | .pop => ((pop lt h).toOption.map Prod.snd).getD h

/-- A heap from its creation on, whatever is called. -/
def heap (lt : V → V → Bool) : System (List V) (Op V) where
  init h := h = []
  step h op := some (call lt h op)

def popMany (lt : V → V → Bool) : Nat → List V → Except String (List (Option V) × List V)
  | 0, h => .ok ([], h)
  | n + 1, h => do
    let (v, h) ← pop lt h
    let (vs, h) ← popMany lt n h
    pure (v :: vs, h)

/-- What a call does to an ordered heap. -/
structure Sound (o : WeakOrder V) (h : List V) : Prop where
  ordered : Ordered o.top (item h)
  insert (v : V) : ∃ h', insert o.lt h v = .ok h' ∧ h'.Perm (v :: h)
  update (pos : Nat) (v : V) : 1 ≤ pos → pos ≤ h.length →
    ∃ h', update o.lt h pos v = .ok h' ∧ h'.Perm (h.set (pos - 1) v)
  illegal (pos : Nat) (v : V) : ¬ (1 ≤ pos ∧ pos ≤ h.length) →
    Plain.update o.lt h pos v = .error "illegal position"
  remove (pos : Nat) : 1 ≤ pos → pos ≤ h.length →
    ∃ h', remove o.lt h pos = .ok (item h pos, h') ∧ h'.Perm (h.eraseIdx (pos - 1))
  absent (pos : Nat) : ¬ (1 ≤ pos ∧ pos ≤ h.length) → Plain.remove o.lt h pos = .ok (none, h)
  pop (v : V) : peek h = some v →
    (∀ x ∈ h, o.lt x v = false) ∧ ∃ h', pop o.lt h = .ok (some v, h') ∧ (v :: h').Perm h
  empty : peek h = none → h = [] ∧ Plain.pop o.lt h = .ok (none, h)
  drain : ∃ vs : List V, popMany o.lt h.length h = .ok (vs.map some, []) ∧ vs.Perm h ∧
    vs.Pairwise fun x y => o.lt y x = false

theorem insert_keeps (ho : Ordered o.top (item h)) (v : V) :
    ∃ h', insert o.lt h v = .ok h' ∧ h'.Perm (v :: h) ∧ Ordered o.top (item h') := by
  have hput : put h (h.length + 1) v = h ++ [v] := if_pos rfl
  obtain ⟨h', hi, hm, ho'⟩ := View.insert_ordered (w := view o.lt) rfl ho trivial hput
  refine ⟨h', hi, hm.perm.trans ?_, ho'⟩
  exact (List.Perm.of_eq hput).trans List.perm_append_comm

theorem update_keeps (ho : Ordered o.top (item h)) (hpos : 1 ≤ pos) (hlen : pos ≤ h.length)
    (v : V) : ∃ h', update o.lt h pos v = .ok h' ∧ h'.Perm (h.set (pos - 1) v) ∧
      Ordered o.top (item h') := by
  have hput : put h pos v = h.set (pos - 1) v := put_inside hlen v
  obtain ⟨h', hu, hm, ho'⟩ := View.update_ordered (w := view o.lt) rfl ho hpos hlen trivial hput
  exact ⟨h', hu, hm.perm.trans (.of_eq hput), ho'⟩

theorem remove_keeps (ho : Ordered o.top (item h)) (hpos : 1 ≤ pos) (hlen : pos ≤ h.length) :
    ∃ h', remove o.lt h pos = .ok (item h pos, h') ∧ h'.Perm (h.eraseIdx (pos - 1)) ∧
      Ordered o.top (item h') := by
  obtain ⟨h', hr, -, hp, ho'⟩ := View.remove_ordered (w := view o.lt) rfl trivial ho hpos hlen
  exact ⟨h', hr, hp, ho'⟩

theorem update_illegal (v : V) (hpos : ¬ (1 ≤ pos ∧ pos ≤ h.length)) :
    update o.lt h pos v = .error "illegal position" := if_neg hpos

theorem remove_absent (hpos : ¬ (1 ≤ pos ∧ pos ≤ h.length)) :
    remove o.lt h pos = .ok (none, h) :=
  View.remove_outside h (show pos < 1 ∨ h.length < pos by omega)

theorem peek_least (ho : Ordered o.top (item h)) (hp : peek h = some v) (hx : x ∈ h) :
    o.lt x v = false := by
  obtain ⟨i, hi, rfl⟩ := List.mem_iff_getElem.mp hx
  have hroot := ho.root (i + 1) (by omega)
  rw [item_get (by omega) (by omega), show item h 1 = some v from hp] at hroot
  exact hroot

theorem pop_keeps (ho : Ordered o.top (item h)) (hp : peek h = some v) :
    ∃ h', pop o.lt h = .ok (some v, h') ∧ (v :: h').Perm h ∧ Ordered o.top (item h') := by
  have hp1 : item h 1 = some v := hp
  cases h with
  | nil => cases hp1
  | cons a h =>
    cases hp1
    obtain ⟨h', hr, hperm, ho'⟩ := remove_keeps ho (Nat.le_refl 1) (by simp)
    refine ⟨h', ?_, .cons v hperm, ho'⟩
    refine (if_pos ?_).trans hr
    exact Option.some_ne_none v

theorem peek_none (hp : peek h = none) : h = [] := by
  cases h with
  | nil => rfl
  | cons a h => cases hp

/-- Calls of `pop` return the values in their order. -/
theorem popMany_sorted (ho : Ordered o.top (item h)) :
    ∃ vs : List V, popMany o.lt h.length h = .ok (vs.map some, []) ∧ vs.Perm h ∧
      vs.Pairwise fun x y => o.lt y x = false := by
  induction hn : h.length generalizing h with
  | zero =>
    obtain rfl := List.length_eq_zero_iff.mp hn
    exact ⟨[], rfl, .refl _, .nil⟩
  | succ n ih =>
    cases hp : peek h with
    | none => simp [peek_none hp] at hn
    | some v =>
      obtain ⟨h', hr, hperm, ho'⟩ := pop_keeps ho hp
      have hlen := hperm.length_eq
      rw [hn, List.length_cons, Nat.succ_inj] at hlen
      obtain ⟨vs, hvs, hpvs, hsorted⟩ := ih ho' hlen
      refine ⟨v :: vs, ?_, (hpvs.cons v).trans hperm, .cons ?_ hsorted⟩
      · simp only [popMany, hr, hvs, bind, Except.bind, pure, Except.pure, List.map_cons]
      · intro x hx
        exact peek_least ho hp (hperm.subset (List.mem_cons_of_mem v (hpvs.subset hx)))

theorem sound (ho : Ordered o.top (item h)) : Sound o h where
  ordered := ho
  insert v := by
    obtain ⟨h', hi, hp, -⟩ := insert_keeps ho v
    exact ⟨h', hi, hp⟩
  update pos v hpos hlen := by
    obtain ⟨h', hu, hp, -⟩ := update_keeps ho hpos hlen v
    exact ⟨h', hu, hp⟩
  illegal pos v hpos := update_illegal v hpos
  remove pos hpos hlen := by
    obtain ⟨h', hr, hp, -⟩ := remove_keeps ho hpos hlen
    exact ⟨h', hr, hp⟩
  absent pos hpos := remove_absent hpos
  pop v hv := by
    obtain ⟨h', hp, hperm, -⟩ := pop_keeps ho hv
    exact ⟨fun x hx => peek_least ho hv hx, h', hp, hperm⟩
  empty hp := by
    obtain rfl := peek_none hp
    exact ⟨rfl, rfl⟩
  drain := popMany_sorted ho

theorem call_ordered (ho : Ordered o.top (item h)) (op : Op V) :
    Ordered o.top (item (call o.lt h op)) := by
  cases op with
  | insert v =>
    obtain ⟨h', hi, -, ho'⟩ := insert_keeps ho v
    rw [call, hi]
    exact ho'
  | update pos v =>
    by_cases hpos : 1 ≤ pos ∧ pos ≤ h.length
    · obtain ⟨h', hu, -, ho'⟩ := update_keeps ho hpos.1 hpos.2 v
      rw [call, hu]
      exact ho'
    · rw [call, update_illegal v hpos]
      exact ho
  | remove pos =>
    by_cases hpos : 1 ≤ pos ∧ pos ≤ h.length
    · obtain ⟨h', hr, -, ho'⟩ := remove_keeps ho hpos.1 hpos.2
      rw [call, hr]
      exact ho'
    · rw [call, remove_absent hpos]
      exact ho
  | pop =>
    cases hp : peek h with
    | none =>
      obtain rfl := peek_none hp
      exact ho
    | some v =>
      obtain ⟨h', hr, -, ho'⟩ := pop_keeps ho hp
      rw [call, hr]
      exact ho'

theorem reaches_ordered (hr : (heap o.lt).Reaches anyStep h) : Ordered o.top (item h) := by
  apply hr.invariant (I := fun h => Ordered o.top (item h))
  · rintro h rfl
    exact ordered_nil o
  · intro h op t ho _ ht
    cases ht
    exact call_ordered ho op

/-- Whatever was called before, a heap holds what was put into it and returns a least value. -/
theorem reaches_sound (o : WeakOrder V) (hr : (heap o.lt).Reaches anyStep h) : Sound o h :=
  sound (reaches_ordered hr)

theorem reaches_sound_two : Sound (.natural Nat)
    (call (WeakOrder.natural Nat).lt (call (WeakOrder.natural Nat).lt [] (.insert 2))
      (.insert 1)) :=
  reaches_sound _ (.step (.step (.init rfl) trivial rfl) trivial rfl)

end Plain

end BinaryHeap

end Skyext
