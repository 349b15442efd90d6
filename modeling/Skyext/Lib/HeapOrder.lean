import Mathlib.Logic.Function.Basic
import Mathlib.Order.Defs.LinearOrder

namespace HeapOrder
set_option autoImplicit true

/-- A strict weak order that can be decided. -/
structure WeakOrder (α : Type*) where
  lt : α → α → Bool
  asymm : ∀ {a b}, lt a b = true → lt b a = false
  negTrans : ∀ {a b c}, lt a b = false → lt b c = false → lt a c = false

namespace WeakOrder

theorem irrefl (o : WeakOrder α) (a : α) : o.lt a a = false := by
  cases h : o.lt a a with
  | false => rfl
  | true => exact h.symm.trans (o.asymm h)

def ltTop (lt : α → α → Bool) : Option α → Option α → Bool
  | some a, some b => lt a b
  | some _, none => true
  | none, _ => false

/-- The order with a greatest value for the places that hold nothing. -/
def top (o : WeakOrder α) : WeakOrder (Option α) where
  lt := ltTop o.lt
  asymm := by
    intro a b h
    cases a with
    | none => cases h
    | some a =>
      cases b with
      | none => rfl
      | some b => exact o.asymm h
  negTrans := by
    intro a b c hab hbc
    cases a with
    | none => rfl
    | some a =>
      cases b with
      | none => cases hab
      | some b =>
        cases c with
        | none => cases hbc
        | some c => exact o.negTrans hab hbc

def natural (α : Type*) [LinearOrder α] : WeakOrder α where
  lt a b := @decide _ (LinearOrder.toDecidableLT a b)
  asymm h := decide_eq_false (lt_asymm (of_decide_eq_true h))
  negTrans hab hbc := by
    simp only [decide_eq_false_iff_not, not_lt] at hab hbc ⊢
    exact le_trans hbc hab

@[simp]
theorem top_some (o : WeakOrder α) (a b : α) : o.top.lt (some a) (some b) = o.lt a b := rfl

@[simp]
theorem top_none (o : WeakOrder α) (a : Option α) : o.top.lt none a = false := by
  cases a <;> rfl

end WeakOrder

/-- No place is below its parent; the places are numbered from one. -/
def Ordered (o : WeakOrder α) (v : Nat → α) : Prop :=
  ∀ i, 2 ≤ i → o.lt (v i) (v (i / 2)) = false

/-- Only the edges at one place may be out of order, and its children fit under its parent. -/
structure Touched (o : WeakOrder α) (v : Nat → α) (pos : Nat) : Prop where
  off : ∀ i, 2 ≤ i → i ≠ pos → i / 2 ≠ pos → o.lt (v i) (v (i / 2)) = false
  grand : 2 ≤ pos → ∀ i, i / 2 = pos → o.lt (v i) (v (pos / 2)) = false

/-- Only the edge to the parent may be out of order. -/
structure Rising (o : WeakOrder α) (v : Nat → α) (pos : Nat) : Prop extends Touched o v pos where
  below : ∀ i, 2 ≤ i → i / 2 = pos → o.lt (v i) (v pos) = false

/-- Only the edges to the children may be out of order. -/
structure Sinking (o : WeakOrder α) (v : Nat → α) (pos : Nat) : Prop extends Touched o v pos where
  above : 2 ≤ pos → o.lt (v pos) (v (pos / 2)) = false

def swap (v : Nat → α) (i j : Nat) : Nat → α :=
  fun k => if k = i then v j else if k = j then v i else v k

@[simp]
theorem swap_left (v : Nat → α) (i j : Nat) : swap v i j i = v j := if_pos rfl

@[simp]
theorem swap_right (v : Nat → α) (i j : Nat) : swap v i j j = v i := by
  by_cases h : j = i
  · simp [swap, h]
  · simp [swap, h]

theorem swap_other {v : Nat → α} (hi : k ≠ i) (hj : k ≠ j) : swap v i j k = v k := by
  simp [swap, hi, hj]

variable {o : WeakOrder α} {v : Nat → α} {pos : Nat}

theorem Ordered.touched (h : Ordered o v) (x : α) : Touched o (Function.update v pos x) pos := by
  constructor
  · intro i hi hne hparent
    rw [Function.update_of_ne hne, Function.update_of_ne hparent]
    exact h i hi
  · intro hpos i hi
    rw [Function.update_of_ne (by omega), Function.update_of_ne (by omega)]
    have hchild := h i (by omega)
    rw [hi] at hchild
    exact o.negTrans hchild (h pos hpos)

theorem Ordered.sinking (h : Ordered o v) (pos : Nat) : Sinking o v pos := by
  constructor
  · constructor
    · intro i hi _ _
      exact h i hi
    · intro hpos i hi
      have hchild := h i (by omega)
      rw [hi] at hchild
      exact o.negTrans hchild (h pos hpos)
  · exact h pos

theorem Ordered.root (h : Ordered o v) (i : Nat) (hi : 1 ≤ i) : o.lt (v i) (v 1) = false := by
  induction i using Nat.strongRecOn with
  | _ i ih =>
    by_cases h1 : i = 1
    · rw [h1]
      exact o.irrefl _
    · exact o.negTrans (h i (by omega)) (ih (i / 2) (by omega) (by omega))

theorem Touched.rise (h : Touched o v pos) (hpos : 1 < pos)
    (hlt : o.lt (v pos) (v (pos / 2)) = true) :
    Rising o (swap v (pos / 2) pos) (pos / 2) := by
  have hge := o.asymm hlt
  have hup (hp : 2 ≤ pos / 2) : o.lt (v (pos / 2)) (v (pos / 2 / 2)) = false :=
    h.off (pos / 2) hp (by omega) (by omega)
  have hsibling (i : Nat) (hi : i / 2 = pos / 2) (hne : i ≠ pos) :
      o.lt (v i) (v (pos / 2)) = false := by
    have := h.off i (by omega) hne (by omega)
    rwa [hi] at this
  constructor
  · constructor
    · intro i hi hne hparent
      have hpos' : i ≠ pos := fun he => hparent (by rw [he])
      rw [swap_other hne hpos']
      by_cases hc : i / 2 = pos
      · rw [hc, swap_right]
        exact h.grand hpos i hc
      · rw [swap_other hparent hc]
        exact h.off i hi hpos' hc
    · intro hp i hi
      rw [swap_other (show pos / 2 / 2 ≠ pos / 2 by omega) (show pos / 2 / 2 ≠ pos by omega)]
      by_cases he : i = pos
      · rw [he, swap_right]
        exact hup hp
      · rw [swap_other (show i ≠ pos / 2 by omega) he]
        exact o.negTrans (hsibling i hi he) (hup hp)
  · intro i hi hparent
    rw [swap_left]
    by_cases he : i = pos
    · rw [he, swap_right]
      exact hge
    · rw [swap_other (show i ≠ pos / 2 by omega) he]
      exact o.negTrans (hsibling i hparent he) hge

theorem Touched.sinking (h : Touched o v pos)
    (hge : 2 ≤ pos → o.lt (v pos) (v (pos / 2)) = false) : Sinking o v pos := ⟨h, hge⟩

theorem Rising.ordered (h : Rising o v pos)
    (hge : 2 ≤ pos → o.lt (v pos) (v (pos / 2)) = false) : Ordered o v := by
  intro i hi
  by_cases he : i = pos
  · subst he
    exact hge hi
  · by_cases hc : i / 2 = pos
    · have := h.below i hi hc
      rwa [hc]
    · exact h.off i hi he hc

theorem Sinking.sink (h : Sinking o v pos) (hpos : 1 ≤ pos) (hc : c / 2 = pos)
    (hmin : ∀ i, i / 2 = pos → o.lt (v i) (v c) = false) (hlt : o.lt (v c) (v pos) = true) :
    Sinking o (swap v pos c) c := by
  have hcp : c ≠ pos := by omega
  constructor
  · constructor
    · intro i hi hne hparent
      by_cases he : i = pos
      · rw [he, swap_left, swap_other (show pos / 2 ≠ pos by omega) (show pos / 2 ≠ c by omega)]
        exact h.grand (by omega) c hc
      · rw [swap_other he hne]
        by_cases hs : i / 2 = pos
        · rw [hs, swap_left]
          exact hmin i hs
        · rw [swap_other hs hparent]
          exact h.off i hi he hs
    · intro _ i hi
      rw [hc, swap_left, swap_other (show i ≠ pos by omega) (show i ≠ c by omega)]
      have := h.off i (by omega) (by omega) (by omega)
      rwa [hi] at this
  · intro _
    rw [hc, swap_left, swap_right]
    exact o.asymm hlt

theorem Sinking.ordered (h : Sinking o v pos)
    (hge : ∀ i, 2 ≤ i → i / 2 = pos → o.lt (v i) (v pos) = false) : Ordered o v :=
  Rising.ordered ⟨h.toTouched, hge⟩ h.above

end HeapOrder
