import Mathlib.Algebra.Order.Ring.Nat
import Mathlib.Data.List.Basic
import Mathlib.Logic.Function.Basic

namespace Window
set_option autoImplicit true

/-- The buffer holds, under its position counted from one, exactly the entries of the log after
the first `lo`. -/
def Covers (log : List α) (lo : Nat) (buf : Nat → Option α) : Prop :=
  ∀ i, buf i = if lo < i then log[i - 1]? else none

def weight (w : α → Nat) (l : List α) : Nat := (l.map w).sum

theorem weight_append (w : α → Nat) (l m : List α) :
    weight w (l ++ m) = weight w l + weight w m := by
  simp only [weight, List.map_append, List.sum_append]

theorem weight_cons (w : α → Nat) (a : α) (l : List α) :
    weight w (a :: l) = w a + weight w l := by
  simp only [weight, List.map_cons, List.sum_cons]

theorem Covers.empty (log : List α) : Covers log log.length fun _ => none := by
  intro i
  split
  · rw [List.getElem?_eq_none (by omega)]
  · rfl

theorem Covers.push {log : List α} (h : Covers log lo buf) (hlo : lo ≤ log.length) (a : α) :
    Covers (log ++ [a]) lo (Function.update buf (log.length + 1) (some a)) := by
  intro i
  rcases Nat.lt_trichotomy i (log.length + 1) with hi | rfl | hi
  · rw [Function.update_of_ne (by omega), h i]
    split
    · rw [List.getElem?_append_left (by omega)]
    · rfl
  · rw [Function.update_self, if_pos (by omega)]
    simp only [Nat.add_sub_cancel, List.getElem?_concat_length]
  · rw [Function.update_of_ne (by omega), h i]
    split
    · rw [List.getElem?_eq_none (by omega), List.getElem?_eq_none]
      simp only [List.length_append, List.length_singleton]
      omega
    · rfl

theorem Covers.trim (h : Covers log lo buf) :
    Covers log (lo + 1) (Function.update buf (lo + 1) none) := by
  intro i
  rcases Nat.lt_trichotomy i (lo + 1) with hi | rfl | hi
  · rw [Function.update_of_ne (by omega), h i, if_neg (by omega), if_neg (by omega)]
  · rw [Function.update_self, if_neg (by omega)]
  · rw [Function.update_of_ne (by omega), h i, if_pos (by omega), if_pos (by omega)]

theorem Covers.get (h : Covers log lo buf) (hi : lo ≤ i) : buf (i + 1) = log[i]? := by
  rw [h (i + 1), if_pos (by omega), Nat.add_sub_cancel]

theorem filterMap_range (l : List α) : (List.range l.length).filterMap (fun k => l[k]?) = l := by
  induction l with
  | nil => rfl
  | cons a l ih =>
    rw [List.length_cons, List.range_succ_eq_map, List.filterMap_cons, List.filterMap_map]
    exact congrArg (a :: ·) ih

/-- The entries of the buffer, in the order of their positions, are the log after the first
`lo`. -/
theorem Covers.entries {log : List α} (h : Covers log lo buf) :
    (List.range (log.length - lo)).filterMap (fun k => buf (lo + 1 + k)) = log.drop lo := by
  have hget : (fun k => buf (lo + 1 + k)) = fun k => (log.drop lo)[k]? := by
    funext k
    rw [Nat.add_right_comm, h.get (Nat.le_add_right lo k), List.getElem?_drop]
  rw [hget, ← List.length_drop]
  exact filterMap_range (log.drop lo)

end Window
