import Mathlib.Data.List.Basic

namespace Snoc
set_option autoImplicit true

theorem getElem?_snoc {l : List α} {k : Nat} {x y : α} :
    (l ++ [x])[k]? = some y ↔ l[k]? = some y ∨ k = l.length ∧ x = y := by
  rcases Nat.lt_trichotomy k l.length with hk | rfl | hk
  · rw [List.getElem?_append_left hk]
    exact ⟨.inl, fun h => h.resolve_right fun h => absurd h.1 (Nat.ne_of_lt hk)⟩
  · rw [List.getElem?_concat_length, List.getElem?_eq_none (Nat.le_refl _)]
    simp
  · have hle : (l ++ [x]).length ≤ k := by
      rw [List.length_append, List.length_singleton]
      exact hk
    rw [List.getElem?_eq_none hle, List.getElem?_eq_none (Nat.le_of_lt hk)]
    simp [Nat.ne_of_gt hk]

theorem getElem?_mono {l : List α} {k : Nat} {y : α} (h : l[k]? = some y) (x : α) :
    (l ++ [x])[k]? = some y := getElem?_snoc.mpr (.inl h)

theorem getElem?_set_cases {l : List α} {i j : Nat} {x y : α} (h : (l.set i x)[j]? = some y) :
    i = j ∧ y = x ∨ i ≠ j ∧ l[j]? = some y := by
  by_cases hij : i = j
  · subst hij
    obtain ⟨_, hget⟩ := List.getElem?_eq_some_iff.mp h
    rw [List.getElem_set_self] at hget
    exact .inl ⟨rfl, hget.symm⟩
  · exact .inr ⟨hij, List.getElem?_set_ne hij ▸ h⟩

end Snoc
