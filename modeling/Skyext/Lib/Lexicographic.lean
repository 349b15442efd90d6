import Mathlib.Data.List.Lex
import Mathlib.Order.Cover

namespace Lexicographic
set_option autoImplicit true

variable [LinearOrder α] {a b c m x : α} {p k l : List α}

theorem cons_le_cons_iff : a :: l ≤ x :: k ↔ a < x ∨ a = x ∧ l ≤ k := by
  rw [← not_lt, List.cons_lt_cons_iff, ← not_lt]
  constructor
  · intro h
    rcases lt_trichotomy a x with hlt | rfl | hgt
    · exact .inl hlt
    · exact .inr ⟨rfl, fun hk => h (.inr ⟨rfl, hk⟩)⟩
    · exact absurd (.inl hgt) h
  · rintro (hlt | ⟨rfl, hk⟩) (hgt | ⟨he, hk'⟩)
    · exact lt_asymm hlt hgt
    · exact lt_irrefl a (he ▸ hlt)
    · exact lt_irrefl a hgt
    · exact hk hk'

theorem nil_le (k : List α) : [] ≤ k := not_lt.mp (List.not_lt_nil k)

theorem not_cons_le_nil : ¬ a :: l ≤ [] := not_le.mpr (List.nil_lt_cons a l)

theorem replicate_le_iff (hm : ∀ x, x ≤ m) (n : Nat) :
    List.replicate n m ≤ k ↔ List.replicate n m <+: k := by
  induction n generalizing k with
  | zero => exact ⟨fun _ => List.nil_prefix, fun _ => nil_le k⟩
  | succ n ih =>
    rw [List.replicate_succ]
    cases k with
    | nil => exact ⟨fun h => absurd h not_cons_le_nil, fun h => absurd h (by simp)⟩
    | cons x k =>
      rw [cons_le_cons_iff, List.cons_prefix_cons, ih]
      constructor
      · rintro (hlt | ⟨he, hp⟩)
        · exact absurd (hm x) (not_le_of_gt hlt)
        · exact ⟨he, hp⟩
      · exact .inr

/-- What begins with a list lies between it and the list whose last element that is not the
greatest is replaced by the next one, with the rest dropped. -/
theorem prefix_iff (hm : ∀ x, x ≤ m) (hc : b ⋖ c) (p : List α) (n : Nat) (k : List α) :
    p ++ b :: List.replicate n m ≤ k ∧ k < p ++ [c] ↔ p ++ b :: List.replicate n m <+: k := by
  induction p generalizing k with
  | nil =>
    cases k with
    | nil => exact ⟨fun h => absurd h.1 not_cons_le_nil, fun h => absurd h (by simp)⟩
    | cons x k =>
      rw [List.nil_append, List.nil_append, cons_le_cons_iff, List.cons_prefix_cons,
        List.cons_lt_cons_iff, replicate_le_iff hm]
      constructor
      · rintro ⟨hlt | ⟨he, hp⟩, hxc⟩
        · rcases hxc with hxc | ⟨_, hk⟩
          · exact absurd hxc (hc.2 hlt)
          · exact absurd hk (List.not_lt_nil k)
        · exact ⟨he, hp⟩
      · rintro ⟨rfl, hp⟩
        exact ⟨.inr ⟨rfl, hp⟩, .inl hc.lt⟩
  | cons a p ih =>
    cases k with
    | nil => exact ⟨fun h => absurd h.1 not_cons_le_nil, fun h => absurd h (by simp)⟩
    | cons x k =>
      rw [List.cons_append, List.cons_append, cons_le_cons_iff, List.cons_prefix_cons,
        List.cons_lt_cons_iff]
      constructor
      · rintro ⟨hax | ⟨rfl, hle⟩, hxa | ⟨he, hlt⟩⟩
        · exact absurd hxa (lt_asymm hax)
        · exact absurd hax (he ▸ lt_irrefl a)
        · exact absurd hxa (lt_irrefl a)
        · exact ⟨rfl, (ih k).mp ⟨hle, hlt⟩⟩
      · rintro ⟨rfl, hp⟩
        obtain ⟨hle, hlt⟩ := (ih k).mpr hp
        exact ⟨.inr ⟨rfl, hle⟩, .inr ⟨rfl, hlt⟩⟩

end Lexicographic
