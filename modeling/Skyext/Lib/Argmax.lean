import Mathlib.Data.List.MinMax

namespace Argmax
set_option autoImplicit true

variable {α β : Type*} [LinearOrder β] {f : α → β} {l l' : List α} {a b : α}

/-- Without ties the maximum of a list is the one element that no other exceeds. -/
theorem argmax_eq_some (hf : Function.Injective f) :
    l.argmax f = some a ↔ a ∈ l ∧ ∀ b ∈ l, f b ≤ f a := by
  constructor
  · intro h
    exact ⟨List.argmax_mem h, fun b hb => List.le_of_mem_argmax hb h⟩
  · rintro ⟨ha, hmax⟩
    cases hm : l.argmax f with
    | none =>
      rw [List.argmax_eq_none.mp hm] at ha
      cases ha
    | some m =>
      have hle : f a ≤ f m := List.le_of_mem_argmax ha hm
      have hge : f m ≤ f a := hmax m (List.argmax_mem hm)
      exact congrArg some (hf (hge.antisymm hle))

theorem argmax_congr (hf : Function.Injective f) (h : ∀ b, b ∈ l' ↔ b ∈ l) :
    l'.argmax f = l.argmax f := by
  apply Option.ext
  intro m
  rw [argmax_eq_some hf, argmax_eq_some hf]
  simp only [h]

theorem argmax_insert (hf : Function.Injective f) (h : ∀ b, b ∈ l' ↔ b = a ∨ b ∈ l) :
    l'.argmax f = l.argmax f ∨ l'.argmax f = some a := by
  cases hm : l.argmax f with
  | none =>
    rw [List.argmax_eq_none.mp hm] at h
    refine .inr ((argmax_eq_some hf).mpr ⟨(h a).mpr (.inl rfl), ?_⟩)
    intro b hb
    cases (h b).mp hb with
    | inl he => exact (congrArg f he).le
    | inr hb => cases hb
  | some m =>
    obtain ⟨hmem, hmax⟩ := (argmax_eq_some hf).mp hm
    rcases le_total (f a) (f m) with hle | hle
    · refine .inl ((argmax_eq_some hf).mpr ⟨(h m).mpr (.inr hmem), ?_⟩)
      intro b hb
      rcases (h b).mp hb with rfl | hb
      · exact hle
      · exact hmax b hb
    · refine .inr ((argmax_eq_some hf).mpr ⟨(h a).mpr (.inl rfl), ?_⟩)
      intro b hb
      rcases (h b).mp hb with rfl | hb
      · exact le_rfl
      · exact (hmax b hb).trans hle

theorem argmax_erase (hf : Function.Injective f) (h : ∀ b, b ∈ l' ↔ b ≠ a ∧ b ∈ l)
    (ha : l.argmax f ≠ some a) : l'.argmax f = l.argmax f := by
  cases hm : l.argmax f with
  | none =>
    rw [List.argmax_eq_none.mp hm] at h
    exact List.argmax_eq_none.mpr (List.eq_nil_iff_forall_not_mem.mpr (by simp [h]))
  | some m =>
    obtain ⟨hmem, hmax⟩ := (argmax_eq_some hf).mp hm
    have hne : m ≠ a := by
      intro he
      exact ha (he ▸ hm)
    refine (argmax_eq_some hf).mpr ⟨(h m).mpr ⟨hne, hmem⟩, ?_⟩
    intro b hb
    exact hmax b ((h b).mp hb).2

end Argmax
