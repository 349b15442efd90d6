import Mathlib.Logic.Function.Basic
import Mathlib.Data.List.Basic

namespace Machine
set_option autoImplicit true

/-- A system as its initial states and a partial step function; an action carries every choice
the environment makes in that step. -/
structure System (σ α : Type*) where
  init : σ → Prop
  step : σ → α → Option σ

/-- A condition on steps that excludes nothing. -/
def anyStep : σ → α → Prop := fun _ _ => True

instance (s : σ) (a : α) : Decidable (anyStep s a) := inferInstanceAs (Decidable True)

/-- Executes a list of actions, failing as soon as one of them is not enabled or violates the
condition `ok`. -/
def System.exec (M : System σ α) (ok : σ → α → Prop) [∀ s a, Decidable (ok s a)] (s : σ) :
    List α → Option σ
  | [] => some s
  | a :: as => if ok s a then (M.step s a).bind fun t => M.exec ok t as else none

/-- The states reached by runs every step of which meets the condition `ok`. -/
inductive System.Reaches (M : System σ α) (ok : σ → α → Prop) : σ → Prop
  | init : M.init s → Reaches M ok s
  | step : Reaches M ok s → ok s a → M.step s a = some t → Reaches M ok t

theorem System.Reaches.invariant {M : System σ α} {I : σ → Prop} (h : M.Reaches ok s)
    (hinit : ∀ s, M.init s → I s)
    (hstep : ∀ s a t, I s → ok s a → M.step s a = some t → I t) : I s := by
  induction h with
  | init hs => exact hinit _ hs
  | step _ hok ht ih => exact hstep _ _ _ ih hok ht

theorem System.Reaches.mono {M : System σ α} (h : M.Reaches ok s)
    (himp : ∀ s a, ok s a → ok' s a) : M.Reaches ok' s := by
  induction h with
  | init hs => exact .init hs
  | step _ hok ht ih => exact .step ih (himp _ _ hok) ht

theorem System.Reaches.exec {M : System σ α} [∀ s a, Decidable (ok s a)] (h : M.Reaches ok s)
    (he : M.exec ok s as = some t) : M.Reaches ok t := by
  induction as generalizing s with
  | nil =>
    cases he
    exact h
  | cons a as ih =>
    simp only [System.exec, Option.ite_none_right_eq_some] at he
    obtain ⟨u, hu, ht⟩ := Option.bind_eq_some_iff.mp he.2
    exact ih (.step h he.1 hu) ht

def System.run (M : System σ α) (ok : σ → α → Prop) [∀ s a, Decidable (ok s a)] (s : σ)
    (as : List α) (h : (M.exec ok s as).isSome) : σ :=
  (M.exec ok s as).get h

theorem System.run_reaches (M : System σ α) (ok : σ → α → Prop) [∀ s a, Decidable (ok s a)]
    (as : List α) (hs : M.init s) (h : (M.exec ok s as).isSome) : M.Reaches ok (M.run ok s as h) :=
  (System.Reaches.init hs).exec (Option.some_get _).symm

/-- Along a run whose steps all meet `ok`, two invariants may be proved one after the other. -/
theorem System.Reaches.invariant_with {M : System σ α} {I J : σ → Prop} (h : M.Reaches ok s)
    (hI : ∀ s, M.Reaches ok s → I s) (hinit : ∀ s, M.init s → J s)
    (hstep : ∀ s a t, I s → J s → ok s a → M.step s a = some t → J t) : J s := by
  induction h with
  | init hs => exact hinit _ hs
  | step hr hok ht ih => exact hstep _ _ _ (hI _ hr) ih hok ht

end Machine
