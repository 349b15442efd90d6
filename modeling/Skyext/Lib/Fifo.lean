import Mathlib.Data.List.Basic

namespace Fifo
set_option autoImplicit true

/-- A queue that lets coroutines run one after another, by what it shows: the one that runs with
the number of its calls within one another beyond the first, and those that wait. A coroutine that
runs is let in again at once. -/
structure Queue (κ : Type) where
  State : Type
  new : State
  enter : κ → State → State
  leave : State → State
  holder : State → Option (κ × Nat)
  waiting : State → List κ
  new_holder : holder new = none
  new_waiting : waiting new = []
  enter_free : holder q = none →
    holder (enter c q) = some (c, 0) ∧ waiting (enter c q) = waiting q
  enter_again : holder q = some (c, n) →
    holder (enter c q) = some (c, n + 1) ∧ waiting (enter c q) = waiting q
  enter_busy : holder q = some (d, n) → d ≠ c →
    holder (enter c q) = some (d, n) ∧ waiting (enter c q) = waiting q ++ [c]
  leave_nested : holder q = some (c, n + 1) →
    holder (leave q) = some (c, n) ∧ waiting (leave q) = waiting q
  leave_last : holder q = some (c, 0) →
    holder (leave q) = (waiting q).head?.map (·, 0) ∧ waiting (leave q) = (waiting q).tail

/-- The variables of `skynet.queue`; a coroutine that is woken counts itself in. -/
structure Threads (κ : Type) where
  current : Option κ
  ref : Nat
  threadQueue : List κ

namespace Threads

def enter [DecidableEq κ] (c : κ) (q : Threads κ) : Threads κ :=
  match q.current with
  | some d =>
    if d = c then { q with ref := q.ref + 1 } else { q with threadQueue := q.threadQueue ++ [c] }
  | none => { q with current := some c, ref := 1 }

def leave (q : Threads κ) : Threads κ :=
  if q.ref = 1 then
    match q.threadQueue with
    | [] => { q with current := none, ref := 0 }
    | d :: rest => ⟨some d, 1, rest⟩
  else { q with ref := q.ref - 1 }

def holder (q : Threads κ) : Option (κ × Nat) := q.current.map fun c => (c, q.ref - 1)

end Threads

def skynetQueue (κ : Type) [DecidableEq κ] : Queue κ where
  State := { q : Threads κ // q.current.isSome → 0 < q.ref }
  new := ⟨⟨none, 0, []⟩, by simp⟩
  enter c q := ⟨q.1.enter c, by
    have hq := q.2
    rw [Threads.enter]
    split
    · next d hd =>
      have hpos := hq (by rw [hd]; rfl)
      split <;> simp [hpos]
    · simp⟩
  leave q := ⟨q.1.leave, by
    have hq := q.2
    rw [Threads.leave]
    split
    · split <;> simp
    · next hne =>
      intro hs
      have hpos := hq hs
      simp only
      omega⟩
  holder q := q.1.holder
  waiting q := q.1.threadQueue
  new_holder := rfl
  new_waiting := rfl
  enter_free := by
    intro q c hq
    have hc : q.1.current = none := Option.map_eq_none_iff.mp hq
    simp [Threads.enter, Threads.holder, hc]
  enter_again := by
    intro q c n hq
    obtain ⟨d, hc, he⟩ := Option.map_eq_some_iff.mp hq
    cases he
    have hpos := q.2 (by rw [hc]; rfl)
    simp only [Threads.enter, Threads.holder, hc, if_true, Option.map_some, Option.some.injEq,
      Prod.mk.injEq, true_and, and_true]
    omega
  enter_busy := by
    intro q d n c hq hne
    obtain ⟨d', hc, he⟩ := Option.map_eq_some_iff.mp hq
    cases he
    simp [Threads.enter, Threads.holder, hc, hne]
  leave_nested := by
    intro q c n hq
    obtain ⟨d, hc, he⟩ := Option.map_eq_some_iff.mp hq
    obtain ⟨rfl, hn⟩ := Prod.mk.inj he
    have hne : ¬ q.1.ref = 1 := by omega
    simp only [Threads.leave, Threads.holder, hc, hne, if_false, Option.map_some,
      Option.some.injEq, Prod.mk.injEq, true_and, and_true]
    omega
  leave_last := by
    intro q c hq
    obtain ⟨d, hc, he⟩ := Option.map_eq_some_iff.mp hq
    obtain ⟨rfl, hn⟩ := Prod.mk.inj he
    have hpos := q.2 (by rw [hc]; rfl)
    have hone : q.1.ref = 1 := by omega
    simp only [Threads.leave, hone, if_true]
    cases q.1.threadQueue <;> simp [Threads.holder]

end Fifo
