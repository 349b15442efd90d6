import Mathlib.Algebra.Order.Ring.Rat
import Mathlib.Tactic.Linarith
import Skyext.Lib.Machine

namespace Skyext
set_option autoImplicit true

namespace Http
open Machine

/-- Times are in hundredths of a second. -/
structure Guard where
  deadline : Option Rat := none
  reason : Option String := none
  expired : Option String := none
  running : Bool := false
  deriving DecidableEq

/-- A watcher coroutine that is about to run, or asleep. -/
inductive Watcher
  | ready
  | sleeping (wakeAt : Rat)
  deriving DecidableEq

/-- The coroutine has been forked or woken, or has slept as long as it wanted by then. -/
def Watcher.wakesBy (time : Rat) : Watcher → Bool
  | .ready => true
  | .sleeping wakeAt => decide (wakeAt ≤ time)

/-- A shutdown of the fd with the reason noted for it and what the last `set` asked for, if nothing
has revoked it. -/
structure Shutdown where
  time : Rat
  expired : Option String
  due : Option (Rat × String)
  deriving DecidableEq

structure Conn where
  guard : Guard := {}
  now : Rat := 0
  watchers : List Watcher := []
  due : Option (Rat × String) := none
  shutdowns : List Shutdown := []
  deriving DecidableEq

/-- The calls of the guard, a pass of the loop of a watcher, and the clock. -/
inductive Action
  | set (seconds : Rat) (reason : String)
  | cancel
  | watch (i : Nat)
  | advance (ticks : Rat)

def ticksPerSecond : Rat := 100

namespace Conn

def wakeup (s : Conn) : Conn := { s with watchers := s.watchers.map fun _ => .ready }

def cancel (s : Conn) : Conn :=
  { s with
    guard := { s.guard with deadline := none, reason := none }
    due := none }.wakeup

def fork (s : Conn) : Conn :=
  if s.guard.running then s
  else
    { s with
      guard := { s.guard with running := true }
      watchers := s.watchers ++ [.ready] }

def set (s : Conn) (seconds : Rat) (reason : String) : Conn :=
  if seconds ≤ 0 then s.cancel
  else
    { s with
      guard := { s.guard with
        deadline := some (s.now + seconds * ticksPerSecond)
        reason := some reason }
      due := some (s.now + seconds * ticksPerSecond, reason) }.fork

def exit (s : Conn) (i : Nat) : Conn :=
  { s with
    guard := { s.guard with running := false }
    watchers := s.watchers.eraseIdx i }

def shutdown (s : Conn) : Conn :=
  { s with
    guard := { s.guard with expired := s.guard.reason, deadline := none }
    due := none
    shutdowns := s.shutdowns ++ [⟨s.now, s.guard.reason, s.due⟩] }

/-- One pass of the loop of `watch`. -/
def watch (s : Conn) (i : Nat) : Conn :=
  match s.guard.deadline with
  | none => s.exit i
  | some deadline =>
    if deadline - s.now ≤ 0 then s.shutdown.exit i
    else { s with watchers := s.watchers.set i (.sleeping (s.now + (deadline - s.now))) }

/-- The clock does not go past a watcher that is to run. -/
def canAdvance (s : Conn) (ticks : Rat) : Watcher → Bool
  | .ready => false
  | .sleeping wakeAt => decide (s.now + ticks ≤ wakeAt)

def step (s : Conn) : Action → Option Conn
  | .set seconds reason => some (s.set seconds reason)
  | .cancel => some s.cancel
  | .watch i =>
    match s.watchers[i]? with
    | some w => if w.wakesBy s.now then some (s.watch i) else none
    | none => none
  | .advance ticks =>
    if 0 < ticks ∧ s.watchers.all (s.canAdvance ticks) then some { s with now := s.now + ticks }
    else none

end Conn

def system : System Conn Action := ⟨fun s => s = {}, Conn.step⟩

/-- The fd is shut down exactly when the deadline of the last `set` is reached, for its reason. -/
structure Conn.OnTime (s : Conn) : Prop where
  due : ∀ sh ∈ s.shutdowns, ∃ reason, sh.due = some (sh.time, reason) ∧ sh.expired = some reason
  notPast : ∀ deadline reason, s.due = some (deadline, reason) → s.now ≤ deadline
  expired : s.guard.expired = s.shutdowns.getLast?.bind Shutdown.expired
  one : s.watchers.length ≤ 1

/-- No deadline is set that comes before the watcher wakes up. -/
def NotShortened (s : Conn) : Action → Prop
  | .set seconds _ =>
    0 < seconds → s.watchers.all (Watcher.wakesBy (s.now + seconds * ticksPerSecond))
  | _ => True

instance (s : Conn) (a : Action) : Decidable (NotShortened s a) := by
  cases a <;> unfold NotShortened <;> infer_instance

/-- Whoever is asleep wakes up in time, and a deadline always has its watcher. -/
structure Conn.Inv (s : Conn) : Prop extends s.OnTime where
  deadline : s.guard.deadline = s.due.map Prod.fst
  reason : ∀ deadline reason, s.due = some (deadline, reason) → s.guard.reason = some reason
  running : s.guard.running = true ↔ s.watchers ≠ []
  watched : s.due ≠ none → s.guard.running = true
  asleep : ∀ wakeAt, .sleeping wakeAt ∈ s.watchers →
    s.now ≤ wakeAt ∧ ∀ deadline ∈ s.guard.deadline, wakeAt ≤ deadline

namespace Conn

variable {s t : Conn}

theorem Inv.cancel (h : s.Inv) : s.cancel.Inv := by
  refine ⟨⟨h.due, ?_, h.expired, ?_⟩, rfl, ?_, ?_, ?_, ?_⟩
  · rintro _ _ ⟨⟩
  · simpa [Conn.cancel, wakeup] using h.one
  · rintro _ _ ⟨⟩
  · simpa [Conn.cancel, wakeup] using h.running
  · intro hne
    exact absurd rfl hne
  · intro wakeAt hw
    obtain ⟨_, _, he⟩ := List.mem_map.mp hw
    cases he

theorem fork_spec (hrun : s.guard.running = true ↔ s.watchers ≠ []) (hone : s.watchers.length ≤ 1) :
    s.fork = { s with guard := { s.guard with running := true }, watchers := s.fork.watchers } ∧
      s.fork.watchers ≠ [] ∧ s.fork.watchers.length ≤ 1 ∧
      ∀ wakeAt, .sleeping wakeAt ∈ s.fork.watchers → .sleeping wakeAt ∈ s.watchers := by
  rw [fork]
  split
  · next hr => exact ⟨by rw [← hr], hrun.mp hr, hone, fun _ hw => hw⟩
  · next hr =>
    have hnil : s.watchers = [] := not_not.mp fun hne => hr (hrun.mpr hne)
    simp [hnil]

theorem Inv.set (h : s.Inv) (reason : String)
    (hok : 0 < seconds → s.watchers.all (Watcher.wakesBy (s.now + seconds * ticksPerSecond))) :
    (s.set seconds reason).Inv := by
  rw [Conn.set]
  split
  · exact h.cancel
  · next hs =>
    have hpos : 0 < seconds := not_le.mp hs
    let t : Conn := { s with
      guard := { s.guard with
        deadline := some (s.now + seconds * ticksPerSecond)
        reason := some reason }
      due := some (s.now + seconds * ticksPerSecond, reason) }
    obtain ⟨he, hne, hone, hold⟩ := fork_spec (s := t) h.running h.one
    change t.fork.Inv
    rw [he]
    refine ⟨⟨h.due, ?_, h.expired, hone⟩, rfl, ?_, ⟨fun _ => hne, fun _ => rfl⟩, fun _ => rfl, ?_⟩
    · intro deadline reason' hd
      cases hd
      have hmul : 0 < seconds * ticksPerSecond := mul_pos hpos (by decide +kernel)
      exact (lt_add_of_pos_right s.now hmul).le
    · intro deadline reason' hd
      cases hd
      rfl
    · intro wakeAt hw
      have hin := hold wakeAt hw
      refine ⟨(h.asleep wakeAt hin).1, ?_⟩
      intro deadline hd
      cases hd
      exact of_decide_eq_true (List.all_eq_true.mp (hok hpos) _ hin)

theorem Inv.exit (h : s.Inv) (hi : s.watchers[i]? = some w) (hdue : s.due = none) :
    (s.exit i).Inv := by
  have hnil : s.watchers.eraseIdx i = [] := by
    have hlt := (List.getElem?_eq_some_iff.mp hi).1
    have hlen := List.length_eraseIdx_of_lt hlt
    have hone := h.one
    exact List.length_eq_zero_iff.mp (by omega)
  refine ⟨⟨h.due, h.notPast, h.expired, ?_⟩, h.deadline, h.reason, ?_, ?_, ?_⟩
  · simp [Conn.exit, hnil]
  · simp [Conn.exit, hnil]
  · intro hne
    exact absurd hdue hne
  · intro wakeAt hw
    rw [Conn.exit, hnil] at hw
    cases hw

theorem Inv.shutdown {deadline : Rat} (h : s.Inv) (hd : s.guard.deadline = some deadline)
    (hle : deadline ≤ s.now) : s.shutdown.Inv := by
  have hdue : ∃ reason, s.due = some (deadline, reason) := by
    have he := h.deadline.symm.trans hd
    obtain ⟨⟨d, reason⟩, hdue, rfl⟩ := Option.map_eq_some_iff.mp he
    exact ⟨reason, hdue⟩
  obtain ⟨reason, hdue⟩ := hdue
  have hnow : deadline = s.now := le_antisymm hle (h.notPast deadline reason hdue)
  subst hnow
  refine ⟨⟨?_, ?_, ?_, h.one⟩, rfl, ?_, h.running, ?_, ?_⟩
  · intro sh hsh
    rcases List.mem_append.mp hsh with hsh | hsh
    · exact h.due sh hsh
    · cases List.mem_singleton.mp hsh
      exact ⟨reason, hdue, h.reason _ _ hdue⟩
  · rintro _ _ ⟨⟩
  · simp [Conn.shutdown]
  · rintro _ _ ⟨⟩
  · intro hne
    exact absurd rfl hne
  · intro wakeAt hw
    refine ⟨(h.asleep wakeAt hw).1, ?_⟩
    rintro _ ⟨⟩

theorem Inv.watch (h : s.Inv) (hi : s.watchers[i]? = some w) : (s.watch i).Inv := by
  rw [Conn.watch]
  cases hd : s.guard.deadline with
  | none =>
    have hdue : s.due = none := Option.map_eq_none_iff.mp (h.deadline.symm.trans hd)
    exact h.exit hi hdue
  | some deadline =>
    simp only
    split
    · next hle =>
      exact (h.shutdown hd (sub_nonpos.mp hle)).exit hi rfl
    · next hgt =>
      have hlt : s.now < deadline := sub_pos.mp (not_le.mp hgt)
      refine ⟨⟨h.due, h.notPast, h.expired, ?_⟩, h.deadline, h.reason, ?_, h.watched, ?_⟩
      · simpa using h.one
      · simpa using h.running
      · intro wakeAt hw
        have hall : ∀ w ∈ s.watchers.set i (.sleeping (s.now + (deadline - s.now))),
            w = .sleeping (s.now + (deadline - s.now)) := by
          intro w' hw'
          obtain ⟨j, hj, rfl⟩ := List.getElem_of_mem hw'
          have hone := h.one
          have hlti := (List.getElem?_eq_some_iff.mp hi).1
          rw [List.length_set] at hj
          obtain rfl : i = j := by omega
          simp
        cases hall _ hw
        rw [add_sub_cancel]
        refine ⟨hlt.le, ?_⟩
        intro d hd'
        cases hd.symm.trans hd'
        exact le_refl _

theorem Inv.advance (h : s.Inv) (hall : s.watchers.all (s.canAdvance ticks)) :
    Inv { s with now := s.now + ticks } := by
  have hsleep : ∀ w ∈ s.watchers, ∃ wakeAt, w = .sleeping wakeAt ∧ s.now + ticks ≤ wakeAt := by
    intro w hw
    have hc := List.all_eq_true.mp hall w hw
    cases w with
    | ready => cases hc
    | sleeping wakeAt => exact ⟨wakeAt, rfl, of_decide_eq_true hc⟩
  refine { h with notPast := ?_, asleep := ?_ }
  · intro deadline reason hd
    have hne := h.running.mp (h.watched (by rw [hd]; rintro ⟨⟩))
    obtain ⟨w, hw⟩ := List.exists_mem_of_ne_nil _ hne
    obtain ⟨wakeAt, rfl, hle⟩ := hsleep w hw
    have hdl : s.guard.deadline = some deadline := h.deadline.trans (by rw [hd]; rfl)
    exact hle.trans ((h.asleep wakeAt hw).2 deadline hdl)
  · intro wakeAt hw
    obtain ⟨_, he, hle⟩ := hsleep _ hw
    cases he
    exact ⟨hle, (h.asleep wakeAt hw).2⟩

theorem Inv.step (h : s.Inv) (hok : NotShortened s a) (ht : system.step s a = some t) : t.Inv := by
  cases a with
  | set seconds reason =>
    cases ht
    exact h.set reason hok
  | cancel =>
    cases ht
    exact h.cancel
  | watch i =>
    simp only [system, Conn.step] at ht
    split at ht
    · next w hi =>
      obtain ⟨_, he⟩ := Option.ite_none_right_eq_some.mp ht
      cases he
      exact h.watch hi
    · cases ht
  | advance ticks =>
    obtain ⟨⟨_, hall⟩, he⟩ := Option.ite_none_right_eq_some.mp ht
    cases he
    exact h.advance hall

end Conn

theorem deadline_on_time (h : system.Reaches NotShortened s) : s.OnTime := by
  have hinv : s.Inv := by
    refine h.invariant (I := Conn.Inv) ?_ fun _ _ _ hi hok ht => hi.step hok ht
    intro s hs
    rw [hs]
    refine ⟨⟨?_, ?_, rfl, Nat.zero_le _⟩, rfl, ?_, by simp, ?_, ?_⟩
    · rintro sh ⟨⟩
    · rintro _ _ ⟨⟩
    · rintro _ _ ⟨⟩
    · intro hne
      exact absurd rfl hne
    · rintro wakeAt ⟨⟩
  exact hinv.toOnTime

/-- A deadline is moved later, revoked, set again before the watcher has run, and reached. -/
def served : List Action :=
  [.set 10 "read", .watch 0, .advance 500, .set 10 "write", .advance 500, .watch 0, .cancel,
    .set 5 "keepalive", .watch 0, .advance 500, .watch 0]

theorem deadline_on_time_served :
    (system.run NotShortened {} served (by decide +kernel)).OnTime :=
  deadline_on_time (system.run_reaches NotShortened served rfl (by decide +kernel))

/-- The first byte of a request on an idle connection shortens the deadline of the sleeping
watcher. -/
def shortened : List Action :=
  [.set 60 "keepalive", .watch 0, .advance 100, .set 10 "read", .advance 2000]

theorem deadline_missed : ¬ ∀ s, system.Reaches anyStep s → s.OnTime := by
  intro h
  have hle := (h _ (system.run_reaches anyStep shortened rfl (by decide +kernel))).notPast
    1100 "read" (by decide +kernel)
  exact absurd hle (by decide +kernel)

end Http
end Skyext
