import Mathlib.Data.List.Perm.Basic
import Mathlib.Data.Rat.Floor
import Mathlib.Logic.Function.Basic
import Skyext.Lib.Machine

namespace Skyext
set_option autoImplicit true

namespace SaveWheel

/-- One slot a second, at least one. -/
def slotCount (period : Rat) : Nat := max 1 (period + 1 / 2).floor.toNat

/-- The task a tick forks: not started, about to look at the next of the keys it has snapshot, or
suspended in the callback of an entry. -/
inductive Flush (α : Type*)
  | forked
  | running (slot : Nat) (keys : List α)
  | calling (slot : Nat) (entry : α) (keys : List α)
  deriving DecidableEq

/-- What an observer of the wheel sees. -/
inductive Event (α : Type*)
  | added (entry : α) (slot : Nat)
  | removed (entry : α)
  | flushStart
  | handed (entry : α)
  | raised (entry : α)
  | flushEnd
  deriving DecidableEq

/-- The wheel with the flushes it has forked and a record of what happened. `slots` holds the keys
of each slot's table. -/
structure Wheel (α : Type*) where
  slots : Nat → List α := fun _ => []
  slotOf : α → Option Nat := fun _ => none
  hand : Nat := 0
  count : Int := 0
  flushing : Bool := false
  timer : Bool := false
  flushes : List (Flush α) := []
  history : List (Event α) := []

/-- The steps of a run: `add` with the random slot, `remove`, a tick of the timer, and the next
step of a flush, with the order `pairs` yields the entries in. -/
inductive Action (α : Type*)
  | add (entry : α) (slot : Nat)
  | remove (entry : α)
  | tick
  | startFlush (k : Nat) (order : List α)
  | next (k : Nat)
  | returned (k : Nat)
  | raised (k : Nat)
  | endFlush (k : Nat)

variable {α : Type*} [DecidableEq α]

namespace Wheel

def log (w : Wheel α) (e : Event α) : Wheel α := { w with history := w.history ++ [e] }

/-- An entry that is on the wheel fails the assertion. -/
def add (w : Wheel α) (entry : α) (slot : Nat) : Wheel α :=
  if w.slotOf entry = none then
    { w with
      slotOf := Function.update w.slotOf entry (some slot)
      slots := Function.update w.slots slot (entry :: w.slots slot)
      count := w.count + 1
      timer := true }.log (.added entry slot)
  else w

def remove (w : Wheel α) (entry : α) : Wheel α :=
  match w.slotOf entry with
  | none => w
  | some slot =>
    { w with
      slotOf := Function.update w.slotOf entry none
      slots := Function.update w.slots slot ((w.slots slot).erase entry)
      count := w.count - 1 }.log (.removed entry)

/-- A tick during a flush is dropped. -/
def tick (w : Wheel α) : Wheel α :=
  if w.flushing then w else { w with flushing := true, flushes := w.flushes ++ [.forked] }

def setFlush (w : Wheel α) (k : Nat) (f : Flush α) : Wheel α :=
  { w with flushes := w.flushes.set k f }

/-- The next key of the snapshot, which may have been removed since. -/
def next (w : Wheel α) (k slot : Nat) (entry : α) (keys : List α) : Wheel α :=
  if entry ∈ w.slots slot then (w.setFlush k (.calling slot entry keys)).log (.handed entry)
  else w.setFlush k (.running slot keys)

def step (n : Nat) (w : Wheel α) : Action α → Option (Wheel α)
  | .add entry slot => if 1 ≤ slot ∧ slot ≤ n then some (w.add entry slot) else none
  | .remove entry => some (w.remove entry)
  | .tick => if w.timer then some w.tick else none
  | .startFlush k order =>
    match w.flushes[k]? with
    | some .forked =>
      let hand := w.hand % n + 1
      if order.Perm (w.slots hand) then
        some (({ w with hand := hand }.setFlush k (.running hand order)).log .flushStart)
      else none
    | _ => none
  | .next k =>
    match w.flushes[k]? with
    | some (.running slot (entry :: keys)) => some (w.next k slot entry keys)
    | _ => none
  | .returned k =>
    match w.flushes[k]? with
    | some (.calling slot _ keys) => some (w.setFlush k (.running slot keys))
    | _ => none
  | .raised k =>
    match w.flushes[k]? with
    | some (.calling slot entry keys) =>
      some ((w.setFlush k (.running slot keys)).log (.raised entry))
    | _ => none
  | .endFlush k =>
    match w.flushes[k]? with
    | some (.running _ []) =>
      some ({ w with flushing := false, flushes := w.flushes.eraseIdx k }.log .flushEnd)
    | _ => none

end Wheel

def system (α : Type*) [DecidableEq α] (period : Rat) : Machine.System (Wheel α) (Action α) :=
  ⟨fun w => w = {}, Wheel.step (slotCount period)⟩

end SaveWheel
end Skyext
