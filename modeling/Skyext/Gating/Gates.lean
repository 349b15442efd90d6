import Skyext.Lib.Fifo
import Skyext.Lib.Machine

namespace Skyext
set_option autoImplicit true

namespace Gating
open Machine

/-- A gate object of `_with_gate`, or a lock object of `with_row_lock`. -/
structure Gate (Q : Fifo.Queue κ) where
  run : Q.State
  users : Nat

/-- A call that has not returned; the gate goes by the number it was created with. -/
structure Call (κ K : Type) where
  caller : κ
  key : K
  gate : Nat
  deriving DecidableEq

/-- What a body returns, its missing values being nil, or the error that comes out of the queue. -/
abbrev Result (V : Type) := Except String (List (Option V))

/-- The two functions differ in the values they pass on. -/
inductive Wrapper
  | withGate
  | withRowLock

def Wrapper.unpack : Wrapper → List (Option V) → List (Option V)
  | .withGate, values => values
  | .withRowLock, values => [values.getD 0 none, values.getD 1 none]

def Wrapper.pass (w : Wrapper) : Result V → Result V
  | .ok values => .ok (w.unpack values)
  | .error e => .error e

/-- The table of gates and the gate objects, with the calls in the body, the last to enter first,
and those that wait, the first to arrive first. A record is kept, for each key, of the coroutines
that arrived from outside and of those that were let in, and of all results. -/
structure Gates (κ K V : Type) (Q : Fifo.Queue κ) where
  gates : K → Option Nat
  size : Nat
  objects : Nat → Gate Q
  running : List (Call κ K)
  queued : List (Call κ K)
  arrived : K → List κ
  admitted : K → List κ
  returned : List (Result V × Result V)

/-- A coroutine calls the function with a key; the body of a running call returns or raises. In
between anything may happen. -/
inductive Action (κ K V : Type)
  | call (caller : κ) (key : K)
  | finish (i : Nat) (result : Result V)

namespace Gates

variable {κ K V : Type} [DecidableEq κ] [DecidableEq K] {Q : Fifo.Queue κ}

def initial (κ K V : Type) (Q : Fifo.Queue κ) : Gates κ K V Q :=
  ⟨fun _ => none, 0, fun _ => ⟨Q.new, 0⟩, [], [], fun _ => [], fun _ => [], []⟩

def setObject (s : Gates κ K V Q) (g : Nat) (gate : Gate Q) : Gates κ K V Q :=
  { s with objects := fun g' => if g' = g then gate else s.objects g' }

def ensureGate (s : Gates κ K V Q) (key : K) : Gates κ K V Q × Nat :=
  match s.gates key with
  | some g => (s, g)
  | none =>
    ({ s.setObject s.size ⟨Q.new, 0⟩ with
      gates := fun key' => if key' = key then some s.size else s.gates key'
      size := s.size + 1 }, s.size)

def addUser (s : Gates κ K V Q) (g : Nat) : Gates κ K V Q :=
  s.setObject g { s.objects g with users := (s.objects g).users + 1 }

/-- The key leaves the table with its last user. -/
def removeUser (s : Gates κ K V Q) (key : K) (g : Nat) : Gates κ K V Q :=
  let t := s.setObject g { s.objects g with users := (s.objects g).users - 1 }
  if (t.objects g).users = 0 then
    { t with gates := fun key' => if key' = key then none else t.gates key' }
  else t

def holds (s : Gates κ K V Q) (g : Nat) (caller : κ) : Bool :=
  ((Q.holder (s.objects g).run).map Prod.fst) == some caller

def letIn (s : Gates κ K V Q) (call : Call κ K) : Gates κ K V Q :=
  { s with
    running := call :: s.running
    admitted := fun key =>
      if key = call.key then s.admitted key ++ [call.caller] else s.admitted key }

def arrive (s : Gates κ K V Q) (call : Call κ K) : Gates κ K V Q :=
  { s with
    arrived := fun key =>
      if key = call.key then s.arrived key ++ [call.caller] else s.arrived key }

/-- `gate.run` up to where the body starts or the coroutine waits. -/
def enterGate (s : Gates κ K V Q) (call : Call κ K) : Gates κ K V Q :=
  let gate := s.objects call.gate
  let t := s.setObject call.gate { gate with run := Q.enter call.caller gate.run }
  if s.holds call.gate call.caller then { t with running := call :: t.running }
  else if t.holds call.gate call.caller then (t.arrive call).letIn call
  else { t.arrive call with queued := t.queued ++ [call] }

def call (s : Gates κ K V Q) (caller : κ) (key : K) : Gates κ K V Q :=
  let g := (s.ensureGate key).2
  ((s.ensureGate key).1.addUser g).enterGate ⟨caller, key, g⟩

def resume (s : Gates κ K V Q) (g : Nat) : Gates κ K V Q :=
  match s.queued.find? fun x => x.gate == g && s.holds g x.caller with
  | some x =>
    { s.letIn x with queued := s.queued.eraseP fun x => x.gate == g && s.holds g x.caller }
  | none => s

def leaveGate (s : Gates κ K V Q) (g : Nat) : Gates κ K V Q :=
  let gate := s.objects g
  (s.setObject g { gate with run := Q.leave gate.run }).resume g

def finish (w : Wrapper) (s : Gates κ K V Q) (i : Nat) (call : Call κ K) (result : Result V) :
    Gates κ K V Q :=
  let t := { s with running := s.running.eraseIdx i }
  let u := (t.leaveGate call.gate).removeUser call.key call.gate
  { u with returned := u.returned ++ [(result, w.pass result)] }

/-- A coroutine that waits does nothing else. -/
def waits (s : Gates κ K V Q) (caller : κ) : Bool := s.queued.any fun x => x.caller == caller

/-- Of the calls of one coroutine the last to enter ends first. -/
def canFinish (s : Gates κ K V Q) (i : Nat) (call : Call κ K) : Bool :=
  !s.waits call.caller && (s.running.take i).all fun x => x.caller != call.caller

def step (w : Wrapper) (s : Gates κ K V Q) : Action κ K V → Option (Gates κ K V Q)
  | .call caller key => if s.waits caller then none else some (s.call caller key)
  | .finish i result =>
    match s.running[i]? with
    | some call => if s.canFinish i call then some (s.finish w i call result) else none
    | none => none

end Gates

def system [DecidableEq κ] [DecidableEq K] (V : Type) (Q : Fifo.Queue κ) (w : Wrapper) :
    System (Gates κ K V Q) (Action κ K V) := ⟨fun s => s = .initial κ K V Q, Gates.step w⟩

/-- The same error, or the same values at all positions. -/
def Result.Same : Result V → Result V → Prop
  | .ok values, .ok values' => ∀ i : Nat, values.getD i none = values'.getD i none
  | .error e, .error e' => e = e'
  | _, _ => False

/-- One coroutine at a time is in the body for a key, they are let in as they arrive, the gate of a
key stays while a call of it is in progress and no longer, and results are passed on. -/
structure Gates.Serialized {Q : Fifo.Queue κ} (s : Gates κ K V Q) : Prop where
  one : ∀ x ∈ s.running, ∀ y ∈ s.running, x.key = y.key → x.caller = y.caller
  order : ∀ key, s.admitted key <+: s.arrived key
  kept : ∀ x ∈ s.running ++ s.queued, s.gates x.key = some x.gate
  gone : ∀ key, s.gates key ≠ none → ∃ x ∈ s.running ++ s.queued, x.key = key
  passed : ∀ r ∈ s.returned, r.1.Same r.2

/-- A body under a row lock returns nothing but nil beyond its second value. -/
def Passes (w : Wrapper) {Q : Fifo.Queue κ} (_ : Gates κ K V Q) : Action κ K V → Prop
  | .finish _ (.ok values) =>
    match w with
    | .withGate => True
    | .withRowLock => (values.drop 2).all Option.isNone
  | _ => True

instance (w : Wrapper) {Q : Fifo.Queue κ} (s : Gates κ K V Q) (a : Action κ K V) :
    Decidable (Passes w s a) := by
  unfold Passes
  split
  · split <;> infer_instance
  · infer_instance

end Gating
end Skyext
