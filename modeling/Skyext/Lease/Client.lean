import Mathlib.Data.List.Basic

namespace Skyext
set_option autoImplicit true

/-- What the lease service sends to its clients. A snapshot that is not nil is handled like an
`alive` event. -/
inductive LeaseEvent
  | alive (leaseid : Option Nat) (epoch : Nat) (deadline : Option Int)
  | lost (epoch : Nat) (reason : String)
  deriving DecidableEq

/-- One call of `fire_lost`, with the callbacks it has run. -/
structure LeaseLoss where
  epoch : Nat
  reason : String
  callbacks : List String
  deriving DecidableEq

/-- The lease library in one service: its view of the lease, the registered callbacks, the events
on their way to it, the epochs it has seen alive and heard to be lost, and its `fire_lost` calls. -/
structure LeaseClient where
  leaseid : Option Nat := none
  epoch : Nat := 0
  deadline : Option Int := none
  onLost : List String := []
  subscribed : Bool := false
  queue : List LeaseEvent := []
  seen : List Nat := []
  heard : List Nat := []
  fired : List LeaseLoss := []
  deriving DecidableEq

def LeaseEvent.aliveEpoch? : LeaseEvent → Option Nat
  | .alive _ epoch _ => some epoch
  | .lost .. => none

def LeaseEvent.lostEpoch? : LeaseEvent → Option Nat
  | .alive .. => none
  | .lost epoch _ => some epoch

namespace LeaseClient

def fireLost (c : LeaseClient) (epoch : Nat) (reason : String) : LeaseClient :=
  { c with fired := c.fired ++ [⟨epoch, reason, c.onLost⟩] }

def clear (c : LeaseClient) (epoch : Nat) (reason : String) : LeaseClient :=
  match c.leaseid with
  | none => c
  | some _ => { c with leaseid := none, deadline := none }.fireLost epoch reason

def onLeaseAlive (c : LeaseClient) (leaseid : Option Nat) (epoch : Nat) (deadline : Option Int) :
    LeaseClient :=
  let c := if epoch ≠ c.epoch ∧ c.leaseid.isSome then
    c.clear c.epoch "superseded by a new lease" else c
  { c with leaseid := leaseid, epoch := epoch, deadline := deadline, seen := epoch :: c.seen }

def onLeaseLost (c : LeaseClient) (epoch : Nat) (reason : String) : LeaseClient :=
  let c := { c with heard := epoch :: c.heard }
  if epoch ≠ c.epoch then c else c.clear epoch reason

def isValid (now : Int) (c : LeaseClient) : Bool := c.leaseid.isSome && c.deadline.any (now < ·)

/-- The state after `valid`, which gives up a lease whose deadline has passed. -/
def valid (now : Int) (c : LeaseClient) : LeaseClient :=
  match c.deadline with
  | none => c
  | some d => if d ≤ now then c.clear c.epoch "lease deadline elapsed without a refresh" else c

def receive (c : LeaseClient) : LeaseEvent → LeaseClient
  | .alive leaseid epoch deadline => c.onLeaseAlive leaseid epoch deadline
  | .lost epoch reason => c.onLeaseLost epoch reason

def deliver (c : LeaseClient) : Option LeaseClient :=
  match c.queue with
  | [] => none
  | e :: queue => some ({ c with queue := queue }.receive e)

def lostEpochs (c : LeaseClient) : List Nat := c.fired.map LeaseLoss.epoch

end LeaseClient

end Skyext
