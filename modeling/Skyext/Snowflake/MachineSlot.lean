import Mathlib.Logic.Function.Basic
import Skyext.Snowflake.Service

namespace Skyext
set_option autoImplicit true

namespace MachineSlot

/-- The range of numbers, and where the node's name is hashed to in it. -/
structure SlotConf where
  count : Nat
  start : Nat

/-- The numbers one round of `_try_claim` probes, in this order. -/
def SlotConf.candidates (conf : SlotConf) (exclude : Option Nat) : List Nat :=
  ((List.range (min Snowflake.probeLimit conf.count)).map fun i =>
    (conf.start + i) % conf.count).filter fun id => some id ≠ exclude

/-- Who holds a slot's key in etcd: this process, under a lease and with the revision the key was
created at, or somebody else. -/
inductive Owner
  | own (epoch revision : Nat)
  | other
  deriving DecidableEq

/-- How etcd has answered the transaction of a `try_lock`. -/
inductive Outcome
  | succeeded (revision : Nat)
  | found (owner : Owner)
  deriving DecidableEq

/-- `acquire`: not running, at the head of its loop (or asleep before it), or suspended in the
`try_lock` of a slot, with the slots left to probe and the epoch it read before. -/
inductive Claim
  | idle
  | looping (exclude : Option Nat)
  | waiting (exclude : Option Nat) (id : Nat) (rest : List Nat) (epoch : Nat)
    (outcome : Option Outcome)
  deriving DecidableEq

/-- A lock handle; it is one table, shared by all who refer to it. -/
structure Handle where
  slot : Nat
  epoch : Nat
  fence : Nat
  valid : Bool
  deriving DecidableEq

/-- A `release` suspended in the transaction of its `unlock`, with etcd's answer. -/
structure Unlock where
  handle : Nat
  outcome : Option Bool
  deriving DecidableEq

/-- One slot object with the lock library of its service, the node's lease and the slots' keys in
etcd. Handles are referred to by their position. `late` counts the claims sent or granted after
`release` was called, and `returned` says that a `release` has returned. -/
structure SlotState where
  id : Option Nat := none
  handle : Option Nat := none
  released : Bool := false
  claim : Claim := .idle
  forked : List (Option Nat) := []
  locks : Nat → Option Nat := fun _ => none
  handles : List Handle := []
  leaseValid : Bool := false
  epoch : Nat := 0
  etcd : Nat → Option Owner := fun _ => none
  revision : Nat := 0
  ended : List Nat := []
  unlocks : List Unlock := []
  returned : Bool := false
  late : Nat := 0

/-- The steps of a run: `acquire` is called or a forked one starts; its loop goes round; etcd
executes the transaction it waits for; the answer or an error comes back; `release` and the same
for its `unlock`; the lease is lost, comes alive, or ends in etcd; others take and free slots. -/
inductive Action
  | acquire (exclude : Option Nat)
  | startFork (k : Nat)
  | loop
  | execute
  | reply (ok : Bool)
  | release
  | executeUnlock (k : Nat)
  | replyUnlock (k : Nat) (ok : Bool)
  | leaseLost
  | leaseAlive (epoch : Nat)
  | leaseEnds (epoch : Nat)
  | otherLock (id : Nat)
  | otherUnlock (id : Nat)

namespace SlotState

def isValid (s : SlotState) (h : Nat) : Bool :=
  match s.handles[h]? with
  | some hd => hd.valid && s.leaseValid && decide (hd.epoch = s.epoch) &&
    decide (s.locks hd.slot = some h)
  | none => false

def valid (s : SlotState) : Bool := s.handle.any s.isValid

def onLost (s : SlotState) (id : Nat) : SlotState :=
  if s.released ∨ s.id ≠ some id then s
  else { s with id := none, handle := none, forked := s.forked ++ [some id] }

/-- The locks are all dropped, and those who hold them are told. Only the handle of the current
slot makes a difference to the object. -/
def invalidateAll (s : SlotState) : SlotState :=
  let t := { s with
    locks := fun _ => none
    handles := s.handles.map fun hd => { hd with valid := false } }
  match s.id with
  | some id => if (s.locks id).isSome then t.onLost id else t
  | none => t

def leaseLost (s : SlotState) : SlotState := { s with leaseValid := false }.invalidateAll

def acquire (s : SlotState) (exclude : Option Nat) : SlotState :=
  if s.claim ≠ .idle ∨ s.released then s else { s with claim := .looping exclude }

def claims (s : SlotState) : SlotState := if s.released then { s with late := s.late + 1 } else s

def granted (s : SlotState) (id h : Nat) : SlotState :=
  { s.claims with id := some id, handle := some h, claim := .idle }

/-- `_try_claim` up to the point where it is suspended or returns; a round that fails is followed
by a sleep. -/
def tryClaim (s : SlotState) (exclude : Option Nat) : List Nat → SlotState
  | [] => { s with claim := .looping exclude }
  | id :: rest =>
    match (s.locks id).filter s.isValid with
    | some h => s.granted id h
    | none =>
      if s.leaseValid then { s.claims with claim := .waiting exclude id rest s.epoch none }
      else { s with claim := .looping exclude }

/-- A lock handle for the key that stands in etcd under the current lease. -/
def newHandle (s : SlotState) (id revision : Nat) : SlotState :=
  let t := { s with
    handles := s.handles ++ [Handle.mk id s.epoch revision true]
    locks := Function.update s.locks id (some s.handles.length) }
  t.granted id s.handles.length

/-- `_try_claim` goes on with what `try_lock` makes of the reply. -/
def claimReply (s : SlotState) (exclude : Option Nat) (id : Nat) (rest : List Nat) (epoch : Nat)
    (reply : Option Outcome) : SlotState :=
  match reply with
  | none => { s with claim := .looping exclude }
  | some outcome =>
    if s.leaseValid = false ∨ epoch ≠ s.epoch then { s with claim := .looping exclude }
    else match (s.locks id).filter s.isValid with
      | some h => s.granted id h
      | none =>
        match outcome with
        | .succeeded revision => s.newHandle id revision
        | .found (.own e revision) =>
          if e = epoch then s.newHandle id revision else s.tryClaim exclude rest
        | .found .other => s.tryClaim exclude rest

def release (s : SlotState) : SlotState :=
  let t := { s with released := true, id := none, handle := none }
  match s.handle.filter s.isValid with
  | none => { t with returned := true }
  | some h => { t with unlocks := s.unlocks ++ [⟨h, none⟩] }

def dropHandle (s : SlotState) (h : Nat) (hd : Handle) : SlotState :=
  { s with
    locks := Function.update s.locks hd.slot none
    handles := s.handles.set h { hd with valid := false } }

def unlockReply (s : SlotState) (h : Nat) (hd : Handle) (ok : Bool) : SlotState :=
  let t := { s with returned := true }
  if ok then if s.isValid h then t.dropHandle h hd else t
  else if s.locks hd.slot = some h then (t.dropHandle h hd).onLost hd.slot else t

def ownsKey (s : SlotState) (hd : Handle) : Bool :=
  match s.etcd hd.slot with
  | some (.own _ revision) => decide (revision = hd.fence)
  | _ => false

def step (conf : SlotConf) (s : SlotState) : Action → Option SlotState
  | .acquire exclude => some (s.acquire exclude)
  | .startFork k => do
    let exclude ← s.forked[k]?
    some ({ s with forked := s.forked.eraseIdx k }.acquire exclude)
  | .loop =>
    match s.claim with
    | .looping exclude =>
      if s.id = none ∧ s.released = false then some (s.tryClaim exclude (conf.candidates exclude))
      else some { s with claim := .idle }
    | _ => none
  | .execute =>
    match s.claim with
    | .waiting exclude id rest epoch none =>
      match s.etcd id with
      | some owner => some { s with claim := .waiting exclude id rest epoch (some (.found owner)) }
      | none =>
        if epoch ∈ s.ended then none
        else some { s with
          revision := s.revision + 1
          etcd := Function.update s.etcd id (some (.own epoch (s.revision + 1)))
          claim := .waiting exclude id rest epoch (some (.succeeded (s.revision + 1))) }
    | _ => none
  | .reply ok =>
    match s.claim with
    | .waiting exclude id rest epoch outcome =>
      if ok = true ∧ outcome = none then none
      else some (s.claimReply exclude id rest epoch (if ok then outcome else none))
    | _ => none
  | .release => some s.release
  | .executeUnlock k => do
    let u ← s.unlocks[k]?
    let hd ← s.handles[u.handle]?
    if u.outcome ≠ none then none
    else
      some { s with
        etcd := if s.ownsKey hd then Function.update s.etcd hd.slot none else s.etcd
        unlocks := s.unlocks.set k { u with outcome := some (s.ownsKey hd) } }
  | .replyUnlock k ok => do
    let u ← s.unlocks[k]?
    let hd ← s.handles[u.handle]?
    if ok = true ∧ u.outcome = none then none
    else some ({ s with unlocks := s.unlocks.eraseIdx k }.unlockReply u.handle hd
      (ok && u.outcome.getD false))
  | .leaseLost => some s.leaseLost
  | .leaseAlive epoch =>
    let t := if s.leaseValid ∧ epoch ≠ s.epoch then s.leaseLost else s
    some { t with leaseValid := true, epoch := epoch }
  | .leaseEnds epoch =>
    some { s with
      ended := epoch :: s.ended
      etcd := fun id => (s.etcd id).filter fun owner =>
        match owner with
        | .own e _ => decide (e ≠ epoch)
        | .other => true }
  | .otherLock id =>
    if s.etcd id = none then some { s with etcd := Function.update s.etcd id (some .other) }
    else none
  | .otherUnlock id =>
    if s.etcd id = some .other then some { s with etcd := Function.update s.etcd id none }
    else none

end SlotState

def system (conf : SlotConf) : Machine.System SlotState Action :=
  ⟨fun s => s = {}, SlotState.step conf⟩

end MachineSlot
end Skyext
