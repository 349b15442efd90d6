import Mathlib.Data.List.Basic
import Mathlib.Logic.Function.Basic
import Skyext.Lib.Machine

namespace Skyext
set_option autoImplicit true

namespace EntityCall

abbrev Node := Nat

/-- Why an entity was not available; the words of the source, of which the callers compare
`lock held` and `NOT_LOADED`. -/
inductive Reason
  | leaseExpired
  | unloading
  | nodeShuttingDown
  | lockHeld (owner : Option Node)
  | loadFailed
  | notLoaded
  | leaseExpiredDuringHandler
  deriving DecidableEq

/-- What a call ends with: `true, ...`, `false, reason` or an error. -/
inductive Result
  | ok
  | refused (reason : Reason)
  | raised
  deriving DecidableEq

/-- An entity in the memory of a node, with `is_valid` of its lock handle. -/
structure Entity where
  invalid : Bool := false
  unloading : Bool := false
  leaseValid : Bool := true
  deriving DecidableEq

/-- What a node has of the entity; its gate is taken while a handler runs. -/
structure NodeState where
  entity : Option Entity := none
  gate : Bool := false
  closing : Bool := false
  deriving DecidableEq

/-- Where the node that was called is: a local attempt waits for the gate or runs the handler,
`again` in the second one, or the call has been forwarded to the node that holds the lock. -/
inductive Phase
  | waiting (again : Bool)
  | running (again : Bool)
  | forwarding
  | returned (result : Result)
  deriving DecidableEq

/-- Where the forwarded call is. -/
inductive Forward
  | none
  | sent (holder : Node)
  | running (holder : Node)
  | replied (result : Result)
  | lost
  deriving DecidableEq

/-- One invocation of `entity_call` or `entity_send` at its home node; the latter only logs the
result. Beside it, how often the handler has been started for it, and how often it has run to
its end with the lease still valid. -/
structure Call where
  home : Node
  phase : Phase := .waiting false
  forward : Forward := .none
  starts : Nat := 0
  completed : Nat := 0
  deriving DecidableEq

structure State where
  nodes : Node → NodeState
  calls : List Call

def NodeState.get (n : NodeState) : Option Entity :=
  n.entity.filter fun e => !e.invalid && !e.unloading && e.leaseValid

def NodeState.onLockExpired (n : NodeState) : NodeState :=
  { n with entity := n.entity.map fun e => { e with invalid := true } }

inductive Loading
  | loaded
  | lockHeld (owner : Option Node)
  | failed

/-- `_ensure_loaded`: the entity, or the reason why there is none. -/
def NodeState.ensureLoaded (n : NodeState) (loading : Loading) : NodeState × Except Reason Unit :=
  match n.entity with
  | some e =>
    if e.invalid ∨ e.leaseValid = false then
      (n.onLockExpired, .error .leaseExpired)
    else if e.unloading then (n, .error .unloading)
    else (n, .ok ())
  | none =>
    if n.closing then (n, .error .nodeShuttingDown)
    else
      match loading with
      | .loaded => ({ n with entity := some {} }, .ok ())
      | .lockHeld owner => (n, .error (.lockHeld owner))
      | .failed => (n, .error .loadFailed)

def remoteHolder (self : Node) : Reason → Option Node
  | .lockHeld (some holder) => if holder = self then none else some holder
  | _ => none

/-- `sticky` after a local attempt that found no entity: the first one may go on at the node
that holds the lock. -/
def Call.sticky (c : Call) (again : Bool) (reason : Reason) : Call :=
  match again, remoteHolder c.home reason with
  | false, some holder => { c with phase := .forwarding, forward := .sent holder }
  | _, _ => { c with phase := .returned (.refused reason) }

/-- `sticky` when the forwarded call has answered. -/
def Call.forwarded (c : Call) : Result → Call
  | .refused .notLoaded => { c with phase := .waiting true }
  | result => { c with phase := .returned result }

/-- What is returned once the handler has ended, where `kept` says whether the lease was still
valid. -/
def handlerResult (kept raised : Bool) : Result :=
  if !kept then .refused .leaseExpiredDuringHandler else if raised then .raised else .ok

def Call.complete (c : Call) (kept raised : Bool) : Call :=
  { c with completed := c.completed + if kept && !raised then 1 else 0 }

namespace State

def setNode (s : State) (n : Node) (x : NodeState) : State :=
  { s with nodes := Function.update s.nodes n x }

def setCall (s : State) (i : Nat) (c : Call) : State := { s with calls := s.calls.set i c }

def leave (s : State) (n : Node) (kept : Bool) : State :=
  let x := { s.nodes n with gate := false }
  s.setNode n (if kept then x else x.onLockExpired)

/-- `with_entity` asks for more at the end than `with_loaded_entity`. -/
def kept (s : State) (n : Node) : Bool :=
  (s.nodes n).entity.any fun e => !e.invalid && e.leaseValid

def keptLoaded (s : State) (n : Node) : Bool := (s.nodes n).entity.any Entity.leaseValid

end State

/-- The steps of a run. What loads, unloads, lease losses and the shutdown do to the entity of a
node comes from outside; a call is made, gets through the gate, ends its handler, is forwarded,
and its forwarding may fail before, while or after the holder has executed it. -/
inductive Action
  | entityCall (home : Node)
  | enter (i : Nat) (loading : Loading)
  | finish (i : Nat) (raised : Bool)
  | deliver (i : Nat)
  | finishLoaded (i : Nat) (raised : Bool)
  | lose (i : Nat)
  | reply (i : Nat)
  | callFailed (i : Nat)
  | load (n : Node)
  | unload (n : Node)
  | forget (n : Node)
  | leaseLost (n : Node)
  | lockExpired (n : Node)
  | close (n : Node)

/-- Which nodes have a handler for the command. -/
structure Conf where
  knows : Node → Bool

namespace State

def step (conf : Conf) (s : State) : Action → Option State
  | .entityCall home =>
    let phase := if conf.knows home then .waiting false else .returned .raised
    some { s with calls := s.calls ++ [{ home := home, phase := phase }] }
  | .enter i loading => do
    let c ← s.calls[i]?
    match c.phase with
    | .waiting again =>
      if (s.nodes c.home).gate then none
      else
        match (s.nodes c.home).ensureLoaded loading with
        | (n, .ok _) =>
          some ((s.setNode c.home { n with gate := true }).setCall i
            { c with phase := .running again, starts := c.starts + 1 })
        | (n, .error reason) => some ((s.setNode c.home n).setCall i (c.sticky again reason))
    | _ => none
  | .finish i raised => do
    let c ← s.calls[i]?
    match c.phase with
    | .running _ =>
      some ((s.leave c.home (s.kept c.home)).setCall i
        { c.complete (s.kept c.home) raised with
          phase := .returned (handlerResult (s.kept c.home) raised) })
    | _ => none
  | .deliver i => do
    let c ← s.calls[i]?
    match c.forward with
    | .sent holder =>
      if conf.knows holder = false then
        some (s.setCall i { c with forward := .replied .raised })
      else if (s.nodes holder).gate then none
      else
        match (s.nodes holder).get with
        | none => some (s.setCall i { c with forward := .replied (.refused .notLoaded) })
        | some _ =>
          some ((s.setNode holder { s.nodes holder with gate := true }).setCall i
            { c with forward := .running holder, starts := c.starts + 1 })
    | _ => none
  | .finishLoaded i raised => do
    let c ← s.calls[i]?
    match c.forward with
    | .running holder =>
      some ((s.leave holder (s.keptLoaded holder)).setCall i
        { c.complete (s.keptLoaded holder) raised with
          forward := .replied (handlerResult (s.keptLoaded holder) raised) })
    | _ => none
  | .lose i => do
    let c ← s.calls[i]?
    match c.forward with
    | .sent _ => some (s.setCall i { c with forward := .lost })
    | _ => none
  | .reply i => do
    let c ← s.calls[i]?
    match c.phase, c.forward with
    | .forwarding, .replied result => some (s.setCall i (c.forwarded result))
    | _, _ => none
  | .callFailed i => do
    let c ← s.calls[i]?
    match c.phase with
    | .forwarding => some (s.setCall i { c with phase := .returned .raised })
    | _ => none
  | .load n =>
    if (s.nodes n).gate ∨ (s.nodes n).entity.isSome then none
    else some (s.setNode n { s.nodes n with entity := some {} })
  | .unload n =>
    if (s.nodes n).gate then none
    else
      some (s.setNode n { s.nodes n with
        entity := (s.nodes n).entity.map fun e => { e with unloading := true } })
  | .forget n =>
    if (s.nodes n).gate then none else some (s.setNode n { s.nodes n with entity := none })
  | .leaseLost n =>
    some (s.setNode n { s.nodes n with
      entity := (s.nodes n).entity.map fun e => { e with leaseValid := false } })
  | .lockExpired n =>
    if (s.nodes n).entity.any fun e => !e.leaseValid then
      some (s.setNode n (s.nodes n).onLockExpired)
    else none
  | .close n => some (s.setNode n { s.nodes n with closing := true })

def empty : State := ⟨fun _ => {}, []⟩

end State

def system (conf : Conf) : Machine.System State Action := ⟨(· = State.empty), State.step conf⟩

end EntityCall

end Skyext
