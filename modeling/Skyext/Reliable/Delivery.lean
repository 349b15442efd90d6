import Skyext.Entity.Mgr
import Skyext.Reliable.Message

namespace Skyext
set_option autoImplicit true

/-- A message handler that has returned or raised, and the changes made to the entity by then. -/
structure HandlerCall where
  node : Nat
  msg : Nat
  err : Option String
  changes : Nat
  deriving DecidableEq

/-- Where `_deliver_pending_msgs` is suspended; the message at work is the first of the rest. -/
inductive PassPc
  | loading
  | next
  | handler
  | saving (call : HandlerCall) (valid : Bool)
  | acking (r : Nat)
  | recording (r : Nat) (reason : String)
  | killing (r : Nat)
  deriving DecidableEq

/-- A delivery pass: the messages `load_pending` returned with their count of settlements at that
time, and those of them still to be dealt with. -/
structure DeliveryPass where
  loaded : List (Nat × Nat) := []
  rest : List (Nat × Nat) := []
  quarantined : Nat := 0
  pc : PassPc := .loading
  deriving DecidableEq

/-- One `entitymgr` and the delivery pass that holds its gate. -/
structure DeliveryNode where
  mgr : Entitymgr
  pass : Option DeliveryPass

/-- An attempt that went as far as the ack: how the handler ended, the answer of the save with the
lease before and after it, and how many changes Mongo then had. -/
structure DeliveryAttempt where
  call : HandlerCall
  validBefore : Bool
  saved : Bool
  validAfter : Bool
  stored : Nat
  deriving DecidableEq

/-- The messages of one entity and every node that may load it. A request is known by its
position, beside its reply once Mongo has executed it. -/
structure DeliveryCluster where
  conf : Option Int
  handlers : List String
  seqs : Nat
  inserting : List ReliableMsg
  msgs : List ReliableMsg
  requests : List (MsgRequest × Option ModifiedDoc)
  nodes : Nat → DeliveryNode
  calls : List HandlerCall
  attempts : List DeliveryAttempt

inductive DeliveryAction
  | nextSeq (cmd : String)
  | insert (k : Nat)
  | abandon (k : Nat)
  | request (r : MsgRequest)
  | execute (r : Nat)
  | mgr (n : Nat) (a : MgrAction)
  | pass (n : Nat)
  | loadPending (n : Nat) (ok : Bool)
  | next (n : Nat)
  | handler (n : Nat) (err : Option String)
  | save (n : Nat) (applied ok : Bool)
  | reply (n : Nat) (arrived : Bool)

namespace DeliveryNode

def endPass (d : DeliveryNode) : DeliveryNode :=
  match d.mgr.running with
  | some (.handling job) => ⟨d.mgr.handled job, none⟩
  | _ => ⟨d.mgr, none⟩

/-- A pass runs as the handler of its gate, which changes the entity in message handlers only. -/
def allows (d : DeliveryNode) : MgrAction → Bool
  | .handler => d.pass.isNone
  | .change => d.pass.all fun p => p.pc = .handler
  | .bind => d.pass.all fun p => p.pc = .handler
  | _ => true

/-- Whether the entity is not marked invalid and its lock still held, and the node after that. -/
def usable (d : DeliveryNode) : DeliveryNode × Bool :=
  match d.mgr.entity with
  | none => (d, false)
  | some e => ({ d with mgr := (d.mgr.usable e).1 }, (d.mgr.usable e).2)

end DeliveryNode

namespace DeliveryPass

def goTo (p : DeliveryPass) (pc : PassPc) : DeliveryPass := { p with pc := pc }

def advance (p : DeliveryPass) : DeliveryPass := { p with rest := p.rest.tail, pc := .next }

/-- Whether another pass has to follow at once. -/
def again (p : DeliveryPass) : Bool :=
  decide (0 < p.quarantined) || decide (p.loaded.length = defaultPageSize)

end DeliveryPass

namespace DeliveryCluster

def setNode (s : DeliveryCluster) (n : Nat) (d : DeliveryNode) : DeliveryCluster :=
  { s with nodes := Function.update s.nodes n d }

def send (s : DeliveryCluster) (r : MsgRequest) : DeliveryCluster :=
  { s with requests := s.requests ++ [(r, none)] }

/-- The pass waits for the reply to a request it sends. -/
def await (s : DeliveryCluster) (n : Nat) (d : DeliveryNode) (p : DeliveryPass) (r : MsgRequest)
    (pc : Nat → PassPc) : DeliveryCluster :=
  (s.setNode n { d with pass := some (p.goTo (pc s.requests.length)) }).send r

def quarantine (s : DeliveryCluster) (n : Nat) (d : DeliveryNode) (p : DeliveryPass) (i : Nat)
    (reason : String) : DeliveryCluster :=
  s.await n d p (.recordFailure i reason) fun r => .recording r reason

def settledOf (msgs : List ReliableMsg) (i : Nat) : Nat := (msgs[i]?.map ReliableMsg.settled).getD 0

def seqOf (msgs : List ReliableMsg) (i : Nat) : Nat := (msgs[i]?.map ReliableMsg.seq).getD 0

def loaded (s : DeliveryCluster) (n : Nat) (d : DeliveryNode) : DeliveryCluster :=
  let page := (Skyext.loadPending s.msgs defaultPageSize).map fun i => (i, settledOf s.msgs i)
  s.setNode n { d with pass := some { loaded := page, rest := page, pc := .next } }

def next (s : DeliveryCluster) (n : Nat) (d : DeliveryNode) (p : DeliveryPass) :
    DeliveryCluster :=
  match p.rest with
  | [] =>
    let mgr := if p.again then d.mgr.fork (.gate .withEntity) else d.mgr
    s.setNode n { d with mgr := mgr }.endPass
  | (i, _) :: _ =>
    if !d.usable.2 then s.setNode n d.usable.1.endPass
    else
      let cmd := (s.msgs[i]?.map ReliableMsg.cmd).getD ""
      if cmd ∈ s.handlers then s.setNode n { d.usable.1 with pass := some (p.goTo .handler) }
      else s.quarantine n d.usable.1 p i ("no handler for command " ++ cmd)

def handled (s : DeliveryCluster) (n : Nat) (d : DeliveryNode) (p : DeliveryPass)
    (c : HandlerCall) : DeliveryCluster :=
  match c.err with
  | some reason => s.quarantine n d p c.msg reason
  | none =>
    if !d.usable.2 then s.setNode n d.usable.1.endPass
    else s.setNode n { d.usable.1 with pass := some (p.goTo (.saving c d.usable.2)) }

/-- `_deliver_one` after `dbmgr.save` returned true. -/
def acknowledge (s : DeliveryCluster) (n : Nat) (d : DeliveryNode) (p : DeliveryPass)
    (i : Nat) (c : HandlerCall) (validBefore saved : Bool) : DeliveryCluster :=
  if !d.usable.2 then s.setNode n d.usable.1.endPass
  else
    { s.await n d.usable.1 p (.markDelivered i) .acking with
      attempts := ⟨c, validBefore, saved, d.usable.2, d.mgr.stored⟩ :: s.attempts }

/-- `_deliver_one` after `dbmgr.save`, whose row lock keeps other saves of the document away. -/
def saved (s : DeliveryCluster) (n : Nat) (d : DeliveryNode) (p : DeliveryPass) (i : Nat)
    (c : HandlerCall) (valid applied ok : Bool) : Option DeliveryCluster :=
  match d.mgr.cache with
  | none => some (s.setNode n d.endPass)
  | some cache =>
    (d.mgr.saveDoc cache.handle d.mgr.changes applied ok).map fun mgr =>
      if ok then s.acknowledge n { d with mgr := mgr } p i c valid ok
      else s.setNode n { d with mgr := mgr }.endPass

/-- A pass gets the reply it waits for, or none. -/
def replied (s : DeliveryCluster) (n : Nat) (d : DeliveryNode) (p : DeliveryPass) (i : Nat)
    (reply : Option ModifiedDoc) : DeliveryCluster :=
  match p.pc, reply with
  | .acking _, some _ => s.setNode n { d with pass := some p.advance }
  | .recording _ reason, some (.doc m) =>
    if maxAttempts s.conf ≤ m.attempts.getD 0 then s.await n d p (.markDead i reason) .killing
    else s.setNode n d.endPass
  | .killing _, some (.doc _) =>
    s.setNode n { d with pass := some { p.advance with quarantined := p.quarantined + 1 } }
  | _, _ => s.setNode n d.endPass

def PassPc.awaited : PassPc → Option Nat
  | .acking r => some r
  | .recording r _ => some r
  | .killing r => some r
  | _ => none

def step (s : DeliveryCluster) : DeliveryAction → Option DeliveryCluster
  | .nextSeq cmd =>
    some { s with
      seqs := s.seqs + 1
      inserting := s.inserting ++ [{ seq := s.seqs + 1, cmd := cmd }] }
  | .insert k =>
    (s.inserting[k]?).map fun m =>
      { s with inserting := s.inserting.eraseIdx k, msgs := s.msgs ++ [m] }
  | .abandon k => some { s with inserting := s.inserting.eraseIdx k }
  | .request r =>
    match r with
    | .markDead .. => some (s.send r)
    | .replay _ => some (s.send r)
    | .discard .. => some (s.send r)
    | _ => none
  | .execute r =>
    match s.requests[r]? with
    | some (request, none) =>
      some { s with
        msgs := (request.execute s.msgs).1
        requests := s.requests.set r (request, some (request.execute s.msgs).2) }
    | _ => none
  | .mgr n a =>
    if (s.nodes n).allows a then
      ((s.nodes n).mgr.step a).map fun mgr => s.setNode n { s.nodes n with mgr := mgr }
    else none
  | .pass n =>
    match (s.nodes n).mgr.running, (s.nodes n).pass with
    | some (.handling _), none => some (s.setNode n { s.nodes n with pass := some {} })
    | _, _ => none
  | .loadPending n ok =>
    match (s.nodes n).pass with
    | some p =>
      if p.pc = .loading then
        some (if ok then s.loaded n (s.nodes n) else s.setNode n (s.nodes n).endPass)
      else none
    | none => none
  | .next n =>
    match (s.nodes n).pass with
    | some p => if p.pc = .next then some (s.next n (s.nodes n) p) else none
    | none => none
  | .handler n err =>
    match (s.nodes n).pass with
    | some p =>
      match p.pc, p.rest with
      | .handler, (i, _) :: _ =>
        let c : HandlerCall := ⟨n, i, err, (s.nodes n).mgr.changes⟩
        some ({ s with calls := c :: s.calls }.handled n (s.nodes n) p c)
      | _, _ => none
    | none => none
  | .save n applied ok =>
    match (s.nodes n).pass with
    | some p =>
      match p.pc, p.rest with
      | .saving c valid, (i, _) :: _ => s.saved n (s.nodes n) p i c valid applied ok
      | _, _ => none
    | none => none
  | .reply n arrived =>
    match (s.nodes n).pass with
    | some p =>
      match PassPc.awaited p.pc, p.rest with
      | some r, (i, _) :: _ =>
        some (s.replied n (s.nodes n) p i
          (if arrived then (s.requests[r]?).bind Prod.snd else none))
      | _, _ => none
    | none => none

/-- No message has been sent. -/
def start (conf : Option Int) (handlers : List String) (resident : Bool) : DeliveryCluster :=
  ⟨conf, handlers, 0, [], [], [], fun _ => ⟨.fresh resident, none⟩, [], []⟩

def system : Machine.System DeliveryCluster DeliveryAction :=
  ⟨fun s => ∃ conf handlers resident, s = start conf handlers resident, step⟩

end DeliveryCluster

end Skyext
