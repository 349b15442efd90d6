import Skyext.Lib.Machine
import Skyext.Session.Service

namespace Skyext
set_option autoImplicit true

/-- A service that runs entities, and the node it runs on. -/
structure ServiceId where
  node : Nat
  name : Nat
  deriving DecidableEq, Repr

/-- A connection as its gate records it. `kicked` says that the gate has closed the socket and
will be told so. -/
structure GateSession where
  owner : Option ServiceId
  kicked : Bool
  deriving DecidableEq, Repr

inductive Handshake
  | login
  | resume (credential : Option Nonce) (recv : Option Int)
  deriving DecidableEq, Repr

/-- What waits in the serial queue of an entity. -/
inductive Task
  | handshake (key : Key) (h : Handshake)
  | closed (key : Key)
  deriving DecidableEq, Repr

/-- A handshake suspended in its call to the gate, and the reply once the gate has sent it. -/
structure GateCall where
  key : Key
  handshake : Handshake
  answer : Option Bool
  deriving DecidableEq, Repr

/-- Any number of gates and of services with loaded entities. `closed` holds the notices of
closed connections and `kicks` the kicks in flight. `caller` remembers for which entity a gate
last bound a connection, `opened` the numbers the gates have given, and `swept` the visits of
`sweep_idle`. -/
structure SessionCluster where
  gate : Key → Option GateSession
  opened : List Key
  caller : Key → Option (ServiceId × EntityId)
  services : ServiceId → SessionService
  requests : List ((ServiceId × EntityId) × Task)
  queues : ServiceId × EntityId → List Task
  calls : ServiceId × EntityId → Option GateCall
  kicks : List Key
  closed : List (ServiceId × Key)
  nonces : Nat
  clock : Nat
  swept : List (ServiceId × Key × Nat)

inductive SessionAction
  | connect (key : Key)
  | request (key : Key) (p : ServiceId × EntityId) (h : Handshake)
  | arrive (i : Nat)
  | start (p : ServiceId × EntityId)
  | bind (p : ServiceId × EntityId)
  | answer (p : ServiceId × EntityId)
  | close (key : Key)
  | kicked (i : Nat)
  | notify (i : Nat)
  | hear (σ : ServiceId) (key : Key)
  | push (p : ServiceId × EntityId) (pack : Pack)
  | kick (σ : ServiceId) (key : Key)
  | unbindKick (p : ServiceId × EntityId) (key : Key)
  | sweep (σ : ServiceId) (key : Key)
  | elapse (ticks : Nat)
  deriving DecidableEq, Repr

namespace SessionCluster

def setService (s : SessionCluster) (σ : ServiceId) (m : SessionService) : SessionCluster :=
  { s with services := Function.update s.services σ m }

def setCall (s : SessionCluster) (p : ServiceId × EntityId) (c : Option GateCall) :
    SessionCluster :=
  { s with calls := Function.update s.calls p c }

def kicksOf (cmds : List GateCmd) : List Key :=
  cmds.filterMap fun
    | .kick key => some key
    | .push _ _ => none

def commit (s : SessionCluster) (σ : ServiceId) (r : SessionService × List GateCmd) :
    SessionCluster :=
  { s.setService σ r.1 with kicks := s.kicks ++ kicksOf r.2 }

/-- Runs a task up to its call to the gate or to its end. -/
def begin (s : SessionCluster) (p : ServiceId × EntityId) : Task → SessionCluster
  | .handshake key .login =>
    (s.commit p.1 ((s.services p.1).leaveOld p.2 key)).setCall p (some ⟨key, .login, none⟩)
  | .handshake key (.resume credential recv) =>
    match SessionIo.resumeCheck ((s.services p.1).io p.2) credential recv with
    | .OK => s.setCall p (some ⟨key, .resume credential recv, none⟩)
    | _ => s
  | .closed key => s.setService p.1 ((s.services p.1).unbindClosed p.2 key)

def finish (s : SessionCluster) (p : ServiceId × EntityId) (key : Key) (bound : Bool) :
    Handshake → SessionCluster
  | .login =>
    { s.setService p.1 ((s.services p.1).bind key p.2 bound ⟨s.nonces, 0⟩ s.clock).1 with
      nonces := s.nonces + 1 }
  | .resume _ recv =>
    let (m, cmds, result) := (s.services p.1).resume key p.2 bound recv ⟨s.nonces, 0⟩ s.clock
    if result.code = .OK then
      { s.commit p.1 ((m.replay p.2).1, cmds ++ (m.replay p.2).2.1) with nonces := s.nonces + 1 }
    else s

/-- The gate has told service `σ` that it bound the connection, and the service has not yet
heard of it. -/
def replyPending (s : SessionCluster) (σ : ServiceId) (key : Key) : Bool :=
  match s.caller key with
  | none => false
  | some p =>
    decide (p.1 = σ) &&
      match s.calls p with
      | none => false
      | some c => decide (c.key = key) && decide (c.answer = some true)

/-- `hear` is a package of the client as far as the idle check sees it. -/
def step (s : SessionCluster) : SessionAction → Option SessionCluster
  | .connect key =>
    if key ∈ s.opened then none
    else some { s with
      gate := Function.update s.gate key (some ⟨none, false⟩)
      opened := key :: s.opened }
  | .request key p h =>
    match s.gate key with
    | some ⟨none, _⟩ => some { s with requests := s.requests ++ [(p, .handshake key h)] }
    | _ => none
  | .arrive i =>
    (s.requests[i]?).map fun r =>
      { s with
        requests := s.requests.eraseIdx i
        queues := Function.update s.queues r.1 (s.queues r.1 ++ [r.2]) }
  | .start p =>
    match s.calls p, s.queues p with
    | none, t :: ts => some ({ s with queues := Function.update s.queues p ts }.begin p t)
    | _, _ => none
  | .bind p =>
    match s.calls p with
    | some ⟨key, h, none⟩ =>
      match s.gate key with
      | none => some (s.setCall p (some ⟨key, h, some false⟩))
      | some g =>
        some { s.setCall p (some ⟨key, h, some true⟩) with
          gate := Function.update s.gate key (some { g with owner := some p.1 })
          caller := Function.update s.caller key (some p) }
    | _ => none
  | .answer p =>
    match s.calls p with
    | some ⟨key, h, some bound⟩ => some ((s.setCall p none).finish p key bound h)
    | _ => none
  | .close key =>
    (s.gate key).map fun g =>
      { s with
        gate := Function.update s.gate key none
        closed := s.closed ++ (g.owner.map fun σ => (σ, key)).toList }
  | .kicked i =>
    (s.kicks[i]?).map fun key =>
      { s with
        kicks := s.kicks.eraseIdx i
        gate := Function.update s.gate key ((s.gate key).map fun g => { g with kicked := true }) }
  | .notify i =>
    match s.closed[i]? with
    | none => none
    | some (σ, key) =>
      -- a gate on the node of the service is heard in the order in which it sends
      if σ.node = key.gate ∧ s.replyPending σ key then none
      else
        let s' := { s with closed := s.closed.eraseIdx i }
        match (s.services σ).conns key with
        | none => some s'
        | some conn =>
          let p := (σ, conn.entity)
          some { s' with queues := Function.update s.queues p (s.queues p ++ [.closed key]) }
  | .hear σ key =>
    match (s.services σ).conns key with
    | none => none
    | some conn =>
      ((s.services σ).io conn.entity).map fun io =>
        s.setService σ ((s.services σ).setIo conn.entity { io with lastSeen := s.clock })
  | .push p pack => some (s.commit p.1 ((s.services p.1).recordAndSend .standard p.2 pack))
  | .kick σ key => some (s.commit σ (s.services σ, (s.services σ).kick key))
  | .unbindKick p key => some (s.commit p.1 ((s.services p.1).unbindKick key p.2))
  | .sweep σ key =>
    some { s.commit σ (s.services σ, (s.services σ).sweepIdle .standard key s.clock) with
      swept := (σ, key, s.clock) :: s.swept }
  | .elapse ticks => some { s with clock := s.clock + ticks }

def empty : SessionCluster :=
  ⟨fun _ => none, [], fun _ => none, fun _ => .fresh, [], fun _ => [], fun _ => none, [], [], 0, 0,
    []⟩

def system : Machine.System SessionCluster SessionAction := ⟨(· = empty), step⟩

/-- The gate still has the connection, and forwards it to service `σ`. -/
def Forwards (s : SessionCluster) (σ : ServiceId) (key : Key) : Prop :=
  ∃ g, s.gate key = some g ∧ g.owner = some σ

/-- No message is in flight, and no gate has yet to learn that a socket it closed is gone. -/
structure Quiet (s : SessionCluster) : Prop where
  requests : s.requests = []
  queues : ∀ p, s.queues p = []
  calls : ∀ p, s.calls p = none
  kicks : s.kicks = []
  closed : s.closed = []
  kicked : ∀ key g, s.gate key = some g → g.kicked = false

/-- `sweep_idle` has visited every connection after the idle timeout since it was last heard. -/
def Swept (s : SessionCluster) : Prop :=
  ∀ σ key conn io, (s.services σ).conns key = some conn →
    (s.services σ).io conn.entity = some io →
    ∃ t, (σ, key, t) ∈ s.swept ∧ io.lastSeen + SessionConf.standard.idleTimeout * 100 < t

/-- Every connection record and every bound session names a connection the gate has and forwards
to this service. -/
structure NoGhost (s : SessionCluster) : Prop where
  conns : ∀ σ key conn, (s.services σ).conns key = some conn → s.Forwards σ key
  session : ∀ σ e conn, (s.services σ).session e = some conn → s.Forwards σ conn.key

/-- A notice of a closed connection arrives before the reply of the gate that bound it, so that
the service knows nothing of the connection yet. -/
def overtakes (s : SessionCluster) : SessionAction → Bool
  | .notify i =>
    match s.closed[i]? with
    | none => false
    | some (σ, key) => ((s.services σ).conns key).isNone && s.replyPending σ key
  | _ => false

/-- The connection is, or is about to become, the session of the entity. -/
def holds (s : SessionCluster) (p : ServiceId × EntityId) (key : Key) : Bool :=
  ((s.services p.1).session p.2).any (decide <| ·.key = key) ||
    (s.calls p).any fun c => decide (c.key = key) && decide (c.answer = some true)

/-- The gate binds a connection that it has bound for another entity, which still holds it. -/
def rebinds (s : SessionCluster) : SessionAction → Bool
  | .bind p =>
    match s.calls p with
    | none => false
    | some c => (s.caller c.key).any fun q => decide (q ≠ p) && s.holds q c.key
  | _ => false

/-- The condition on a step that it does neither. -/
def Orderly (s : SessionCluster) (a : SessionAction) : Prop :=
  s.overtakes a = false ∧ s.rebinds a = false

instance (s : SessionCluster) (a : SessionAction) : Decidable (s.Orderly a) :=
  inferInstanceAs (Decidable (_ ∧ _))

end SessionCluster

end Skyext
