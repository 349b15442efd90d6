import Mathlib.Logic.Function.Basic
import Skyext.Lease.Client
import Skyext.Lib.Machine

namespace Skyext
set_option autoImplicit true

/-- Seconds; the clock `skynet.now()` counts hundredths of them. -/
def leaseTtl : Int := 30

def leaseGrace : Int := 2

inductive EtcdLeaseState
  | live
  | expired
  | revoked
  deriving DecidableEq

/-- A lease in etcd, which does not expire before `expiry`. -/
structure EtcdLease where
  expiry : Int
  state : EtcdLeaseState
  deriving DecidableEq

/-- A request to etcd; `sent` is the time read before it was sent. -/
inductive LeaseRequest
  | grant (sent : Int)
  | keepalive (sent : Int) (leaseid : Nat)
  | revoke (leaseid : Nat)
  deriving DecidableEq

/-- An answer of status 200; `kept` has the TTL of its result. -/
inductive LeaseReply
  | granted (leaseid : Nat)
  | kept (ttl : Option Int)
  | revoked
  deriving DecidableEq

structure LeaseService where
  leaseid : Option Nat
  deadline : Option Int
  epoch : Nat
  heartbeat : Bool
  closed : Bool
  deriving DecidableEq

/-- Where the heartbeat is: in a request, in a publish after which it looks whether it needs a
lease, or in the publish of a lease it has just been granted. -/
inductive Beat
  | idle
  | keepalive (started : Int) (leaseid r : Nat)
  | granting (started : Int) (r : Nat)
  | published
  | granted
  deriving DecidableEq

/-- What must not happen: a comparison with a missing deadline, or an `alive` event in which
something is missing. -/
inductive LeaseFault
  | compare
  | publish
  deriving DecidableEq

/-- The lease service of one node, etcd and the clients. Requests stay known by their position and
may be executed more than once; `grants` are the leases of the epochs so far, `revoking` the
requests of shutdown calls under way, `returned` the leases of those that have returned true, and
`shut` the epochs that shutdown has ended. Every published event is recorded with `g_closed` at
that time. -/
structure LeaseWorld where
  now : Int
  leases : List EtcdLease
  requests : List LeaseRequest
  replies : List (Nat × LeaseReply)
  service : LeaseService
  beat : Beat
  serving : Bool
  grants : List Nat
  revoking : List Nat
  returned : List (Option Nat)
  shut : List Nat
  published : List (LeaseEvent × Bool)
  faults : List LeaseFault
  clients : Nat → LeaseClient

inductive LeaseAction
  | tick (d : Nat)
  | heartbeat
  | reply (i : Nat)
  | fail
  | published
  | execute (r : Nat) (ttl : Option Int)
  | expire (l : Nat)
  | subscribe (c : Nat)
  | get (c k : Nat)
  | deliver (c : Nat)
  | valid (c : Nat)
  | onLost (c : Nat) (name : String)
  | shutdown
  | shutdownReply (i : Nat)
  | shutdownFail (r : Nat)

namespace LeaseWorld

def setClient (s : LeaseWorld) (n : Nat) (c : LeaseClient) : LeaseWorld :=
  { s with clients := Function.update s.clients n c }

def send (s : LeaseWorld) (r : LeaseRequest) : LeaseWorld :=
  { s with requests := s.requests ++ [r] }

def publish (s : LeaseWorld) (e : LeaseEvent) : LeaseWorld :=
  { s with
    published := (e, s.service.closed) :: s.published
    clients := fun n =>
      if (s.clients n).subscribed then
        { s.clients n with queue := (s.clients n).queue ++ [e] }
      else s.clients n }

def publishAlive (s : LeaseWorld) : LeaseWorld :=
  let fault := s.service.leaseid.isNone || s.service.deadline.isNone
  let s := if fault then { s with faults := .publish :: s.faults } else s
  s.publish (.alive s.service.leaseid s.service.epoch s.service.deadline)

def loseLease (s : LeaseWorld) (reason : String) : LeaseWorld :=
  { s with service := { s.service with leaseid := none, deadline := none } }.publish
    (.lost s.service.epoch reason)

/-- The state after `lease_valid`, and its answer. -/
def leaseValid (s : LeaseWorld) : LeaseWorld × Bool :=
  match s.service.leaseid, s.service.deadline with
  | some _, some d =>
    if d ≤ s.now then (s.loseLease "keepalive grace period elapsed", false) else (s, true)
  | _, _ => (s, false)

def grantLease (s : LeaseWorld) : LeaseWorld :=
  { s.send (.grant s.now) with beat := .granting s.now s.requests.length }

/-- The end of a heartbeat, or of the service's start, which arms the heartbeat. -/
def finish (s : LeaseWorld) : LeaseWorld :=
  { s with
    beat := .idle
    service := { s.service with heartbeat := s.service.heartbeat || !s.serving }
    serving := true }

def regrant (s : LeaseWorld) : LeaseWorld :=
  if s.service.leaseid.isNone && !s.service.closed then s.grantLease else s.finish

def heartbeat (s : LeaseWorld) : LeaseWorld :=
  match s.service.leaseid with
  | some l => { s.send (.keepalive s.now l) with beat := .keepalive s.now l s.requests.length }
  | none => s.regrant

def granted (s : LeaseWorld) (started : Int) (ret : Option Nat) : LeaseWorld :=
  match ret with
  | none => s.finish
  | some id =>
    let service := { s.service with
      leaseid := some id
      epoch := s.service.epoch + 1
      deadline := some (started + (leaseTtl - leaseGrace) * 100) }
    { { s with service := service, grants := s.grants ++ [id] }.publishAlive with beat := .granted }

/-- A keepalive that was neither confirmed nor fatal. -/
def notRenewed (s : LeaseWorld) : LeaseWorld :=
  match s.service.deadline with
  | none => { s with faults := .compare :: s.faults }.finish
  | some d =>
    if d ≤ s.now then { s.loseLease "keepalive grace period elapsed" with beat := .published }
    else s.regrant

/-- The heartbeat after its keepalive; `ret` is missing when the request failed or its answer was
malformed. -/
def renewed (s : LeaseWorld) (started : Int) (leaseid : Nat) (ret : Option (Option Int)) :
    LeaseWorld :=
  match ret with
  | none => s.notRenewed
  | some ttl =>
    match ttl.filter (0 < ·) with
    | none => { s.loseLease "etcd reports the lease no longer exists" with beat := .published }
    | some ttl =>
      if s.service.leaseid ≠ some leaseid then s.notRenewed
      else
        let deadline := started + (min ttl leaseTtl - leaseGrace) * 100
        { { s with service := { s.service with deadline := some deadline } }.publishAlive with
          beat := .published }

/-- `CMD.get`: the snapshot overtakes at most events that were published before it. -/
def get (s : LeaseWorld) (n k : Nat) : LeaseWorld :=
  let (s, ok) := s.leaseValid
  let c := s.clients n
  let snapshot := LeaseEvent.alive s.service.leaseid s.service.epoch s.service.deadline
  if ok then s.setClient n { c with queue := c.queue.take k ++ snapshot :: c.queue.drop k } else s

def shutdown (s : LeaseWorld) : LeaseWorld :=
  let t := { s with
    service := { s.service with
      leaseid := none, deadline := none, heartbeat := false, closed := true } }
  match s.service.leaseid with
  | none => { t with returned := none :: s.returned }
  | some l =>
    { t.send (.revoke l) with
      revoking := s.requests.length :: s.revoking
      shut := s.service.epoch :: s.shut }

/-- etcd executes a request. A keepalive may answer any TTL while the lease is live, none that is
positive afterwards. -/
def execute (s : LeaseWorld) (r : Nat) (ttl : Option Int) : LeaseRequest → LeaseWorld
  | .grant _ =>
    { s with
      leases := s.leases ++ [⟨s.now + leaseTtl * 100, .live⟩]
      replies := s.replies ++ [(r, .granted s.leases.length)] }
  | .keepalive _ l =>
    match s.leases[l]? with
    | some ⟨_, .live⟩ =>
      { s with
        leases := s.leases.set l ⟨s.now + leaseTtl * 100, .live⟩
        replies := s.replies ++ [(r, .kept ttl)] }
    | _ => { s with replies := s.replies ++ [(r, .kept (ttl.filter (· ≤ 0)))] }
  | .revoke l =>
    match s.leases[l]? with
    | some ⟨expiry, .live⟩ =>
      { s with
        leases := s.leases.set l ⟨expiry, .revoked⟩
        replies := s.replies ++ [(r, .revoked)] }
    | _ => s

def waiting (s : LeaseWorld) : Option Nat :=
  match s.beat with
  | .keepalive _ _ r => some r
  | .granting _ r => some r
  | _ => none

def step (s : LeaseWorld) : LeaseAction → Option LeaseWorld
  | .tick d => some { s with now := s.now + d }
  | .heartbeat =>
    if s.service.heartbeat ∧ s.beat = .idle then some s.heartbeat else none
  | .reply i =>
    match s.replies[i]?, s.beat with
    | some (r', .granted id), .granting started r =>
      if r' = r then some (s.granted started (some id)) else none
    | some (r', .kept ttl), .keepalive started l r =>
      if r' = r then some (s.renewed started l (some ttl)) else none
    | _, _ => none
  | .fail =>
    match s.beat with
    | .granting started _ => some (s.granted started none)
    | .keepalive started l _ => some (s.renewed started l none)
    | _ => none
  | .published =>
    match s.beat with
    | .published => some s.regrant
    | .granted => some s.finish
    | _ => none
  | .execute r ttl => (s.requests[r]?).map (s.execute r ttl)
  | .expire l =>
    match s.leases[l]? with
    | some ⟨expiry, .live⟩ =>
      if expiry ≤ s.now then some { s with leases := s.leases.set l ⟨expiry, .expired⟩ } else none
    | _ => none
  | .subscribe n =>
    if s.serving then some (s.setClient n { s.clients n with subscribed := true }) else none
  | .get n k => if (s.clients n).subscribed then some (s.get n k) else none
  | .deliver n => (s.clients n).deliver.map (s.setClient n)
  | .valid n => some (s.setClient n ((s.clients n).valid s.now))
  | .onLost n name =>
    some (s.setClient n { s.clients n with onLost := (s.clients n).onLost ++ [name] })
  | .shutdown => if s.serving then some s.shutdown else none
  | .shutdownReply i =>
    match s.replies[i]? with
    | some (r, .revoked) =>
      if r ∈ s.revoking then
        match s.requests[r]? with
        | some (.revoke l) =>
          some { s with revoking := s.revoking.erase r, returned := some l :: s.returned }
        | _ => none
      else none
    | _ => none
  | .shutdownFail r =>
    if r ∈ s.revoking then some { s with revoking := s.revoking.erase r } else none

def start (now : Int) : LeaseWorld :=
  ⟨now, [], [.grant now], [], ⟨none, none, 0, false, false⟩, .granting now 0, false, [], [], [], [],
    [], [], fun _ => {}⟩

def system : Machine.System LeaseWorld LeaseAction := ⟨fun s => ∃ now, s = start now, step⟩

end LeaseWorld

end Skyext
