import Mathlib.Data.List.Perm.Basic
import Mathlib.Logic.Function.Basic
import Skyext.Lib.Machine

namespace Skyext
set_option autoImplicit true

/-- Where `establish` of the client is suspended, and over which connection. -/
inductive UplinkPhase
  | idle
  | resuming (fd : Nat)
  | login (fd : Nat)
  deriving DecidableEq

def UplinkPhase.fd : UplinkPhase → Option Nat
  | .idle => none
  | .resuming fd => some fd
  | .login fd => some fd

def UplinkPhase.isResuming : UplinkPhase → Bool
  | .resuming _ => true
  | _ => false

/-- The requests of the application within one `session_io`, by their ids. `pending` is in the
order they were issued. Of each connection: whether the gate has it and has bound it, what is on
its way to the gate, the credential a resume over it shows and the new one it was answered with.
`live` is the connection of the session, `binding` the resume at work with the gate's answer. -/
structure Uplink where
  conn : Option Nat
  phase : UplinkPhase
  nonce : Option Nat
  nextReqId : Nat
  pending : List Nat
  opened : Nat
  gate : Nat → Option Bool
  up : Nat → List Nat
  resumes : Nat → Option Nat
  answers : Nat → Option Nat
  binding : Option (Nat × Option Bool)
  live : Option Nat
  ioNonce : Nat
  entityIn : List (Nat × Nat)
  queue : List (Nat × Nat)
  running : Option Nat
  cached : List Nat
  minCached : Nat
  started : List Nat

/-- `takeId` is a handshake or a ping, which only takes an id; `resumed` carries the order in which
`resend_pending` goes through the pending requests. -/
inductive UplinkAction
  | call
  | takeId
  | answer (id : Nat)
  | drop
  | desync
  | connect
  | resumed (order : List Nat)
  | resumeFailed
  | loginFailed
  | loggedIn
  | gateRecv (fd : Nat)
  | close (fd : Nat)
  | resumeRefused (fd : Nat)
  | resumeStart (fd : Nat)
  | gateBind
  | resumeEnd
  | unbind (fd : Nat)
  | entityRecv
  | start
  | finish (cache : Bool)
  | evict
  deriving DecidableEq

namespace Uplink

/-- What `send` makes of requests: without a connection they stay pending only. -/
def write (s : Uplink) (ids : List Nat) : Nat → List Nat :=
  match s.conn with
  | some fd => Function.update s.up fd (s.up fd ++ ids)
  | none => s.up

/-- `establish` once it is connected, up to its first wait. -/
def establish (s : Uplink) : Uplink :=
  let fd := s.opened
  let s := { s with
    opened := s.opened + 1, conn := some fd, gate := Function.update s.gate fd (some false) }
  match s.nonce with
  | some nonce =>
    { s with
      phase := .resuming fd
      resumes := Function.update s.resumes fd (some nonce)
      nextReqId := s.nextReqId + 1 }
  | none => { s with phase := .login fd }

/-- `resume` once the gate has answered. -/
def resumeEnd (s : Uplink) (fd : Nat) (bound : Bool) : Uplink :=
  let s := { s with binding := none, resumes := Function.update s.resumes fd none }
  if bound then
    { s with
      live := some fd
      ioNonce := s.ioNonce + 1
      answers := Function.update s.answers fd (some (s.ioNonce + 1)) }
  else s

/-- `with_request` up to the queue: a request without a bound connection, with a cached response or
below `min_cached_req_id` does not get there. -/
def receive (s : Uplink) (fd id : Nat) : Uplink :=
  if s.live = some fd ∧ id ∉ s.cached ∧ s.minCached ≤ id then
    { s with queue := s.queue ++ [(fd, id)] }
  else s

/-- The queue reaches a request, whose connection may have been taken away meanwhile. -/
def startRequest (s : Uplink) (fd id : Nat) : Uplink :=
  if s.live = some fd then { s with running := some id, started := s.started ++ [id] } else s

def step (s : Uplink) : UplinkAction → Option Uplink
  | .call =>
    some { s with
      nextReqId := s.nextReqId + 1
      pending := s.pending ++ [s.nextReqId + 1]
      up := s.write [s.nextReqId + 1] }
  | .takeId => some { s with nextReqId := s.nextReqId + 1 }
  | .answer id => some { s with pending := s.pending.filter (· ≠ id) }
  | .drop => some { s with conn := none }
  | .desync => some { s with conn := none, nonce := none }
  | .connect => if s.phase = .idle ∧ s.conn = none then some s.establish else none
  | .resumed order =>
    match s.phase with
    | .resuming fd =>
      match s.answers fd with
      | some nonce =>
        if order.Perm s.pending then
          some { s with nonce := some nonce, phase := .idle, up := s.write order }
        else none
      | none => none
    | _ => none
  | .resumeFailed =>
    match s.phase with
    | .resuming fd => some { s with phase := .login fd }
    | _ => none
  | .loginFailed =>
    match s.phase with
    | .login _ => some { s with phase := .idle, conn := none }
    | _ => none
  | .loggedIn =>
    if s.phase = .login 0 then some { s with nonce := some 0, phase := .idle, pending := [] }
    else none
  | .gateRecv fd =>
    match s.up fd with
    | [] => none
    | id :: rest =>
      let s := { s with up := Function.update s.up fd rest }
      some (if s.gate fd = some true then { s with entityIn := s.entityIn ++ [(fd, id)] } else s)
  | .close fd => some { s with gate := Function.update s.gate fd none }
  | .resumeRefused fd =>
    if s.binding.map Prod.fst = some fd then none
    else some { s with resumes := Function.update s.resumes fd none }
  | .resumeStart fd =>
    if s.running = none ∧ s.binding = none ∧ s.resumes fd = some s.ioNonce then
      some { s with binding := some (fd, none) }
    else none
  | .gateBind =>
    match s.binding with
    | some (fd, none) =>
      some { s with
        binding := some (fd, some (s.gate fd).isSome)
        gate := Function.update s.gate fd ((s.gate fd).map fun _ => true) }
    | _ => none
  | .resumeEnd =>
    match s.binding with
    | some (fd, some bound) => some (s.resumeEnd fd bound)
    | _ => none
  | .unbind fd => some (if s.live = some fd then { s with live := none } else s)
  | .entityRecv =>
    match s.entityIn with
    | [] => none
    | (fd, id) :: rest => some ({ s with entityIn := rest }.receive fd id)
  | .start =>
    match s.running, s.binding, s.queue with
    | none, none, (fd, id) :: rest => some ({ s with queue := rest }.startRequest fd id)
    | _, _, _ => none
  | .finish cache =>
    s.running.map fun id =>
      { s with running := none, cached := if cache then s.cached ++ [id] else s.cached }
  | .evict =>
    match s.cached with
    | [] => none
    | id :: rest => some { s with cached := rest, minCached := max s.minCached (id + 1) }

/-- The requests of a connection among messages that name theirs. -/
def along (fd : Nat) (l : List (Nat × Nat)) : List Nat :=
  l.filterMap fun m => if m.1 = fd then some m.2 else none

/-- The requests that have gone into a connection and are not done with, the oldest first. -/
def stream (s : Uplink) (fd : Nat) : List Nat := along fd s.queue ++ along fd s.entityIn ++ s.up fd

/-- A `session_io` as the login that creates it leaves it: the client still waits for the answer,
and may have issued requests while it waits. -/
structure Initial (s : Uplink) : Prop where
  conn : s.conn = some 0
  phase : s.phase = .login 0
  nonce : s.nonce = none
  opened : s.opened = 1
  resumes : ∀ fd, s.resumes fd = none
  answers : ∀ fd, s.answers fd = none
  binding : s.binding = none
  live : s.live = some 0
  ioNonce : s.ioNonce = 0
  queue : s.queue = []
  running : s.running = none
  cached : s.cached = []
  started : s.started = []
  pending : s.pending.Pairwise (· < ·) ∧ ∀ id ∈ s.pending, id ≤ s.nextReqId
  stream : (s.stream 0).Pairwise (· < ·) ∧ ∀ id ∈ s.stream 0, id ≤ s.nextReqId
  other : ∀ fd, fd ≠ 0 → s.stream fd = []

def system : Machine.System Uplink UplinkAction := ⟨Initial, step⟩

/-- Pending requests are sent again in the order of their ids, and no request is issued between
`establish` and the end of `try_resume`. -/
def InOrder (s : Uplink) : UplinkAction → Prop
  | .resumed order => order.Pairwise (· < ·)
  | .call => s.phase.isResuming = false
  | _ => True

instance (s : Uplink) (a : UplinkAction) : Decidable (s.InOrder a) := by
  cases a <;> unfold InOrder <;> infer_instance

/-- Of any two requests that were started, the one issued first was started first. -/
def OrderedCalls (started : List Nat) : Prop :=
  ∀ a ∈ started, ∀ b ∈ started, a < b → started.idxOf a < started.idxOf b

instance (started : List Nat) : Decidable (OrderedCalls started) := by
  unfold OrderedCalls
  infer_instance

end Uplink

end Skyext
