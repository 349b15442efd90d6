import Skyext.Session.Service

namespace Skyext
set_option autoImplicit true

abbrev Fd := Nat

inductive Param
  | login
  | resume (nonce : Nonce) (recv : Nat)
  | ping (recv : Nat)
  | business (name : Nat)
  deriving DecidableEq, Repr

def Param.proto : Param → Proto
  | .login => .login
  | .resume _ _ => .resume
  | .ping _ => .ping
  | .business name => .business name

structure Request where
  session : Nat
  param : Param
  deriving DecidableEq, Repr

/-- Where `establish` is suspended, and the response it has been woken with. -/
inductive Phase
  | idle
  | resuming (conn : Fd) (reqId : Nat) (response : Option Reply)
  | loginParam (conn : Fd)
  | loggingIn (conn : Fd) (reqId : Nat) (response : Option Reply)
  deriving DecidableEq, Repr

/-- The ping the heartbeat waits for. -/
structure Heartbeat where
  conn : Option Fd
  reqId : Nat
  response : Option Reply
  deriving DecidableEq, Repr

/-- The session of the official client. `session` and `counted` are the session its last login
created and what it has counted since. -/
structure Client where
  conn : Option Fd
  online : Bool
  rid : Option Nat
  nonce : Option Nonce
  recv : Nat
  nextReqId : Nat
  pending : List Request
  phase : Phase
  heartbeat : Option Heartbeat
  session : Option Nat
  counted : List Content
  deriving DecidableEq, Repr

namespace Client

def fresh : Client := ⟨none, false, none, none, 0, 0, [], .idle, none, none, []⟩

/-- The handshake answers the client does not count. -/
def uncountedResponse : Proto → Bool
  | .login | .resume | .ping => true
  | .business _ => false

def send (c : Client) (r : Request) : List (Fd × Request) :=
  (c.conn.map fun fd => (fd, r)).toList

def request (c : Client) (param : Param) : Client × List (Fd × Request) :=
  let r : Request := ⟨c.nextReqId + 1, param⟩
  ({ c with nextReqId := c.nextReqId + 1, pending := c.pending ++ [r] }, c.send r)

def count (c : Client) (content : Content) : Client :=
  { c with recv := c.recv + 1, counted := c.counted ++ [content] }

def findPending (c : Client) (reqId : Nat) : Option Request :=
  c.pending.find? fun r => decide (r.session = reqId)

def answer (c : Client) (reqId : Nat) (response : Reply) : Client :=
  let phase := match c.phase with
    | .resuming conn r none => if r = reqId then .resuming conn r (some response) else c.phase
    | .loggingIn conn r none => if r = reqId then .loggingIn conn r (some response) else c.phase
    | phase => phase
  { c with
    phase := phase
    heartbeat := c.heartbeat.map fun h =>
      if h.reqId = reqId ∧ h.response = none then { h with response := some response } else h }

def handle (c : Client) (content : Content) : Client :=
  match content with
  | .undecodable | .push _ => c.count content
  | .response reqId args =>
    match c.findPending reqId with
    | none => c.count content
    | some r =>
      let c := { c with pending := c.pending.filter fun r => decide (r.session ≠ reqId) }
      (if uncountedResponse r.param.proto then c else c.count content).answer reqId args

def drop (c : Client) (fd : Fd) : Client :=
  if c.conn = some fd then { c with conn := none, online := false } else c

/-- Forgets the handshake requests and sends the others again. -/
def resendPending (c : Client) : Client × List (Fd × Request) :=
  let kept := c.pending.filter fun r => !uncountedResponse r.param.proto
  ({ c with pending := kept }, kept.flatMap c.send)

def failPending (c : Client) : Client := { c with pending := [] }

/-- `establish` once it is connected, up to its first wait: `try_resume`, or the login when there
is no credential. -/
def establish (c : Client) (fd : Fd) : Client × List (Fd × Request) :=
  let c := { c with conn := some fd }
  match c.nonce, c.rid with
  | some nonce, some _ =>
    let (c', sent) := c.request (.resume nonce c.recv)
    ({ c' with phase := .resuming fd c'.nextReqId none }, sent)
  | _, _ => ({ c with phase := .loginParam fd }, [])

/-- `try_resume` after its wait; without a response it has timed out. -/
def resumed (c : Client) (fd : Fd) (response : Option Reply) : Client × List (Fd × Request) :=
  match response with
  | some ⟨some .OK, _, nonce, _⟩ =>
    { c with nonce := nonce, online := true, phase := .idle }.resendPending
  | _ => ({ c with phase := .loginParam fd }, [])

def doLogin (c : Client) (fd : Fd) (param : Bool) : Client × List (Fd × Request) :=
  if param then
    let (c', sent) := c.request .login
    ({ c' with phase := .loggingIn fd c'.nextReqId none }, sent)
  else ({ c with phase := .idle }.drop fd, [])

def loggedIn (c : Client) (fd : Fd) (response : Option Reply) : Client :=
  match response with
  | some ⟨some .OK, rid, nonce, _⟩ =>
    { c with
      rid := rid
      nonce := nonce
      recv := 0
      online := true
      phase := .idle
      session := nonce.map Nonce.session
      counted := [] }.failPending
  | _ => { c with phase := .idle }.drop fd

/-- The heartbeat up to its wait. -/
def ping (c : Client) : Client × List (Fd × Request) :=
  let (c', sent) := c.request (.ping c.recv)
  ({ c' with heartbeat := some ⟨c.conn, c'.nextReqId, none⟩ }, sent)

/-- The heartbeat after its wait: a count that differs ends the session. -/
def pong (c : Client) (h : Heartbeat) : Client :=
  match h.response with
  | none => { c with heartbeat := none }
  | some response =>
    if response.sent ≠ some c.recv then
      let c := { c with heartbeat := none, nonce := none }
      match h.conn with
      | none => c
      | some fd => c.drop fd
    else { c with heartbeat := none }

end Client

end Skyext
