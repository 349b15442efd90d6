import Skyext.Session.Io

namespace Skyext
set_option autoImplicit true

abbrev EntityId := Nat

/-- A session key: the gate a connection came through and its number there. -/
structure Key where
  gate : Nat
  fd : Nat
  deriving DecidableEq, Repr

/-- A connection record. The serial number stands for the identity of the object. -/
structure Conn where
  serial : Nat
  key : Key
  entity : EntityId
  deriving DecidableEq, Repr

/-- A command the session layer sends to a gate without waiting for an answer. -/
inductive GateCmd
  | push (key : Key) (pack : Pack)
  | kick (key : Key)
  deriving DecidableEq, Repr

/-- The state of the session layer of one service: `g_conns`, and the connection and the session
of each entity. -/
structure SessionService where
  conns : Key → Option Conn
  session : EntityId → Option Conn
  io : EntityId → Option SessionIo
  serials : Nat

namespace SessionService

def fresh : SessionService := ⟨fun _ => none, fun _ => none, fun _ => none, 0⟩

def setIo (s : SessionService) (e : EntityId) (io : SessionIo) : SessionService :=
  { s with io := Function.update s.io e (some io) }

def recordAndSend (conf : SessionConf) (s : SessionService) (e : EntityId) (pack : Pack) :
    SessionService × List GateCmd :=
  match s.io e with
  | none => (s, [])
  | some io =>
    match s.session e with
    | none => (s.setIo e (io.record conf pack), [])
    | some conn =>
      (s.setIo e (io.record conf pack), if io.replaying then [] else [.push conn.key pack])

/-- The handshake answers that are not counted. -/
def uncountedResponse : Proto → Bool
  | .resume | .ping => true
  | .login | .business _ => false

/-- `sender`: writes a response to the session that holds the key. -/
def sender (conf : SessionConf) (s : SessionService) (key : Key) (pack : Pack)
    (name : Proto) : SessionService × List GateCmd :=
  match s.conns key with
  | none => (s, [])
  | some conn =>
    if s.session conn.entity ≠ some conn then (s, [])
    else if uncountedResponse name then (s, [.push key pack])
    else s.recordAndSend conf conn.entity pack

def installConn (s : SessionService) (key : Key) (e : EntityId) : SessionService :=
  let conn : Conn := ⟨s.serials, key, e⟩
  { s with
    conns := Function.update s.conns key (some conn)
    session := Function.update s.session e (some conn)
    serials := s.serials + 1 }

def bind (s : SessionService) (key : Key) (e : EntityId) (bound : Bool) (nonce : Nonce)
    (now : Nat) : SessionService × Option Nonce :=
  if bound then ((s.installConn key e).setIo e (.new nonce now), some nonce) else (s, none)

/-- Takes the connection the session moved away from out of `g_conns`. -/
def retire (s : SessionService) (old : Option Conn) (key : Key) : SessionService × List GateCmd :=
  match old with
  | none => (s, [])
  | some conn =>
    if conn.key = key then (s, [])
    else ({ s with conns := Function.update s.conns conn.key none }, [.kick conn.key])

structure ResumeResult where
  code : ErrCode
  nonce : Option Nonce
  sent : Option Nat
  deriving DecidableEq, Repr

def resume (s : SessionService) (key : Key) (e : EntityId) (bound : Bool) (recv : Option Int)
    (nonce : Nonce) (now : Nat) : SessionService × List GateCmd × ResumeResult :=
  match s.io e, bound with
  | some io, true =>
    let (t, cmds) := (s.installConn key e).retire (s.session e) key
    let io' := io.resumed recv nonce now
    (t.setIo e io', cmds, ⟨.OK, some nonce, some io'.sent⟩)
  | _, _ => (s, [], ⟨.SESSION_CLOSED, none, none⟩)

/-- `replay`: false when there was nothing to replay to, or when it met a gap and kicked. -/
def replay (s : SessionService) (e : EntityId) : SessionService × List GateCmd × Bool :=
  match s.io e, s.session e with
  | some io, some conn =>
    let (packs, complete) := io.replayed
    (s.setIo e { io with replaying := false },
      packs.map (.push conn.key) ++ (if complete then [] else [.kick conn.key]), complete)
  | _, _ => (s, [], false)

def ack (s : SessionService) (e : EntityId) (recv : Option Int) : SessionService :=
  match s.io e with
  | none => s
  | some io => s.setIo e (io.ack recv)

def unbind (s : SessionService) (key : Key) : SessionService :=
  match s.conns key with
  | none => s
  | some conn =>
    { s with
      conns := Function.update s.conns key none
      session := if s.session conn.entity = some conn then
        Function.update s.session conn.entity none else s.session }

def kick (s : SessionService) (key : Key) : List GateCmd :=
  match s.conns key with
  | none => []
  | some _ => [.kick key]

/-- `unbind_kick`: leaves a connection alone that has been bound to another entity. -/
def unbindKick (s : SessionService) (key : Key) (expected : EntityId) :
    SessionService × List GateCmd :=
  match s.conns key with
  | none => (s, [])
  | some conn => if conn.entity = expected then (s.unbind key, [.kick key]) else (s, [])

/-- What `sweep_idle` does to one connection; the clock counts hundredths of a second. -/
def sweepIdle (conf : SessionConf) (s : SessionService) (key : Key) (now : Nat) : List GateCmd :=
  match s.conns key with
  | none => []
  | some conn =>
    match s.io conn.entity with
    | none => []
    | some io => if io.lastSeen + conf.idleTimeout * 100 < now then [.kick key] else []

/-- The part of `bind_session` before its call to the gate: the entity leaves the connection it
had. -/
def leaveOld (m : SessionService) (e : EntityId) (key : Key) : SessionService × List GateCmd :=
  match m.session e with
  | none => (m, [])
  | some old => if old.key = key then (m, []) else m.unbindKick old.key e

/-- The body of `session_closed` inside the queue of the entity. -/
def unbindClosed (m : SessionService) (e : EntityId) (key : Key) : SessionService :=
  match m.conns key with
  | none => m
  | some conn => if conn.entity = e then m.unbind key else m

end SessionService

end Skyext
