import Skyext.Lib.Window

namespace Skyext
set_option autoImplicit true

/-- A resume credential. The random source never hands out the same one twice, so the session it
was drawn for and the number of draws before it identify it. -/
structure Nonce where
  session : Nat
  count : Nat
  deriving DecidableEq, Repr

inductive ErrCode
  | OK
  | IN_OTHER_NODE
  | LOCK_FAILED
  | AUTH_FAILED
  | ENTITY_NOT_FOUND
  | ENTITY_LOAD_FAILED
  | SESSION_CLOSED
  | RESUME_UNAVAILABLE
  | REQUEST_EXPIRED
  | REQUEST_CONFLICT
  deriving DecidableEq, Repr

/-- The protocols of the session layer and those of the application. -/
inductive Proto
  | login
  | resume
  | ping
  | business (name : Nat)
  deriving DecidableEq, Repr

/-- The fields of a response body the client reads. -/
structure Reply where
  code : Option ErrCode
  rid : Option Nat
  nonce : Option Nonce
  sent : Option Nat
  deriving DecidableEq, Repr

/-- What the client's decoder makes of a package. -/
inductive Content
  | push (payload : Nat)
  | response (session : Nat) (args : Reply)
  | undecodable
  deriving DecidableEq, Repr

/-- An encoded package and its length in bytes. -/
structure Pack where
  content : Content
  size : Nat
  deriving DecidableEq, Repr

structure SessionConf where
  replayBytes : Nat
  replayPackets : Nat
  respcacheCount : Nat
  respcacheBytes : Nat
  idleTimeout : Nat
  deriving DecidableEq, Repr

def SessionConf.standard : SessionConf := ⟨32 * 1024, 256, 64, 16 * 1024, 60⟩

structure CachedResponse where
  pack : Pack
  name : Proto
  deriving DecidableEq, Repr

/-- A session: it outlives the connections it is carried over. `respOrder` is the queue between
the head and the tail of `resp_order`. -/
structure SessionIo where
  nonce : Nonce
  sent : Nat
  acked : Nat
  outBuf : Nat → Option Pack
  outBytes : Int
  respCache : Nat → Option CachedResponse
  respOrder : List Nat
  respBytes : Int
  minCachedReqId : Nat
  lastSeen : Nat
  unresumable : Bool
  replaying : Bool

namespace SessionIo

def new (nonce : Nonce) (now : Nat) : SessionIo :=
  ⟨nonce, 0, 0, fun _ => none, 0, fun _ => none, [], 0, 0, now, false, false⟩

def dropReplay (io : SessionIo) : SessionIo :=
  { io with unresumable := true, outBuf := fun _ => none, outBytes := 0, acked := io.sent }

/-- Counts a package and keeps it for a replay. -/
def append (io : SessionIo) (pack : Pack) : SessionIo :=
  { io with
    sent := io.sent + 1
    outBuf := Function.update io.outBuf (io.sent + 1) (some pack)
    outBytes := io.outBytes + pack.size }

def overflows (conf : SessionConf) (io : SessionIo) : Bool :=
  decide ((conf.replayBytes : Int) < io.outBytes) ||
    decide (conf.replayPackets < io.sent - io.acked)

/-- The bookkeeping of `record_and_send`. -/
def record (conf : SessionConf) (io : SessionIo) (pack : Pack) : SessionIo :=
  if (io.append pack).overflows conf then (io.append pack).dropReplay else io.append pack

def forget (io : SessionIo) (seq : Nat) : SessionIo :=
  match io.outBuf seq with
  | none => io
  | some pack =>
    { io with
      outBytes := io.outBytes - pack.size
      outBuf := Function.update io.outBuf seq none }

def trim (io : SessionIo) : Nat → SessionIo
  | 0 => io
  | n + 1 => { (io.forget (io.acked + 1)) with acked := io.acked + 1 }.trim n

def outOfRange (io : SessionIo) (recv : Int) : Bool :=
  decide (recv < io.acked) || decide ((io.sent : Int) < recv)

/-- `ack`: a count outside the buffer only marks the session. -/
def ack (io : SessionIo) (recv : Option Int) : SessionIo :=
  if io.outOfRange (recv.getD 0) then { io with unresumable := true }
  else io.trim ((recv.getD 0).toNat - io.acked)

/-- `evict_oldest_response`; `none` when it indexes an entry that is gone. -/
def evictOldestResponse (io : SessionIo) : Option SessionIo :=
  match io.respOrder with
  | [] => none
  | reqId :: order =>
    (io.respCache reqId).map fun entry =>
      { io with
        respOrder := order
        respCache := Function.update io.respCache reqId none
        respBytes := io.respBytes - entry.pack.size
        minCachedReqId := if io.minCachedReqId ≤ reqId then reqId + 1 else io.minCachedReqId }

def cacheFull (conf : SessionConf) (io : SessionIo) : Bool :=
  !io.respOrder.isEmpty && (decide (conf.respcacheCount < io.respOrder.length) ||
    decide ((conf.respcacheBytes : Int) < io.respBytes))

/-- The eviction loop. An eviction that raises leaves the session as it found it, but for the
queue entry it had already taken off. -/
def shrinkCache (conf : SessionConf) : Nat → SessionIo → SessionIo × Bool
  | 0, io => (io, true)
  | n + 1, io =>
    if io.cacheFull conf then
      match io.evictOldestResponse with
      | some io' => shrinkCache conf n io'
      | none => ({ io with respOrder := io.respOrder.tail }, false)
    else (io, true)

/-- `cache_response`; false when the eviction raised. -/
def cacheResponse (conf : SessionConf) (io : SessionIo) (reqId : Nat) (pack : Pack)
    (name : Proto) : SessionIo × Bool :=
  let io' := { io with
    respOrder := io.respOrder ++ [reqId]
    respCache := Function.update io.respCache reqId (some ⟨pack, name⟩)
    respBytes := io.respBytes + pack.size }
  shrinkCache conf io'.respOrder.length io'

inductive Lookup
  | hit (pack : Pack)
  | conflict
  | expired
  | miss
  deriving DecidableEq, Repr

def lookup (io : SessionIo) (reqId : Nat) (name : Proto) : Lookup :=
  match io.respCache reqId with
  | some cached => if cached.name ≠ name then .conflict else .hit cached.pack
  | none => if reqId < io.minCachedReqId then .expired else .miss

/-- The checks `resume` makes before it calls the gate. -/
def resumeCheck (io : Option SessionIo) (nonce : Option Nonce) (recv : Option Int) : ErrCode :=
  match io with
  | none => .RESUME_UNAVAILABLE
  | some io =>
    if io.unresumable then .RESUME_UNAVAILABLE
    else if nonce ≠ some io.nonce then .AUTH_FAILED
    else if io.outOfRange (recv.getD 0) then .RESUME_UNAVAILABLE
    else .OK

def resumed (io : SessionIo) (recv : Option Int) (nonce : Nonce) (now : Nat) : SessionIo :=
  { ({ io with replaying := true }.ack recv) with nonce := nonce, lastSeen := now }

/-- The packages `replay` writes, and whether it met no gap. -/
def replayFrom (buf : Nat → Option Pack) : Nat → Nat → List Pack × Bool
  | _, 0 => ([], true)
  | seq, n + 1 =>
    match buf (seq + 1) with
    | none => ([], false)
    | some pack => (pack :: (replayFrom buf (seq + 1) n).1, (replayFrom buf (seq + 1) n).2)

def replayed (io : SessionIo) : List Pack × Bool :=
  replayFrom io.outBuf io.acked (io.sent - io.acked)

end SessionIo

end Skyext
