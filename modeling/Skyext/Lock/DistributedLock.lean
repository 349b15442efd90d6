import Skyext.Lock.Etcd

namespace Skyext
set_option autoImplicit true

/-- The client side of the node lease. `elapsed` says that the clock has reached the deadline
and no call has noticed it yet. -/
structure NodeLease where
  leaseid : Option LeaseId
  epoch : Nat
  elapsed : Bool
  deriving DecidableEq, Repr

structure LockHandle where
  fence : Nat
  lease : LeaseId
  epoch : Nat
  valid : Bool
  deriving DecidableEq, Repr

/-- The state one process keeps for one lock key: its view of the node lease, every handle
object it made, and the entry of `g_locks`. -/
structure LockModule where
  lease : NodeLease
  handles : List LockHandle
  gLocks : Option Nat
  gClosed : Bool
  deriving DecidableEq, Repr

namespace LockModule

def fresh : LockModule := ⟨⟨none, 0, false⟩, [], none, false⟩

def setInvalid (m : LockModule) (h : Nat) : LockModule :=
  { m with handles := m.handles.modify h fun x => { x with valid := false } }

def invalidateAll (m : LockModule) : LockModule :=
  match m.gLocks with
  | none => m
  | some h => { m.setInvalid h with gLocks := none }

def clear (m : LockModule) : LockModule :=
  match m.lease.leaseid with
  | none => m
  | some _ => { m with lease := ⟨none, m.lease.epoch, false⟩ }.invalidateAll

def onLeaseAlive (m : LockModule) (leaseid : LeaseId) (epoch : Nat) (late : Bool) : LockModule :=
  let m := if epoch ≠ m.lease.epoch then m.clear else m
  { m with lease := ⟨some leaseid, epoch, late⟩ }

def onLeaseLost (m : LockModule) (epoch : Nat) : LockModule :=
  if epoch ≠ m.lease.epoch then m else m.clear

def leaseValid (m : LockModule) : Bool := m.lease.leaseid.isSome && !m.lease.elapsed

def checkLease (m : LockModule) : LockModule := if m.lease.elapsed then m.clear else m

def isValid (m : LockModule) (h : Nat) : Bool :=
  match m.handles[h]? with
  | none => false
  | some x => x.valid && m.leaseValid && decide (x.epoch = m.lease.epoch) && m.gLocks == some h

def checkHandle (m : LockModule) (h : Nat) : LockModule :=
  match m.handles[h]? with
  | none => m
  | some x => if x.valid then m.checkLease else m

inductive LockResult
  | locked (h : Nat)
  | refused (reason : String) (owner : Option String)
  deriving DecidableEq, Repr

/-- What `try_lock` remembers across its round trip. -/
structure TryLockCall where
  leaseid : LeaseId
  epoch : Nat
  value : String
  deriving DecidableEq, Repr

def TryLockCall.txn (c : TryLockCall) : Txn := ⟨0, .requestPut c.value c.leaseid, .requestRange⟩

def existingValid (m : LockModule) : Option Nat := m.gLocks.filter m.isValid

/-- `try_lock` up to its transaction. -/
def tryLockStart (m : LockModule) (value : String) :
    LockModule × (LockResult ⊕ TryLockCall) :=
  if m.gClosed then (m, .inl (.refused "lock service closed" none)) else
  match m.existingValid with
  | some h => (m, .inl (.locked h))
  | none =>
    match m.lease.leaseid with
    | none => (m, .inl (.refused "etcd lease unavailable" none))
    | some leaseid =>
      if m.leaseValid then (m, .inr ⟨leaseid, m.lease.epoch, value⟩)
      else (m.checkLease, .inl (.refused "etcd lease unavailable" none))

def parseOwner (kv : Option LockKey) : Option String :=
  (kv.map LockKey.value).filter (· ≠ "")

/-- The fencing revision a reply grants: the revision of the put, or the create revision of a
key that hangs on the caller's own lease. -/
def grantedRevision (c : TryLockCall) (r : TxnReply) : Except LockResult Nat :=
  if r.succeeded then
    match r.revision with
    | some f => .ok f
    | none => .error (.refused "etcd did not return a fencing revision" none)
  else
    match r.kv with
    | some k =>
      if k.lease = c.leaseid then .ok k.createRevision
      else .error (.refused "lock held" (parseOwner r.kv))
    | none => .error (.refused "lock held" (parseOwner r.kv))

def install (m : LockModule) (c : TryLockCall) (fence : Nat) : LockModule :=
  { m with
    handles := m.handles ++ [⟨fence, c.leaseid, c.epoch, true⟩]
    gLocks := some m.handles.length }

/-- `try_lock` after its transaction was answered, or after the client gave up on it. -/
def tryLockReply (m : LockModule) (c : TryLockCall) (ret : Option TxnReply) :
    LockModule × LockResult :=
  match ret with
  | none => (m, .refused "etcd lock transaction failed" none)
  | some r =>
    if !m.leaseValid || decide (c.epoch ≠ m.lease.epoch) then
      (m.checkLease, .refused "lease changed during acquisition" none)
    else
      match m.existingValid with
      | some h => (m, .locked h)
      | none =>
        match grantedRevision c r with
        | .error e => (m, e)
        | .ok fence => (m.install c fence, .locked m.handles.length)

/-- `unlock` up to its transaction: the fence it asks etcd to compare with. -/
def unlockStart (m : LockModule) (h : Nat) : LockModule × (LockResult ⊕ Nat) :=
  if m.isValid h then (m, .inr ((m.handles[h]?.map LockHandle.fence).getD 0))
  else (m.checkHandle h, .inl (.refused "lock not held or lease expired" none))

def unlockTxn (fence : Nat) : Txn := ⟨fence, .requestDeleteRange, .requestRange⟩

def drop (m : LockModule) (h : Nat) : LockModule := { m.setInvalid h with gLocks := none }

/-- `unlock` after its transaction was answered, or after the client gave up on it. -/
def unlockReply (m : LockModule) (h : Nat) (ret : Option TxnReply) : LockModule × Bool :=
  match ret.filter TxnReply.succeeded with
  | none => (if m.gLocks = some h then m.drop h else m, false)
  | some _ =>
    if m.isValid h then (m.drop h, true)
    else (if m.gLocks = some h then m.checkHandle h else m, false)

def shutdown (m : LockModule) : LockModule := { m.invalidateAll with gClosed := true }

end LockModule

end Skyext
