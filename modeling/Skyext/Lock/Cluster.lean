import Skyext.Lib.Machine
import Skyext.Lock.DistributedLock

namespace Skyext
set_option autoImplicit true

/-- A suspended call of one process; an unlock remembers the fence it asked etcd to compare. -/
inductive LockCall
  | tryLock (c : LockModule.TryLockCall)
  | unlock (h fence : Nat)
  deriving DecidableEq, Repr

def LockCall.txn : LockCall → Txn
  | .tryLock c => c.txn
  | .unlock _ fence => LockModule.unlockTxn fence

def LockCall.handle? : LockCall → Option Nat
  | .tryLock _ => none
  | .unlock h _ => some h

def LockCall.fence? : LockCall → Option Nat
  | .tryLock _ => none
  | .unlock _ fence => some fence

/-- Any number of processes and one etcd. A call is known by its position in `calls`, which
only grows; `inflight` holds the requests etcd may still execute and `replies` its answers.
`granted` lists the fences of new handles with their owners, newest first. -/
structure LockCluster where
  etcd : Etcd
  epochs : NodeId → Nat
  nodes : NodeId → LockModule
  calls : List (NodeId × LockCall)
  finished : List Nat
  inflight : List (Nat × Txn)
  replies : List (Nat × Option TxnReply)
  granted : List (NodeId × Nat)

inductive LockAction
  | tryLock (n : NodeId) (value : String)
  | unlock (n : NodeId) (h : Nat)
  | resend (c : Nat)
  | execute (i : Nat)
  | lose (i : Nat)
  | loseReply (i : Nat)
  | reply (i : Nat)
  | giveUp (c : Nat)
  | deadline (n : NodeId)
  | leaseAlive (n : NodeId) (epoch : Nat) (late : Bool)
  | leaseLost (n : NodeId) (epoch : Nat)
  | grant (n : NodeId)
  | expire (l : LeaseId)
  deriving DecidableEq, Repr

namespace LockCluster

def setNode (s : LockCluster) (n : NodeId) (m : LockModule) : LockCluster :=
  { s with nodes := Function.update s.nodes n m }

/-- Suspends a call and hands the first copy of its transaction to the network. -/
def send (s : LockCluster) (n : NodeId) (call : LockCall) : LockCluster :=
  { s with
    calls := s.calls ++ [(n, call)]
    inflight := s.inflight ++ [(s.calls.length, call.txn)] }

def record (s : LockCluster) (n : NodeId) (m : LockModule) : LockCluster :=
  match m.handles[(s.nodes n).handles.length]? with
  | some x => { s with granted := (n, x.fence) :: s.granted }
  | none => s

def resume (s : LockCluster) (c : Nat) (ret : Option TxnReply) : Option LockCluster :=
  if c ∈ s.finished then none else
  match s.calls[c]? with
  | none => none
  | some (n, .tryLock t) =>
    let m := ((s.nodes n).tryLockReply t ret).1
    some ((({ s with finished := c :: s.finished }).record n m).setNode n m)
  | some (n, .unlock h _) =>
    let m := ((s.nodes n).unlockReply h ret).1
    some (({ s with finished := c :: s.finished }).setNode n m)

/-- The local deadline of a lease passes no later than etcd's expiry of it. -/
def expirable (s : LockCluster) (l : LeaseId) : Bool :=
  !((s.nodes l.node).leaseValid && (s.nodes l.node).lease.leaseid == some l)

def step (s : LockCluster) : LockAction → Option LockCluster
  | .tryLock n value =>
    match (s.nodes n).tryLockStart value with
    | (m, .inl _) => some (s.setNode n m)
    | (m, .inr c) => some ((s.setNode n m).send n (.tryLock c))
  | .unlock n h =>
    match (s.nodes n).unlockStart h with
    | (m, .inl _) => some (s.setNode n m)
    | (m, .inr fence) => some ((s.setNode n m).send n (.unlock h fence))
  | .resend c =>
    if c ∈ s.finished then none else
    (s.calls[c]?).map fun call => { s with inflight := s.inflight ++ [(c, call.2.txn)] }
  | .execute i =>
    (s.inflight[i]?).map fun p =>
      { s with
        etcd := (s.etcd.txn p.2).1
        inflight := s.inflight.eraseIdx i
        replies := s.replies ++ [(p.1, (s.etcd.txn p.2).2)] }
  | .lose i => some { s with inflight := s.inflight.eraseIdx i }
  | .loseReply i => some { s with replies := s.replies.eraseIdx i }
  | .reply i =>
    match s.replies[i]? with
    | none => none
    | some (c, ret) => { s with replies := s.replies.eraseIdx i }.resume c ret
  | .giveUp c => s.resume c none
  | .deadline n =>
    some (s.setNode n { s.nodes n with lease := { (s.nodes n).lease with elapsed := true } })
  | .leaseAlive n epoch late =>
    if (s.nodes n).lease.epoch ≤ epoch ∧ 0 < epoch ∧ epoch ≤ s.epochs n ∧
        (late ∨ s.etcd.live ⟨n, epoch⟩) then
      some (s.setNode n ((s.nodes n).onLeaseAlive ⟨n, epoch⟩ epoch late))
    else none
  | .leaseLost n epoch => some (s.setNode n ((s.nodes n).onLeaseLost epoch))
  | .grant n =>
    some { s with
      epochs := Function.update s.epochs n (s.epochs n + 1)
      etcd := s.etcd.grant ⟨n, s.epochs n + 1⟩ }
  | .expire l => if s.expirable l then some { s with etcd := s.etcd.expire l } else none

def empty : LockCluster :=
  ⟨⟨0, none, fun _ => false, []⟩, fun _ => 0, fun _ => .fresh, [], [], [], [], []⟩

def system : Machine.System LockCluster LockAction := ⟨(· = empty), step⟩

def UnlockCalled (s : LockCluster) (n : NodeId) (h : Nat) : Prop :=
  ∃ p ∈ s.calls, p.1 = n ∧ p.2.handle? = some h

/-- Some process has sent a delete of the key's incarnation `fence`. -/
def UnlockSent (s : LockCluster) (fence : Nat) : Prop :=
  ∃ p ∈ s.calls, p.2.fence? = some fence

instance (s : LockCluster) (n : NodeId) (h : Nat) : Decidable (s.UnlockCalled n h) :=
  inferInstanceAs (Decidable (∃ p ∈ s.calls, _))

instance (s : LockCluster) (fence : Nat) : Decidable (s.UnlockSent fence) :=
  inferInstanceAs (Decidable (∃ p ∈ s.calls, _))

/-- Process `n` owns the lock: a valid handle that was not given back. -/
def Owns (s : LockCluster) (n : NodeId) (h : Nat) : Prop :=
  (s.nodes n).isValid h = true ∧ ¬ s.UnlockCalled n h

instance (s : LockCluster) (n : NodeId) (h : Nat) : Decidable (s.Owns n h) :=
  inferInstanceAs (Decidable (_ ∧ _))

def MutualExclusion (s : LockCluster) : Prop :=
  ∀ n m h k, s.Owns n h → s.Owns m k → n = m

/-- Whenever the lock passes to another process the new fence exceeds all earlier ones. -/
def FencesGrow : List (NodeId × Nat) → Prop
  | [] => True
  | [_] => True
  | (n, f) :: (m, g) :: rest =>
    (n ≠ m → ∀ p ∈ (m, g) :: rest, p.2 < f) ∧ FencesGrow ((m, g) :: rest)

/-- The answer about to be delivered makes a new handle for an incarnation of the key that a
process has already asked etcd to delete. -/
def readopts (s : LockCluster) : LockAction → Bool
  | .reply i =>
    match s.replies[i]? with
    | some (c, some r) =>
      match s.calls[c]? with
      | some (n, .tryLock t) =>
        match LockModule.grantedRevision t r with
        | .ok f => decide (c ∉ s.finished) && (s.nodes n).leaseValid &&
            decide (t.epoch = (s.nodes n).lease.epoch) && (s.nodes n).existingValid.isNone &&
            decide (s.UnlockSent f)
        | .error _ => false
      | _ => false
    | _ => false
  | _ => false

/-- The condition on a step that it takes up no handle whose key is already being deleted. -/
def NoReadoption (s : LockCluster) (a : LockAction) : Prop := s.readopts a = false

instance (s : LockCluster) (a : LockAction) : Decidable (s.NoReadoption a) :=
  inferInstanceAs (Decidable (_ = false))

end LockCluster

end Skyext
