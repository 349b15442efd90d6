import Mathlib.Logic.Function.Basic
import Mathlib.Data.List.Basic

namespace Skyext
set_option autoImplicit true

abbrev NodeId := Nat

/-- An etcd lease id. The node lease service counts its grants, so the grantee and that count
identify the lease. -/
structure LeaseId where
  node : NodeId
  epoch : Nat
  deriving DecidableEq, Repr

/-- The lock key as etcd stores it. -/
structure LockKey where
  createRevision : Nat
  lease : LeaseId
  value : String
  deriving DecidableEq, Repr

/-- The part of etcd one lock key needs. `history` is every incarnation of the key, newest
first, as etcd's multi-version store keeps it. -/
structure Etcd where
  revision : Nat
  key : Option LockKey
  live : LeaseId → Bool
  history : List LockKey

inductive EtcdOp
  | requestPut (value : String) (lease : LeaseId)
  | requestDeleteRange
  | requestRange
  deriving DecidableEq, Repr

/-- A transaction on the lock key guarded by one comparison of its create revision; zero
stands for a key that does not exist. -/
structure Txn where
  createRevision : Nat
  success : EtcdOp
  failure : EtcdOp
  deriving DecidableEq, Repr

/-- The body of a reply with status 200. -/
structure TxnReply where
  succeeded : Bool
  revision : Option Nat
  kv : Option LockKey
  deriving DecidableEq, Repr

namespace Etcd

def createRevision (e : Etcd) : Nat := (e.key.map LockKey.createRevision).getD 0

/-- A put creates the key; under a lease that is gone etcd rejects the whole request. -/
def apply (e : Etcd) : EtcdOp → Option (Etcd × Option LockKey)
  | .requestPut value lease =>
    if e.live lease then
      let k := ⟨e.revision + 1, lease, value⟩
      some ({ e with revision := e.revision + 1, key := some k, history := k :: e.history }, none)
    else none
  | .requestDeleteRange =>
    match e.key with
    | none => some (e, none)
    | some _ => some ({ e with revision := e.revision + 1, key := none }, none)
  | .requestRange => some (e, e.key)

/-- Executes a transaction; a reply of `none` is an answer whose status is not 200. -/
def txn (e : Etcd) (t : Txn) : Etcd × Option TxnReply :=
  let matched := decide (e.createRevision = t.createRevision)
  match e.apply (if matched then t.success else t.failure) with
  | none => (e, none)
  | some (e', kv) => (e', some ⟨matched, some e'.revision, kv⟩)

/-- Expiry of a lease removes the keys attached to it. -/
def expire (e : Etcd) (l : LeaseId) : Etcd :=
  let e' := { e with live := Function.update e.live l false }
  match e.key with
  | some k => if k.lease = l then { e' with key := none, revision := e.revision + 1 } else e'
  | none => e'

def grant (e : Etcd) (l : LeaseId) : Etcd := { e with live := Function.update e.live l true }

end Etcd

end Skyext
