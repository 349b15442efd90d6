import Mathlib.Logic.Function.Basic
import Skyext.Db.Collection
import Skyext.Lib.Machine

namespace Skyext
set_option autoImplicit true

/-- What the database layer uses of a cached ORM document: `decode`, `_version`, `is_dirty`,
`__revision`, `snapshot_mongo`, `ack_mongo`, the changes an application makes to it, and what an
update does to stored fields. Neither a change nor anything but `ack_mongo` moves `_version`. -/
structure Orm (F U D E : Type) where
  blank : F
  decode : F → Nat → D
  version : D → Nat
  isDirty : D → Bool
  revision : D → Nat
  snapshot : D → Option U
  ack : D → Nat → Nat → D
  edit : E → D → D
  apply : U → F → F
  version_decode : ∀ fields v, version (decode fields v) = v
  version_ack : ∀ doc revision v, version (ack doc revision v) = v
  version_edit : ∀ e doc, version (edit e doc) = version doc

inductive Claimer (F : Type)
  | load (create : Bool) (initial : F)
  | recover

/-- A Mongo operation on the documents of the key. One that may insert a document carries who
sends it, an update the cached copy it comes from and how many updates that copy knows of. -/
inductive DbRequest (F U : Type)
  | claim (fence : Nat)
  | create (c : Claimer F) (fence : Nat) (initial : F)
  | find
  | update (w : Write U)

inductive DbReply (F U : Type)
  | document (value : Option (Document F U))
  | updated (matched : Bool)

/-- Applies a change to the first document a query matches. -/
def modifyFirst (p : α → Bool) (g : α → α) : List α → Option α × List α
  | [] => (none, [])
  | d :: ds => if p d then (some (g d), g d :: ds) else
    let r := modifyFirst p g ds
    (r.1, d :: r.2)

/-- What Mongo makes of an operation: the documents of the key afterwards, and its reply. -/
def DbRequest.execute (apply : U → F → F) (docs : List (Document F U)) :
    DbRequest F U → List (Document F U) × DbReply F U
  | .claim fence =>
    let r := modifyFirst (Document.claimable fence) (Document.claim fence) docs
    (r.2, .document r.1)
  | .create _ fence initial =>
    match docs with
    | [] => ([.first initial 0 (some fence)], .document (some (.first initial 0 (some fence))))
    | d :: ds => (d :: ds, .document (some d))
  | .find => (docs, .document docs.head?)
  | .update w =>
    let r := modifyFirst (Document.updatable w.fence w.version) (Document.write apply w) docs
    (r.2, .updated r.1.isSome)

/-- A cached document and the fence of the handle it was loaded under; `found` is the stored
document it was decoded from, `seen` the number of updates it knows of. -/
structure Entry (F U D : Type) where
  id : Nat
  fence : Nat
  doc : D
  found : Document F U
  seen : Nat

inductive SaveKind
  | save
  | unload
  | recover
  deriving DecidableEq

/-- The Mongo call a task waits for; `attempts` are left to `claim_with_fence`. -/
inductive DbTask (F : Type)
  | claiming (c : Claimer F) (fence attempts : Nat)
  | creating (c : Claimer F) (fence attempts : Nat)
  | finding (c : Claimer F) (fence attempts : Nat)
  | saving (kind : SaveKind) (version revision : Nat)

/-- One node: the cache entry of the key, and the call that holds the row lock with the number
of the request it waits for. -/
structure DbNode (F U D : Type) where
  cache : Option (Entry F U D) := none
  running : Option (DbTask F × Nat) := none

/-- A successful load: the cached document it returned, and the stored one that this was decoded
from. -/
structure Loaded (F U D : Type) where
  fence : Nat
  found : Document F U
  doc : D

/-- A recovery that answered `superseded`: the entry it dropped and the document it claimed. -/
structure Superseded (F U D : Type) where
  entry : Entry F U D
  claimed : Document F U

/-- All nodes that use one key: the documents stored under it, every operation sent to Mongo with
its reply once it has been executed, and a record of the loads and of the dropped caches. -/
structure Dbmgr (F U D : Type) where
  docs : List (Document F U)
  requests : List (DbRequest F U × Option (DbReply F U))
  nodes : Nat → DbNode F U D
  entries : Nat
  loads : List (Loaded F U D)
  superseded : List (Superseded F U D)

def fenceClaimAttempts : Nat := 3

def Claimer.create : Claimer F → Bool
  | .load create _ => create
  | .recover => true

def Claimer.initial (orm : Orm F U D E) : Claimer F → F
  | .load _ initial => initial
  | .recover => orm.blank

namespace Dbmgr

def setNode (s : Dbmgr F U D) (n : Nat) (x : DbNode F U D) : Dbmgr F U D :=
  { s with nodes := Function.update s.nodes n x }

def setCache (s : Dbmgr F U D) (n : Nat) (e : Option (Entry F U D)) : Dbmgr F U D :=
  s.setNode n { s.nodes n with cache := e }

def setRunning (s : Dbmgr F U D) (n : Nat) (r : Option (DbTask F × Nat)) : Dbmgr F U D :=
  s.setNode n { s.nodes n with running := r }

/-- Sends an operation and waits for its reply. -/
def send (s : Dbmgr F U D) (n : Nat) (task : DbTask F) (request : DbRequest F U) : Dbmgr F U D :=
  { s.setRunning n (some (task, s.requests.length)) with
    requests := s.requests ++ [(request, none)] }

def claimWithFence (s : Dbmgr F U D) (n : Nat) (c : Claimer F) (fence : Nat) :
    Nat → Dbmgr F U D
  | 0 => s.setRunning n none
  | attempts + 1 => s.send n (.claiming c fence attempts) (.claim fence)

/-- `resolve_unclaimed`: why the claim has matched no document. -/
def resolveUnclaimed (orm : Orm F U D E) (s : Dbmgr F U D) (n : Nat) (c : Claimer F)
    (fence attempts : Nat) : Dbmgr F U D :=
  if c.create then s.send n (.creating c fence attempts) (.create c fence (c.initial orm))
  else s.send n (.finding c fence attempts) .find

def saved (orm : Orm F U D E) (s : Dbmgr F U D) (n : Nat) (kind : SaveKind) (ok : Bool) :
    Dbmgr F U D :=
  let keep := s.setRunning n none
  let drop := s.setNode n { cache := none, running := none }
  match kind, (s.nodes n).cache with
  | .unload, some e => if ok && !orm.isDirty e.doc then drop else keep
  | .recover, some _ => if ok then drop else keep
  | _, _ => keep

/-- `save_doc` up to its Mongo call, for a handle whose lease is valid or not. -/
def saveDoc (orm : Orm F U D E) (s : Dbmgr F U D) (n : Nat) (e : Entry F U D) (fence : Nat)
    (kind : SaveKind) (lease : Bool) : Dbmgr F U D :=
  if !lease then s.saved orm n kind false
  else if !orm.isDirty e.doc then s.saved orm n kind true
  else
    let version := orm.version e.doc
    let revision := orm.revision e.doc
    match orm.snapshot e.doc with
    | none =>
      (s.setCache n (some { e with doc := orm.ack e.doc revision version })).saved orm n kind true
    | some update =>
      s.send n (.saving kind version revision)
        (.update ⟨fence, version, update, n, e.id, e.seen⟩)

/-- `save_doc` after its Mongo call has updated one document. -/
def acked (orm : Orm F U D E) (s : Dbmgr F U D) (n : Nat) (kind : SaveKind)
    (version revision : Nat) (lease : Bool) : Dbmgr F U D :=
  match (s.nodes n).cache with
  | some e =>
    if lease then
      let e' := { e with doc := orm.ack e.doc revision (version + 1), seen := e.seen + 1 }
      (s.setCache n (some e')).saved orm n kind true
    else s.saved orm n kind false
  | none => s.setRunning n none

/-- The document has been claimed: it becomes a cache entry, or it is compared with the one that
is to be recovered. -/
def claimed (orm : Orm F U D E) (s : Dbmgr F U D) (n : Nat) (c : Claimer F) (fence : Nat)
    (d : Document F U) (lease : Bool) : Dbmgr F U D :=
  match c with
  | .load _ _ =>
    if lease then
      let e : Entry F U D :=
        ⟨s.entries, fence, orm.decode d.fields d.version, d, d.writes.length⟩
      { s.setNode n { cache := some e, running := none } with
        entries := s.entries + 1, loads := ⟨fence, d, e.doc⟩ :: s.loads }
    else s.setRunning n none
  | .recover =>
    match (s.nodes n).cache with
    | some e =>
      if d.version ≠ orm.version e.doc then
        { s.setNode n { cache := none, running := none } with
          superseded := ⟨e, d⟩ :: s.superseded }
      else s.saveDoc orm n e fence .recover lease
    | none => s.setRunning n none

/-- What the row lock's owner does with a reply. -/
def answered (orm : Orm F U D E) (s : Dbmgr F U D) (n : Nat) (task : DbTask F)
    (reply : DbReply F U) (lease : Bool) : Dbmgr F U D :=
  match task, reply with
  | .claiming c fence _, .document (some d) => s.claimed orm n c fence d lease
  | .claiming c fence attempts, .document none => s.resolveUnclaimed orm n c fence attempts
  | .creating c fence attempts, .document (some d) =>
    if d.fence = some fence then s.claimed orm n c fence d lease
    else if d.fence.any (fence < ·) then s.setRunning n none
    else s.claimWithFence n c fence attempts
  | .finding c fence attempts, .document (some d) =>
    if d.fence.any (fence < ·) then s.setRunning n none
    else s.claimWithFence n c fence attempts
  | .saving kind version revision, .updated true => s.acked orm n kind version revision lease
  | .saving kind _ _, _ => s.saved orm n kind false
  | _, _ => s.setRunning n none

/-- `load`: the handle's own entry is returned as it is, a clean one of another handle is
dropped. The lease is looked at again before the document is claimed. -/
def load (orm : Orm F U D E) (s : Dbmgr F U D) (n fence : Nat) (create : Bool) (initial : F)
    (lease still : Bool) : Dbmgr F U D :=
  let claim (s : Dbmgr F U D) :=
    if still then s.claimWithFence n (.load create initial) fence fenceClaimAttempts else s
  if !lease then s
  else
    match (s.nodes n).cache with
    | some e =>
      if e.fence = fence then { s with loads := ⟨fence, e.found, e.doc⟩ :: s.loads }
      else if orm.isDirty e.doc then s
      else claim (s.setCache n none)
    | none => claim s

/-- `recover` of an entry that still belongs to the old handle. -/
def recover (orm : Orm F U D E) (s : Dbmgr F U D) (n oldFence newFence : Nat) (lease : Bool) :
    Dbmgr F U D :=
  match (s.nodes n).cache with
  | some e =>
    if e.fence ≠ oldFence then s
    else if !orm.isDirty e.doc then s.setCache n none
    else if !lease then s
    else s.claimWithFence n .recover newFence fenceClaimAttempts
  | none => s

end Dbmgr

/-- The steps of a run. `lease` is what the next look at the lease finds; the sweep's saves are
`save`s. Mongo executes an operation whenever it likes, once at most, and a call may be reported
as failed at any time. -/
inductive DbAction (F E : Type)
  | load (n fence : Nat) (create : Bool) (initial : F) (lease still : Bool)
  | save (n : Nat) (lease : Bool)
  | unload (n : Nat) (lease : Bool)
  | recover (n oldFence newFence : Nat) (lease : Bool)
  | discardClean (n fence : Nat)
  | discard (n fence : Nat)
  | edit (n : Nat) (e : E)
  | execute (i : Nat)
  | reply (n : Nat) (lease : Bool)
  | callFailed (n : Nat)
  | crash (n : Nat)

namespace Dbmgr

def step (orm : Orm F U D E) (s : Dbmgr F U D) : DbAction F E → Option (Dbmgr F U D)
  | .load n fence create initial lease still =>
    if (s.nodes n).running.isSome then none
    else some (s.load orm n fence create initial lease still)
  | .save n lease =>
    if (s.nodes n).running.isSome then none
    else
      match (s.nodes n).cache with
      | some e => some (s.saveDoc orm n e e.fence .save lease)
      | none => some s
  | .unload n lease =>
    if (s.nodes n).running.isSome then none
    else
      match (s.nodes n).cache with
      | some e => some (s.saveDoc orm n e e.fence .unload lease)
      | none => some s
  | .recover n oldFence newFence lease =>
    if (s.nodes n).running.isSome then none else some (s.recover orm n oldFence newFence lease)
  | .discardClean n fence =>
    if (s.nodes n).running.isSome then none
    else if (s.nodes n).cache.any fun e => e.fence = fence ∧ !orm.isDirty e.doc then
      some (s.setCache n none)
    else some s
  | .discard n fence =>
    if (s.nodes n).running.isSome then none
    else if (s.nodes n).cache.any fun e => e.fence = fence then some (s.setCache n none)
    else some s
  | .edit n a =>
    some (s.setCache n ((s.nodes n).cache.map fun e => { e with doc := orm.edit a e.doc }))
  | .execute i =>
    match s.requests[i]? with
    | some (request, none) =>
      let r := request.execute orm.apply s.docs
      some { s with docs := r.1, requests := s.requests.set i (request, some r.2) }
    | _ => none
  | .reply n lease =>
    match (s.nodes n).running with
    | some (task, i) =>
      match s.requests[i]? with
      | some (_, some reply) => some (s.answered orm n task reply lease)
      | _ => none
    | none => none
  | .callFailed n =>
    match (s.nodes n).running with
    | some (.saving kind _ _, _) => some (s.saved orm n kind false)
    | some _ => some (s.setRunning n none)
    | none => none
  | .crash n => some (s.setNode n {})

/-- No node has done anything yet; there is at most one document of the key. -/
def Initial (s : Dbmgr F U D) : Prop :=
  (s.docs = [] ∨ ∃ fields version fence, s.docs = [.first fields version fence]) ∧
    s.requests = [] ∧ (∀ n, s.nodes n = {}) ∧ s.entries = 0 ∧ s.loads = [] ∧ s.superseded = []

def system (orm : Orm F U D E) : Machine.System (Dbmgr F U D) (DbAction F E) :=
  ⟨Initial, step orm⟩

end Dbmgr

end Skyext
