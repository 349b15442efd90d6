import Mathlib.Data.List.Basic
import Mathlib.Logic.Function.Basic
import Skyext.Lib.Machine

namespace Skyext
set_option autoImplicit true

/-- What is stored under the key of a node, with the revision of its last change. -/
structure NodeInfo where
  address : String
  modRevision : Nat
  deriving DecidableEq

inductive NodeEvent
  | put (node address : String)
  | delete (node : String)
  deriving DecidableEq

abbrev NodeMap := String → Option NodeInfo

/-- What a change with revision `rev` makes of the keys. -/
def NodeEvent.apply (rev : Nat) (m : NodeMap) : NodeEvent → NodeMap
  | .put node address => Function.update m node (some ⟨address, rev⟩)
  | .delete node => Function.update m node none

/-- The node keys at revision `r` of a history whose first change has revision one. -/
def nodesAt (history : List NodeEvent) : Nat → NodeMap
  | 0 => fun _ => none
  | r + 1 =>
    match history[r]? with
    | some ev => ev.apply (r + 1) (nodesAt history r)
    | none => nodesAt history r

/-- The changes of etcd so far and the discovery service: `g_etcd_node_revision`, `g_map_node`,
and the addresses given to `cluster.reload` merged over all its calls, where `some none` stands
for `false`. After a batch that was not finished the service is not settled. -/
structure Discovery where
  history : List NodeEvent
  revision : Option Nat
  mapNode : NodeMap
  addresses : String → Option (Option String)
  watching : Bool
  settled : Bool

namespace Discovery

def clusterReloadNodes (s : Discovery) (deletes : List String) : Discovery :=
  { s with
    addresses := fun node =>
      if node ∈ deletes then some none
      else match s.mapNode node with
        | some info => some (some info.address)
        | none => s.addresses node }

/-- One event of a batch, with the nodes deleted so far. -/
def watchEvent (s : Discovery) (deletes : List String) (rev : Nat) :
    NodeEvent → Discovery × List String
  | .delete node =>
    ({ s with mapNode := Function.update s.mapNode node none }, deletes ++ [node])
  | .put node address =>
    let put := { s with mapNode := Function.update s.mapNode node (some ⟨address, rev⟩) }
    match s.mapNode node with
    | some old =>
      if old.modRevision < rev then (put.clusterReloadNodes [], deletes) else (s, deletes)
    | none => (put.clusterReloadNodes [], deletes)

/-- The events of a batch; the first of them has revision `rev + 1`. -/
def watchEvents (s : Discovery) (deletes : List String) (rev : Nat) :
    List NodeEvent → Discovery × List String
  | [] => (s, deletes)
  | ev :: evs =>
    let (t, deletes') := s.watchEvent deletes (rev + 1) ev
    t.watchEvents deletes' (rev + 1) evs

def watchBatch (s : Discovery) (rev : Nat) (evs : List NodeEvent) : Discovery :=
  let (t, deletes) := s.watchEvents [] rev evs
  { t.clusterReloadNodes deletes with revision := some (rev + evs.length) }

/-- `first_query_nodes`, whose read etcd answered at revision `r`. -/
def firstQueryNodes (s : Discovery) (r : Nat) : Discovery :=
  { s with
    mapNode := nodesAt s.history r, revision := some r, settled := true }.clusterReloadNodes []

/-- The `n` changes a watch that stands at revision `rev` delivers next. -/
def batch (s : Discovery) (rev n : Nat) : List NodeEvent := (s.history.drop rev).take n

end Discovery

/-- etcd changes; a query is answered, its answer possibly overtaken by later changes; a watch
delivers a batch, is interrupted between two batches, or dies inside one. -/
inductive DiscoveryAction
  | change (ev : NodeEvent)
  | query (r : Nat)
  | batch (n : Nat)
  | interrupt
  | fail (n k : Nat)

namespace Discovery

/-- The revision of the last read or batch; reads are linearizable. -/
def seen (s : Discovery) : Nat := s.revision.getD 0

def step (s : Discovery) : DiscoveryAction → Option Discovery
  | .change ev => some { s with history := s.history ++ [ev] }
  | .query r =>
    if s.watching = false ∧ s.seen ≤ r ∧ r ≤ s.history.length then
      some { s.firstQueryNodes r with watching := true }
    else none
  | .batch n =>
    if s.watching ∧ s.seen + n ≤ s.history.length then
      some (s.watchBatch s.seen (s.batch s.seen n))
    else none
  | .interrupt => some { s with watching := false }
  | .fail n k =>
    if s.watching then
      some { (s.watchEvents [] s.seen ((s.batch s.seen n).take k)).1 with
        watching := false, settled := false }
    else none

def start : Discovery := ⟨[], none, fun _ => none, fun _ => none, false, false⟩

def system : Machine.System Discovery DiscoveryAction := ⟨fun s => s = start, step⟩

end Discovery

end Skyext
