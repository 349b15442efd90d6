import Mathlib.Data.List.AList
import Mathlib.Data.List.Lex
import Mathlib.Data.List.Sort
import Mathlib.Data.Char
import Skyext.Lib.Machine

namespace Skyext
set_option autoImplicit true

namespace ServiceObj

abbrev Name := List Char

/-- What is stored at a key: something that decodes to nil (nothing, or no JSON), or anything else,
with its `node_revision` where it has one. -/
inductive Stored
  | unreadable
  | entry (nodeRevision : Option Nat)
  deriving DecidableEq

/-- `info.node_revision`, which raises where there is none. -/
def Stored.nodeRevision : Stored → Option Nat
  | .unreadable => none
  | .entry rev => rev

/-- A change of a key of the service, written without the prefix of its keys. -/
inductive Event
  | put (key : Name) (value : Stored)
  | delete (key : Name)
  deriving DecidableEq

def Event.key : Event → Name
  | .put key _ => key
  | .delete key => key

abbrev Keys := AList fun _ : Name => Stored

def Event.change (keys : Keys) : Event → Keys
  | .put key value => keys.insert key value
  | .delete key => keys.erase key

/-- The keys of the service at revision `r` of a history with the changes of each revision, the
first of which is revision one. -/
def keysAt (history : List (List Event)) (r : Nat) : Keys :=
  (history.take r).flatten.foldl Event.change ∅

/-- `node` and the revision it was registered at. -/
abbrev Nodes := AList fun _ : Name => Nat

/-- The pattern takes the last two parts of a key between slashes. -/
def resolveServiceName (key : Name) : Option (Name × Name) :=
  let node := key.reverse.takeWhile (· ≠ '/')
  match key.reverse.dropWhile (· ≠ '/') with
  | [] => none
  | _ :: rest =>
    let service := rest.takeWhile (· ≠ '/')
    if node = [] ∨ service = [] then none else some (service.reverse, node.reverse)

def makeServiceKeyPrefix (service : Name) : Name := "/skynet/service/".toList ++ service ++ ['/']

def resolve (service key : Name) : Option Name :=
  (resolveServiceName (makeServiceKeyPrefix service ++ key)).map Prod.snd

inductive Outcome
  | done
  | refused
  | raised
  deriving DecidableEq

/-- The checks of `update_node` against the nodes that are known and their revisions. -/
def check (known : Name → Option Nat) (node : Name) : Option Nat → Outcome
  | none => .raised
  | some nodeRevision =>
    match known node with
    | none => .refused
    | some rev => if rev < nodeRevision then .refused else .done

def updateNode (known : Name → Option Nat) (mapNode : Nodes) (node : Name) (info : Option Nat) :
    Outcome × Nodes :=
  match check known node info, info with
  | .done, some nodeRevision => (.done, mapNode.insert node nodeRevision)
  | out, _ => (out, mapNode)

/-- The nodes a query found, with the revision each entry has. -/
abbrev Found := AList fun _ : Name => Option Nat

/-- `etcd_query_service` over the keys that etcd answered with. -/
def queryFrom (service : Name) (mapNode : Found) : List (Σ _ : Name, Stored) → Option Found
  | [] => some mapNode
  | kv :: kvs =>
    match resolve service kv.1, kv.2 with
    | none, _ => none
    -- the assignment of nil leaves the table without the node
    | some node, .unreadable => queryFrom service (mapNode.erase node) kvs
    | some node, .entry rev => queryFrom service (mapNode.insert node rev) kvs

def etcdQueryService (service : Name) (keys : Keys) : Option Found :=
  queryFrom service ∅ keys.entries

/-- The loop of `first_query` over what was found, in the order `pairs` has. -/
def fill (known : Name → Option Nat) (found : Found) (mapNode : Nodes) :
    List Name → Outcome × Nodes
  | [] => (.done, mapNode)
  | node :: order =>
    match updateNode known mapNode node ((found.lookup node).getD none) with
    | (.done, mapNode') => fill known found mapNode' order
    | r => r

/-- The loop of `watch` over the events of a response; it may be abandoned. -/
def watchEvents (service : Name) (known : Name → Option Nat) (mapNode : Nodes) :
    List Event → Bool × Nodes
  | [] => (true, mapNode)
  | ev :: evs =>
    match resolve service ev.key, ev with
    | none, _ => (false, mapNode)
    | some node, .delete _ => watchEvents service known (mapNode.erase node) evs
    | some node, .put _ value =>
      match updateNode known mapNode node value.nodeRevision with
      | (.done, mapNode') => watchEvents service known mapNode' evs
      | (_, mapNode') => (false, mapNode')

def getNodes (mapNode : Nodes) : List Name := mapNode.keys.insertionSort (· ≤ ·)

/-- A list that was published or answered, when the service stood at the revision. -/
structure Given where
  revision : Nat
  nodes : List Name
  deriving DecidableEq

/-- The changes of etcd, the nodes that are known, and the service; `position` is the revision
after which the watch goes on. -/
structure State where
  history : List (List Event) := []
  known : Name → Option Nat := fun _ => none
  mapNode : Nodes := ∅
  etcdRevision : Option Nat := none
  position : Nat := 0
  watching : Bool := false
  given : List Given := []

/-- Etcd changes; the nodes change; a query was answered at revision `r`; the watch delivers the
next `n` revisions or is interrupted; `query_service` is called. -/
inductive Action
  | change (evs : List Event)
  | nodes (known : Name → Option Nat)
  | query (r : Nat) (order : List Name)
  | batch (n revision : Nat)
  | interrupt
  | ask

namespace State

def give (s : State) : State :=
  { s with given := s.given ++ [⟨s.position, getNodes s.mapNode⟩] }

def updateRevision (s : State) (revision : Nat) : State :=
  { s with etcdRevision := some revision }.give

/-- `first_query` with what was found at revision `r`, and the watch that follows it. -/
def firstQuery (s : State) (found : Option Found) (r : Nat) (order : List Name) : State :=
  match found with
  | none => s
  | some found =>
    match fill s.known found ∅ order with
    | (.done, mapNode) =>
      { s with mapNode := mapNode, position := r, watching := true }.updateRevision r
    | (.refused, _) => s
    | (.raised, mapNode) => { s with mapNode := mapNode }

def accepts (service : Name) (known : Name → Option Nat) (ev : Event) : Bool :=
  match resolve service ev.key, ev with
  | none, _ => false
  | some _, .delete _ => true
  | some node, .put _ value => check known node value.nodeRevision = .done

/-- The changes of the `n` revisions that follow the position. -/
def upcoming (s : State) (n : Nat) : List (List Event) := (s.history.drop s.position).take n

/-- How many of them the loop takes whole. -/
def whole (service : Name) (s : State) (n : Nat) : Nat :=
  ((s.upcoming n).takeWhile fun evs => evs.all (accepts service s.known)).length

def watchBatch (service : Name) (s : State) (n revision : Nat) : State :=
  let r := watchEvents service s.known s.mapNode (s.upcoming n).flatten
  let t := { s with mapNode := r.2, position := s.position + s.whole service n }
  if r.1 then t.updateRevision revision else { t with watching := false }

def step (service : Name) (s : State) : Action → Option State
  | .change evs => some { s with history := s.history ++ [evs] }
  | .nodes known => some { s with known := known }
  | .query r order =>
    let found := etcdQueryService service (keysAt s.history r)
    -- a read is never older than what the watch has delivered
    if s.watching = false ∧ s.position ≤ r ∧ r ≤ s.history.length ∧
        (∀ mapNode ∈ found, order.Perm mapNode.keys) then
      some (s.firstQuery found r order)
    else none
  | .batch n revision =>
    if s.watching ∧ s.position + n ≤ s.history.length then some (s.watchBatch service n revision)
    else none
  | .interrupt => some { s with watching := false }
  | .ask => if s.etcdRevision.isSome then some s.give else none

end State

def system (service : Name) : Machine.System State Action :=
  ⟨fun s => s = {}, State.step service⟩

end ServiceObj
end Skyext
