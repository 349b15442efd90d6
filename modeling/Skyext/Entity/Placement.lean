import Mathlib.Order.ConditionallyCompleteLattice.Indexed
import Mathlib.Data.Int.ConditionallyCompleteOrder
import Mathlib.Data.Fintype.Fin
import Mathlib.Data.Int.Order.Basic
import Mathlib.Data.List.Lex
import Mathlib.Data.Prod.Lex
import Mathlib.Data.List.Sort
import Skyext.Lib.Argmax

namespace Skyext
set_option autoImplicit true

namespace Placement

/-- Node names are strings of bytes, which `<` compares lexicographically. -/
abbrev Node := List (Fin 256)

def fnvOffset : UInt64 := 0xcbf29ce484222325
def fnvPrime : UInt64 := 0x100000001b3
def golden : UInt64 := 0x9e3779b97f4a7c15

def seedOf (node : Node) : UInt64 :=
  node.foldl (fun seed byte => (seed ^^^ UInt64.ofNat byte) * fnvPrime) fnvOffset

/-- `g_node_seed`, which holds the seeds of the nodes asked for before. -/
structure Seeds where
  get : Node → Option UInt64
  sound : ∀ node seed, get node = some seed → seed = seedOf node

def Seeds.empty : Seeds := ⟨fun _ => none, by simp⟩

def Seeds.insert (seeds : Seeds) (node : Node) : Seeds where
  get := Function.update seeds.get node (some (seedOf node))
  sound := by
    intro other seed h
    rw [Function.update_apply] at h
    split at h
    · next he => exact he ▸ (Option.some.inj h).symm
    · exact seeds.sound other seed h

def nodeSeed (seeds : Seeds) (node : Node) : UInt64 × Seeds :=
  match seeds.get node with
  | some seed => (seed, seeds)
  | none => (seedOf node, seeds.insert node)

def mix64 (x : UInt64) : UInt64 :=
  let x := (x ^^^ (x >>> 30)) * 0xbf58476d1ce4e5b9
  let x := (x ^^^ (x >>> 27)) * 0x94d049bb133111eb
  let x := x ^^^ (x >>> 31)
  x &&& 0x7fffffffffffffff

def score (seeds : Seeds) (node : Node) (entityId : UInt64) : UInt64 × Seeds :=
  let r := nodeSeed seeds node
  (mix64 (r.1 ^^^ (entityId * golden)), r.2)

/-- `best` and `best_score` after the next candidate; integers are compared as signed numbers. -/
def better (best : Option (Node × UInt64)) (node : Node) (score : UInt64) :
    Option (Node × UInt64) :=
  match best with
  | none => some (node, score)
  | some (best, bestScore) =>
    if bestScore.toInt64 < score.toInt64 ∨ score = bestScore ∧ node < best then
      some (node, score)
    else some (best, bestScore)

structure Best where
  best : Option (Node × UInt64)
  seeds : Seeds

def Best.step (entityId : UInt64) (b : Best) (node : Node) : Best :=
  let s := score b.seeds node entityId
  ⟨better b.best node s.1, s.2⟩

def select (seeds : Seeds) (nodes : List Node) (entityId : UInt64) : Option Node × Seeds :=
  let b := nodes.foldl (Best.step entityId) ⟨none, seeds⟩
  (b.best.map Prod.fst, b.seeds)

/-- The keys of `map_node` in the order `pairs` happens to yield them, sorted. -/
def getNodes (mapNode : List Node) : List Node := mapNode.mergeSort (· ≤ ·)

/-- `select` of a list that may be missing. -/
def selectFrom (seeds : Seeds) (nodes : Option (List Node)) (entityId : UInt64) :
    Option Node × Seeds :=
  match nodes with
  | some nodes => select seeds nodes entityId
  | none => (none, seeds)

/-- `live` is what the discovery reports, if it can be asked, and `configured` the nodes of the
type's configuration. -/
def calcNode (seeds : Seeds) (typeName : String) (live configured : Option (List Node))
    (entityId : UInt64) : Except String Node × Seeds :=
  let found := selectFrom seeds live entityId
  match found.1 with
  | some node => (.ok node, found.2)
  | none =>
    let found := selectFrom found.2 configured entityId
    match found.1 with
    | some node => (.ok node, found.2)
    | none => (.error ("no available node for entity type: " ++ typeName), found.2)

def scoreOf (entityId : UInt64) (node : Node) : UInt64 :=
  mix64 (seedOf node ^^^ (entityId * golden))

/-- A signed score and a name: among equal scores the smaller name ranks first. -/
abbrev Rank := Lex (Int × Nodeᵒᵈ)

def rankAt (score : UInt64) (node : Node) : Rank :=
  toLex (score.toInt64.toInt, OrderDual.toDual node)

def rank (entityId : UInt64) (node : Node) : Rank := rankAt (scoreOf entityId node) node

theorem rank_injective (entityId : UInt64) : Function.Injective (rank entityId) := by
  intro a b h
  have hp := congrArg (fun r => (ofLex r).2) h
  exact OrderDual.toDual.injective hp

theorem toInt64_inj {a b : UInt64} : a.toInt64.toInt = b.toInt64.toInt ↔ a = b := by
  rw [Int64.toInt_inj]
  constructor
  · intro h
    exact congrArg Int64.toUInt64 h
  · exact congrArg UInt64.toInt64

theorem rankAt_lt (bestScore score : UInt64) (best node : Node) :
    rankAt bestScore best < rankAt score node ↔
      bestScore.toInt64 < score.toInt64 ∨ score = bestScore ∧ node < best := by
  rw [rankAt, rankAt, Prod.Lex.toLex_lt_toLex, Int64.lt_iff_toInt_lt, toInt64_inj,
    OrderDual.toDual_lt_toDual]
  simp only [eq_comm]

theorem nodeSeed_fst (seeds : Seeds) (node : Node) : (nodeSeed seeds node).1 = seedOf node := by
  cases h : seeds.get node with
  | none => simp only [nodeSeed, h]
  | some seed => simpa only [nodeSeed, h] using seeds.sound node seed h

theorem score_fst (seeds : Seeds) (node : Node) (entityId : UInt64) :
    (score seeds node entityId).1 = scoreOf entityId node :=
  congrArg (fun seed => mix64 (seed ^^^ (entityId * golden))) (nodeSeed_fst seeds node)

theorem argmax_better (f : Node → UInt64)
    (h : best = (nodes.argmax fun node => rankAt (f node) node).map fun node => (node, f node)) :
    better best node (f node) =
      ((nodes ++ [node]).argmax fun node => rankAt (f node) node).map
        fun node => (node, f node) := by
  rw [List.argmax_concat]
  subst h
  cases nodes.argmax fun node => rankAt (f node) node with
  | none => rfl
  | some best =>
    by_cases hlt : rankAt (f best) best < rankAt (f node) node
    · simp only [better, Option.map_some, if_pos ((rankAt_lt _ _ _ _).mp hlt), if_pos hlt]
    · simp only [better, Option.map_some, if_neg (mt (rankAt_lt _ _ _ _).mpr hlt), if_neg hlt]

/-- The loop holds the first node among the candidates and its score. -/
theorem foldl_step (seeds : Seeds) (nodes : List Node) (entityId : UInt64) :
    (nodes.foldl (Best.step entityId) ⟨none, seeds⟩).best =
      (nodes.argmax (rank entityId)).map fun node => (node, scoreOf entityId node) := by
  induction nodes using List.reverseRecOn with
  | nil => rfl
  | append_singleton nodes node ih =>
    rw [List.foldl_append, List.foldl_cons, List.foldl_nil, Best.step, score_fst]
    exact argmax_better (scoreOf entityId) ih

theorem select_eq_argmax (seeds : Seeds) (nodes : List Node) (entityId : UInt64) :
    (select seeds nodes entityId).1 = nodes.argmax (rank entityId) := by
  rw [select, foldl_step, Option.map_map]
  exact Option.map_id'

theorem select_mem (seeds : Seeds) (entityId : UInt64) (hne : nodes ≠ []) :
    ∃ node ∈ nodes, (select seeds nodes entityId).1 = some node := by
  cases h : nodes.argmax (rank entityId) with
  | none => exact absurd (List.argmax_eq_none.mp h) hne
  | some node => exact ⟨node, List.argmax_mem h, (select_eq_argmax _ _ _).trans h⟩

theorem select_congr (seeds seeds' : Seeds) (entityId : UInt64)
    (h : ∀ node, node ∈ nodes' ↔ node ∈ nodes) :
    (select seeds' nodes' entityId).1 = (select seeds nodes entityId).1 := by
  simp only [select_eq_argmax]
  exact Argmax.argmax_congr (rank_injective entityId) h

theorem selectFrom_seeds (seeds seeds' : Seeds) (nodes : Option (List Node)) (entityId : UInt64) :
    (selectFrom seeds' nodes entityId).1 = (selectFrom seeds nodes entityId).1 := by
  cases nodes with
  | none => rfl
  | some nodes => exact select_congr seeds seeds' entityId fun _ => Iff.rfl

/-- The order in which `pairs` yields the live nodes has no influence on the placement. -/
theorem calcNode_congr (seeds seeds' : Seeds) (typeName : String) (configured : Option (List Node))
    (entityId : UInt64) (h : ∀ node, node ∈ mapNode' ↔ node ∈ mapNode) :
    (calcNode seeds' typeName (some (getNodes mapNode')) configured entityId).1 =
      (calcNode seeds typeName (some (getNodes mapNode)) configured entityId).1 := by
  have hlive : (selectFrom seeds' (some (getNodes mapNode')) entityId).1 =
      (selectFrom seeds (some (getNodes mapNode)) entityId).1 :=
    select_congr seeds seeds' entityId (by simp [getNodes, h])
  simp only [calcNode, hlive]
  cases (selectFrom seeds (some (getNodes mapNode)) entityId).1 with
  | some node => rfl
  | none =>
    simp only [selectFrom_seeds (selectFrom seeds (some (getNodes mapNode)) entityId).2]
    cases (selectFrom (selectFrom seeds (some (getNodes mapNode)) entityId).2 configured
      entityId).1 <;> rfl

inductive Change
  | join (node : Node)
  | leave (node : Node)
  deriving DecidableEq

/-- The list after a change, in any order and with any repetitions. -/
def Change.Gives (nodes nodes' : List Node) : Change → Prop
  | .join x => ∀ node, node ∈ nodes' ↔ node = x ∨ node ∈ nodes
  | .leave x => ∀ node, node ∈ nodes' ↔ node ≠ x ∧ node ∈ nodes

/-- The change is the arrival of the new node or the departure of the old one. -/
def Change.Moves (old new : Option Node) : Change → Prop
  | .join x => new = some x
  | .leave x => old = some x

/-- A run of membership changes, the list after each of them. -/
inductive Changes (nodes : List Node) : List Change → List Node → Prop
  | nil : Changes nodes [] nodes
  | snoc : Changes nodes changes nodes' → c.Gives nodes' nodes'' →
    Changes nodes (changes ++ [c]) nodes''

theorem select_change (seeds seeds' : Seeds) (entityId : UInt64) (h : Change.Gives nodes nodes' c) :
    (select seeds' nodes' entityId).1 = (select seeds nodes entityId).1 ∨
      c.Moves (select seeds nodes entityId).1 (select seeds' nodes' entityId).1 := by
  simp only [select_eq_argmax]
  cases c with
  | join x => exact Argmax.argmax_insert (rank_injective entityId) h
  | leave x =>
    by_cases hx : nodes.argmax (rank entityId) = some x
    · exact .inr hx
    · exact .inl (Argmax.argmax_erase (rank_injective entityId) h hx)

theorem Changes.kept (h : Changes nodes changes nodes') (hmem : node ∈ nodes) :
    node ∈ nodes' ∨ .leave node ∈ changes := by
  induction h with
  | nil => exact .inl hmem
  | @snoc changes nodes' c nodes'' _ hc ih =>
    rcases ih with ih | ih
    · cases c with
      | join x => exact .inl ((hc node).mpr (.inr ih))
      | leave x =>
        by_cases hx : node = x
        · exact .inr (by simp [hx])
        · exact .inl ((hc node).mpr ⟨hx, ih⟩)
    · exact .inr (List.mem_append_left _ ih)

theorem Changes.added (h : Changes nodes changes nodes') (hmem : node ∈ nodes') :
    node ∈ nodes ∨ .join node ∈ changes := by
  induction h with
  | nil => exact .inl hmem
  | @snoc changes nodes' c nodes'' _ hc ih =>
    cases c with
    | join x =>
      rcases (hc node).mp hmem with rfl | hmem
      · exact .inr (by simp)
      · exact (ih hmem).imp_right (List.mem_append_left _)
    | leave x => exact (ih ((hc node).mp hmem).2).imp_right (List.mem_append_left _)

/-- Over a whole run the entities that changed place come from nodes that left or go to nodes
that joined. -/
theorem Changes.select (h : Changes nodes changes nodes') (seeds seeds' : Seeds)
    (entityId : UInt64) :
    (select seeds' nodes' entityId).1 = (select seeds nodes entityId).1 ∨
      ∃ c ∈ changes, c.Moves (select seeds nodes entityId).1 (select seeds' nodes' entityId).1 := by
  simp only [select_eq_argmax]
  cases hold : nodes.argmax (rank entityId) with
  | none =>
    cases hnew : nodes'.argmax (rank entityId) with
    | none => exact .inl rfl
    | some new =>
      rcases h.added (List.argmax_mem hnew) with hmem | hjoin
      · rw [List.argmax_eq_none.mp hold] at hmem
        cases hmem
      · exact .inr ⟨_, hjoin, rfl⟩
  | some old =>
    rcases h.kept (List.argmax_mem hold) with hkept | hleave
    · cases hnew : nodes'.argmax (rank entityId) with
      | none =>
        rw [List.argmax_eq_none.mp hnew] at hkept
        cases hkept
      | some new =>
        rcases h.added (List.argmax_mem hnew) with hmem | hjoin
        · have hle := List.le_of_mem_argmax hmem hold
          have hge := List.le_of_mem_argmax hkept hnew
          exact .inl (congrArg some (rank_injective entityId (hle.antisymm hge)))
        · exact .inr ⟨_, hjoin, rfl⟩
    · exact .inr ⟨_, hleave, rfl⟩

/-- The placement depends on the set of nodes only and is one of them, a change of membership
moves nothing but the entities of the node that left and those the new node takes, and so does
any sequence of changes. -/
theorem select_stable (seeds seeds' : Seeds) (nodes nodes' : List Node) (entityId : UInt64) :
    (nodes ≠ [] → ∃ node ∈ nodes, (select seeds nodes entityId).1 = some node) ∧
    ((∀ node, node ∈ nodes' ↔ node ∈ nodes) →
      (select seeds' nodes' entityId).1 = (select seeds nodes entityId).1) ∧
    (∀ x ∉ nodes, (∀ node, node ∈ nodes' ↔ node = x ∨ node ∈ nodes) →
      (select seeds' nodes' entityId).1 = (select seeds nodes entityId).1 ∨
        (select seeds' nodes' entityId).1 = some x) ∧
    (∀ y ∈ nodes, (select seeds nodes entityId).1 ≠ some y →
      (∀ node, node ∈ nodes' ↔ node ≠ y ∧ node ∈ nodes) →
      (select seeds' nodes' entityId).1 = (select seeds nodes entityId).1) ∧
    (∀ changes, Changes nodes changes nodes' →
      (select seeds' nodes' entityId).1 = (select seeds nodes entityId).1 ∨
        ∃ c ∈ changes,
          c.Moves (select seeds nodes entityId).1 (select seeds' nodes' entityId).1) := by
  refine ⟨select_mem seeds entityId, select_congr seeds seeds' entityId, ?_, ?_, ?_⟩
  · intro x _ h
    exact select_change seeds seeds' entityId (c := .join x) h
  · intro y _ hy h
    exact (select_change seeds seeds' entityId (c := .leave y) h).resolve_right hy
  · intro changes h
    exact h.select seeds seeds' entityId

end Placement
end Skyext
