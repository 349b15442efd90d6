import Mathlib.Data.List.Count
import Mathlib.Data.List.Perm.Basic
import Skyext.Snowflake.Service

namespace Skyext
set_option autoImplicit true

namespace IdGenerator

abbrev Id := BitVec 64

def cacheCapacity : Nat := 1000
def refillSize : Nat := cacheCapacity

/-- `do_refill`, forked or suspended in `raw_newids`. -/
inductive Refill
  | forked
  | fetching
  deriving DecidableEq

/-- A call suspended in a direct fetch, with the ids it has already taken from the cache. -/
inductive Call
  | newid
  | newids (count : Nat) (result : List Id)
  deriving DecidableEq

def Call.result : Call → List Id
  | .newid => []
  | .newids _ result => result

/-- How many ids the call has asked the service for. -/
def Call.request : Call → Nat
  | .newid => 1
  | .newids count result => count - result.length

/-- What a call has returned; a `newids` with the count it was called with. -/
structure Return where
  count : Option Nat
  ids : List Id
  deriving DecidableEq

/-- One service's id cache, the tasks and calls under way, and a record of the ids the snowflake
service has handed out to it, of those that went into a raised call and of all the returns. -/
structure State where
  idCache : List Id := []
  cacheSize : Int := 0
  isRefilling : Bool := false
  refills : List Refill := []
  waiting : List Call := []
  fetched : List Id := []
  dropped : List Id := []
  returned : List Return := []
  deriving DecidableEq

namespace State

/-- The threshold is 20% of the capacity. -/
def shouldRefill (s : State) : Bool := s.cacheSize * 5 ≤ cacheCapacity

def refillCache (s : State) : State :=
  if s.isRefilling then s
  else { s with isRefilling := true, refills := s.refills ++ [.forked] }

def refillIfLow (s : State) : State := if s.shouldRefill then s.refillCache else s

/-- `id_cache[id] = true` and the counter. -/
def addCached (s : State) (id : Id) : State :=
  { s with idCache := s.idCache.insert id, cacheSize := s.cacheSize + 1 }

/-- `id_cache[id] = nil` and the counter. -/
def takeCached (s : State) (id : Id) : State :=
  { s with idCache := s.idCache.erase id, cacheSize := s.cacheSize - 1 }

/-- The loop of `get_cached_ids` over the keys in the order `pairs` yields them. -/
def takeLoop (count : Nat) (s : State) (result : List Id) : List Id → State × List Id
  | [] => (s, result)
  | id :: order =>
    if result.length + 1 ≥ count then (s.takeCached id, result ++ [id])
    else takeLoop count (s.takeCached id) (result ++ [id]) order

def ret (s : State) (count : Option Nat) (ids : List Id) : State :=
  { s with returned := s.returned ++ [⟨count, ids⟩] }

def wait (s : State) (c : Call) : State := { s with waiting := s.waiting ++ [c] }

/-- `get_cached_id`; without a cached id it is suspended in `raw_newid`. -/
def getCachedId (s : State) (order : List Id) : State :=
  match order with
  | [] => s.refillCache.wait .newid
  | id :: _ => (s.takeCached id).refillIfLow.ret none [id]

/-- `get_cached_ids`; with ids missing it is suspended in `raw_newids`. -/
def getCachedIds (s : State) (count : Nat) (order : List Id) : State :=
  let r := s.takeLoop count [] order
  if count - r.2.length > 0 then r.1.refillIfLow.wait (.newids count r.2)
  else r.1.refillIfLow.ret (some count) r.2

/-- A reply of the snowflake service: it clamps the count, refuses a large one, and its ids are
distinct over the whole run. -/
def Serves (s : State) (count : Nat) (ids : List Id) : Prop :=
  count ≤ Snowflake.Cluster.maxCount ∧ ids.length = Snowflake.Cluster.clamp count ∧
    (s.fetched ++ ids).Nodup

instance : Decidable (Serves s count ids) := inferInstanceAs (Decidable (_ ∧ _ ∧ _))

def replied (s : State) (c : Call) (ids : List Id) : State :=
  match c with
  | .newid => s.ret none ids
  | .newids count result => s.refillIfLow.ret (some count) (result ++ ids)

end State

/-- The steps of a run: `skynet.init`, a background refill and its reply, a call with the order in
which the cache is traversed, and the reply to a suspended call. -/
inductive Action
  | init
  | startRefill (k : Nat)
  | refilled (k : Nat) (ids : List Id)
  | refillFailed (k : Nat)
  | newid (order : List Id)
  | newids (count : Nat) (order : List Id)
  | reply (k : Nat) (ids : List Id)
  | fail (k : Nat)

namespace State

def step (s : State) : Action → Option State
  | .init => some s.refillCache
  | .startRefill k =>
    if s.refills[k]? = some .forked then some { s with refills := s.refills.set k .fetching }
    else none
  | .refilled k ids =>
    if s.refills[k]? = some .fetching ∧ s.Serves refillSize ids then
      let t := ids.foldl addCached { s with fetched := s.fetched ++ ids }
      some { t with isRefilling := false, refills := t.refills.eraseIdx k }
    else none
  | .refillFailed k =>
    if s.refills[k]? = some .fetching then
      some { s with isRefilling := false, refills := s.refills.eraseIdx k }
    else none
  | .newid order => if order.Perm s.idCache then some (s.getCachedId order) else none
  | .newids count order => if order.Perm s.idCache then some (s.getCachedIds count order) else none
  | .reply k ids => do
    let c ← s.waiting[k]?
    if s.Serves c.request ids then
      some ({ s with waiting := s.waiting.eraseIdx k, fetched := s.fetched ++ ids }.replied c ids)
    else none
  | .fail k => do
    let c ← s.waiting[k]?
    some { s with waiting := s.waiting.eraseIdx k, dropped := s.dropped ++ c.result }

end State

def system : Machine.System State Action := ⟨fun s => s = {}, State.step⟩

end IdGenerator
end Skyext
