import Mathlib.Data.List.Nodup
import Skyext.Lib.Machine
import Skyext.Session.Io

namespace Skyext
set_option autoImplicit true

open Machine

/-- The uplink side of a session by the ids a client may send, negative ones included.
`respOrder` is the queue between the head and the tail of `resp_order`. -/
structure ResponseCache where
  respCache : Int → Option CachedResponse := fun _ => none
  respOrder : List Int := []
  respBytes : Int := 0
  minCachedReqId : Int := 0

namespace ResponseCache

/-- `evict_oldest_response`; false when it raises on an entry that is gone. -/
def evictOldestResponse (c : ResponseCache) : ResponseCache × Bool :=
  match c.respOrder with
  | [] => (c, false)
  | reqId :: order =>
    match c.respCache reqId with
    | none => ({ c with respOrder := order }, false)
    | some entry =>
      ({ respCache := Function.update c.respCache reqId none
         respOrder := order
         respBytes := c.respBytes - entry.pack.size
         minCachedReqId :=
          if reqId ≥ c.minCachedReqId then reqId + 1 else c.minCachedReqId }, true)

def full (conf : SessionConf) (c : ResponseCache) : Bool :=
  !c.respOrder.isEmpty && (decide (c.respOrder.length > conf.respcacheCount) ||
    decide (c.respBytes > conf.respcacheBytes))

/-- The eviction loop of `cache_response`, each round of which shortens the queue. -/
def shrink (conf : SessionConf) : Nat → ResponseCache → ResponseCache × Bool
  | 0, c => (c, true)
  | n + 1, c =>
    if c.full conf then
      match c.evictOldestResponse with
      | (c, true) => shrink conf n c
      | (c, false) => (c, false)
    else (c, true)

def put (c : ResponseCache) (reqId : Int) (pack : Pack) (name : Proto) : ResponseCache :=
  { c with
    respOrder := c.respOrder ++ [reqId]
    respCache := Function.update c.respCache reqId (some ⟨pack, name⟩)
    respBytes := c.respBytes + pack.size }

def cacheResponse (conf : SessionConf) (c : ResponseCache) (reqId : Int) (pack : Pack)
    (name : Proto) : ResponseCache × Bool :=
  shrink conf (c.respOrder.length + 1) (c.put reqId pack name)

def lookup (c : ResponseCache) (reqId : Int) (name : Proto) : SessionIo.Lookup :=
  match c.respCache reqId with
  | some cached => if cached.name ≠ name then .conflict else .hit cached.pack
  | none => if reqId < c.minCachedReqId then .expired else .miss

end ResponseCache

/-- The responses of a session whose request ids are the client's own, counted up from one. -/
def SessionIo.responses (io : SessionIo) : ResponseCache where
  respCache reqId := if 0 ≤ reqId then io.respCache reqId.toNat else none
  respOrder := io.respOrder.map Int.ofNat
  respBytes := io.respBytes
  minCachedReqId := io.minCachedReqId

namespace SessionIo

variable {conf : SessionConf} {io : SessionIo}

theorem update_responses (f : Nat → Option CachedResponse) (reqId : Nat)
    (entry : Option CachedResponse) :
    (fun r : Int => if 0 ≤ r then Function.update f reqId entry r.toNat else none) =
      Function.update (fun r : Int => if 0 ≤ r then f r.toNat else none) (reqId : Int) entry := by
  funext r
  by_cases hr : r = reqId
  · subst hr
    simp
  · rw [Function.update_of_ne hr]
    split
    · rw [Function.update_of_ne (by omega)]
    · rfl

theorem responses_evict (h : io.evictOldestResponse = some io') :
    io.responses.evictOldestResponse = (io'.responses, true) := by
  rw [evictOldestResponse] at h
  split at h
  · cases h
  · next reqId order ho =>
    obtain ⟨entry, he, rfl⟩ := Option.map_eq_some_iff.mp h
    have hget : io.responses.respCache (reqId : Int) = some entry := by
      simp [responses, he]
    have horder : io.responses.respOrder = (reqId : Int) :: order.map Int.ofNat := by
      simp [responses, ho]
    simp only [ResponseCache.evictOldestResponse, horder, hget]
    simp only [responses, update_responses, Prod.mk.injEq, and_true, ResponseCache.mk.injEq,
      true_and]
    by_cases hle : io.minCachedReqId ≤ reqId <;> simp [hle]

theorem responses_evict_none (h : io.evictOldestResponse = none) :
    io.responses.evictOldestResponse =
      (responses { io with respOrder := io.respOrder.tail }, false) := by
  rw [evictOldestResponse] at h
  split at h
  · next ho => simp [ResponseCache.evictOldestResponse, responses, ho]
  · next reqId order ho =>
    have hnone := Option.map_eq_none_iff.mp h
    simp [ResponseCache.evictOldestResponse, responses, ho, hnone]

theorem responses_full : io.responses.full conf = io.cacheFull conf := by
  simp [ResponseCache.full, cacheFull, responses]

theorem responses_shrink (n : Nat) :
    io.responses.shrink conf n = ((shrinkCache conf n io).1.responses,
      (shrinkCache conf n io).2) := by
  induction n generalizing io with
  | zero => rfl
  | succ n ih =>
    rw [ResponseCache.shrink, shrinkCache, responses_full]
    cases io.cacheFull conf with
    | false => rfl
    | true =>
      simp only [if_true]
      cases he : io.evictOldestResponse with
      | none => rw [responses_evict_none he]
      | some io' =>
        rw [responses_evict he]
        exact ih

theorem responses_cacheResponse (reqId : Nat) (pack : Pack) (name : Proto) :
    io.responses.cacheResponse conf reqId pack name =
      ((io.cacheResponse conf reqId pack name).1.responses,
        (io.cacheResponse conf reqId pack name).2) := by
  have hput : io.responses.put reqId pack name = responses
      { io with
        respOrder := io.respOrder ++ [reqId]
        respCache := Function.update io.respCache reqId (some ⟨pack, name⟩)
        respBytes := io.respBytes + pack.size } := by
    simp [ResponseCache.put, responses, update_responses]
  have hlen : io.responses.respOrder.length + 1 = (io.respOrder ++ [reqId]).length := by
    simp [responses]
  rw [ResponseCache.cacheResponse, hput, hlen]
  exact responses_shrink _

end SessionIo

/-- A `with_request` whose handler is queued or runs. -/
structure PendingRequest where
  reqId : Option Int
  name : Proto
  deriving DecidableEq

/-- A session's response cache under the requests that come in, with a record of every id ever
cached and of whether an eviction has raised. -/
structure RequestService where
  cache : ResponseCache := {}
  pending : List PendingRequest := []
  cached : List Int := []
  raised : Bool := false

/-- A request comes in, and a handler ends: its response is a package, or nothing that can be
cached. -/
inductive RequestAction
  | request (reqId : Option Int) (name : Proto)
  | finish (k : Nat) (response : Option Pack)

namespace RequestService

def step (conf : SessionConf) (s : RequestService) : RequestAction → Option RequestService
  | .request reqId name =>
    match reqId.map fun reqId => s.cache.lookup reqId name with
    | none | some .miss => some { s with pending := s.pending ++ [⟨reqId, name⟩] }
    | some _ => some s
  | .finish k response => do
    let p ← s.pending[k]?
    let t := { s with pending := s.pending.eraseIdx k }
    match p.reqId, response with
    | some reqId, some pack =>
      let r := s.cache.cacheResponse conf reqId pack p.name
      some { t with cache := r.1, cached := s.cached ++ [reqId], raised := s.raised || !r.2 }
    | _, _ => some t

def system (conf : SessionConf) : System RequestService RequestAction :=
  ⟨fun s => s = {}, step conf⟩

end RequestService

end Skyext
