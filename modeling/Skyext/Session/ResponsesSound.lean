import Mathlib.Algebra.Ring.Int.Defs
import Skyext.Session.Responses

namespace Skyext
set_option autoImplicit true

open Machine

namespace ResponseCache

variable {conf : SessionConf} {c : ResponseCache}

def bytesOf (c : ResponseCache) (reqId : Int) : Int :=
  (c.respCache reqId).elim 0 fun entry => entry.pack.size

/-- The queue lists each cached id once, and the counter is the sum of the cached packages. -/
structure Listed (c : ResponseCache) : Prop where
  nodup : c.respOrder.Nodup
  mem : ∀ reqId, reqId ∈ c.respOrder ↔ c.respCache reqId ≠ none
  bytes : c.respBytes = (c.respOrder.map c.bytesOf).sum

/-- What an eviction leaves: the oldest id is gone and refused from now on. -/
structure Evicted (c c' : ResponseCache) : Prop where
  order : c'.respOrder = c.respOrder.tail
  kept : ∀ reqId, c.respCache reqId ≠ none ∨ reqId < c.minCachedReqId →
    c'.respCache reqId ≠ none ∨ reqId < c'.minCachedReqId
  listed : Listed c'

theorem Listed.evict (h : Listed c) (hne : c.respOrder ≠ []) :
    ∃ c', c.evictOldestResponse = (c', true) ∧ Evicted c c' := by
  obtain ⟨reqId, order, ho⟩ := List.exists_cons_of_ne_nil hne
  have hmem : c.respCache reqId ≠ none := (h.mem reqId).mp (ho ▸ List.mem_cons_self)
  obtain ⟨entry, he⟩ := Option.ne_none_iff_exists'.mp hmem
  have hnd := h.nodup
  rw [ho] at hnd
  obtain ⟨hnot, hnd⟩ := List.nodup_cons.mp hnd
  have hstep : c.evictOldestResponse =
      ({ respCache := Function.update c.respCache reqId none
         respOrder := order
         respBytes := c.respBytes - entry.pack.size
         minCachedReqId :=
          if reqId ≥ c.minCachedReqId then reqId + 1 else c.minCachedReqId }, true) := by
    simp only [evictOldestResponse, ho, he]
  refine ⟨_, hstep, ?_⟩
  constructor
  case order => rw [ho, List.tail_cons]
  case kept =>
    intro r hr
    by_cases hrr : r = reqId
    · subst hrr
      refine .inr ?_
      dsimp only
      split <;> omega
    · rcases hr with hr | hr
      · exact .inl (by simpa only [Function.update_of_ne hrr] using hr)
      · refine .inr ?_
        dsimp only
        split <;> omega
  case listed =>
    constructor
    · exact hnd
    · intro r
      by_cases hrr : r = reqId
      · subst hrr
        simp [hnot]
      · have hm := h.mem r
        rw [ho, List.mem_cons] at hm
        simpa [hrr] using hm
    · have hb := h.bytes
      have hsame : order.map (bytesOf c) = order.map
          (bytesOf { c with respCache := Function.update c.respCache reqId none }) := by
        refine List.map_congr_left fun r hr => ?_
        have hrr : r ≠ reqId := by
          rintro rfl
          exact hnot hr
        simp only [bytesOf, Function.update_of_ne hrr]
      rw [ho, List.map_cons, List.sum_cons, bytesOf, he, hsame] at hb
      simp only [Option.elim_some] at hb
      dsimp only
      rw [hb, add_sub_cancel_left]
      rfl

theorem Listed.put (h : Listed c) (pack : Pack) (name : Proto) (hnew : c.respCache reqId = none) :
    Listed (c.put reqId pack name) := by
  have hnot : reqId ∉ c.respOrder := fun hmem => (h.mem reqId).mp hmem hnew
  constructor
  · exact List.nodup_append'.mpr ⟨h.nodup, List.nodup_singleton _, by simpa using hnot⟩
  · intro r
    simp only [ResponseCache.put, List.mem_append, List.mem_singleton]
    by_cases hrr : r = reqId
    · subst hrr
      simp
    · simp only [Function.update_of_ne hrr, hrr, or_false]
      exact h.mem r
  · have hsame : c.respOrder.map (bytesOf c) = c.respOrder.map
        (bytesOf (c.put reqId pack name)) := by
      refine List.map_congr_left fun r hr => ?_
      have hrr : r ≠ reqId := by
        rintro rfl
        exact hnot hr
      simp only [bytesOf, ResponseCache.put, Function.update_of_ne hrr]
    have hb := h.bytes
    rw [hsame] at hb
    have hlast : bytesOf (c.put reqId pack name) reqId = pack.size := by
      simp [bytesOf, ResponseCache.put]
    have horder : (c.put reqId pack name).respOrder = c.respOrder ++ [reqId] := rfl
    have hbytes : (c.put reqId pack name).respBytes = c.respBytes + pack.size := rfl
    rw [hbytes, horder, List.map_append, List.sum_append, List.map_singleton, List.sum_singleton,
      hlast, ← hb]

/-- An id that is cached, or was and has been evicted, does not run again. -/
def Settled (c : ResponseCache) (reqId : Int) : Prop :=
  c.respCache reqId ≠ none ∨ reqId < c.minCachedReqId

structure Within (conf : SessionConf) (c : ResponseCache) : Prop where
  count : c.respOrder.length ≤ conf.respcacheCount
  bytes : c.respBytes ≤ conf.respcacheBytes

theorem Listed.within (h : Listed c) (hf : c.full conf = false) : Within conf c := by
  rcases eq_or_ne c.respOrder [] with ho | ho
  · have hb := h.bytes
    rw [ho] at hb
    constructor
    · rw [ho]
      exact Nat.zero_le _
    · rw [hb]
      exact Int.natCast_nonneg _
  · rw [full, List.isEmpty_eq_false_iff.mpr ho] at hf
    simp at hf
    exact ⟨hf.1, hf.2⟩

/-- What an insertion leaves: the limits hold, and no id that does not run any more is lost. -/
structure Cached (conf : SessionConf) (c c' : ResponseCache) : Prop where
  listed : Listed c'
  within : Within conf c'
  kept : ∀ reqId, c.Settled reqId → c'.Settled reqId

theorem Listed.shrink (h : Listed c) (hn : c.respOrder.length ≤ n) :
    ∃ c', ResponseCache.shrink conf n c = (c', true) ∧ Cached conf c c' := by
  induction n generalizing c with
  | zero =>
    have ho : c.respOrder = [] := List.length_eq_zero_iff.mp (Nat.le_zero.mp hn)
    refine ⟨c, rfl, h, h.within ?_, fun _ hs => hs⟩
    rw [full, ho]
    rfl
  | succ n ih =>
    cases hf : c.full conf with
    | false =>
      refine ⟨c, ?_, h, h.within hf, fun _ hs => hs⟩
      rw [ResponseCache.shrink, hf]
      rfl
    | true =>
      have hne : c.respOrder ≠ [] := by
        intro ho
        rw [full, ho] at hf
        cases hf
      obtain ⟨c₁, he, hev⟩ := h.evict hne
      have hlen : c₁.respOrder.length ≤ n := by
        rw [hev.order, List.length_tail]
        omega
      obtain ⟨c', hs, hc⟩ := ih hev.listed hlen
      refine ⟨c', ?_, hc.listed, hc.within, fun r hr => hc.kept r (hev.kept r hr)⟩
      rw [ResponseCache.shrink, hf, if_pos rfl, he]
      exact hs

theorem Listed.cacheResponse (h : Listed c) (conf : SessionConf) (pack : Pack) (name : Proto)
    (hnew : c.respCache reqId = none) :
    ∃ c', c.cacheResponse conf reqId pack name = (c', true) ∧
      Cached conf (c.put reqId pack name) c' := by
  refine (h.put pack name hnew).shrink ?_
  rw [ResponseCache.put, List.length_append, List.length_singleton]

theorem put_settled (c : ResponseCache) (pack : Pack) (name : Proto)
    (h : c.Settled r ∨ r = reqId) : (c.put reqId pack name).Settled r := by
  by_cases hr : r = reqId
  · subst hr
    exact .inl (by simp [ResponseCache.put])
  · refine (h.resolve_right hr).imp_left fun h => ?_
    simpa only [ResponseCache.put, Function.update_of_ne hr] using h

end ResponseCache

namespace RequestService

variable {conf : SessionConf} {s t : RequestService}

/-- The cache is in order, no eviction has raised, and an id that was cached and then evicted is
refused. -/
structure Accounted (conf : SessionConf) (s : RequestService) : Prop where
  listed : s.cache.Listed
  within : s.cache.Within conf
  raised : s.raised = false
  evicted : ∀ reqId ∈ s.cached, s.cache.respCache reqId = none →
    reqId < s.cache.minCachedReqId ∧ ∀ name, s.cache.lookup reqId name = .expired

def Uncached (s : RequestService) : RequestAction → Prop
  | .finish k (some _) =>
    ((s.pending[k]?).bind fun p => p.reqId.bind s.cache.respCache) = none
  | _ => True

instance : Decidable (s.Uncached a) := by
  unfold Uncached
  split <;> infer_instance

structure Inv (conf : SessionConf) (s : RequestService) : Prop where
  listed : s.cache.Listed
  within : s.cache.Within conf
  raised : s.raised = false
  settled : ∀ reqId ∈ s.cached, s.cache.Settled reqId

theorem Inv.accounted (h : Inv conf s) : Accounted conf s where
  listed := h.listed
  within := h.within
  raised := h.raised
  evicted := by
    intro reqId hmem hnone
    have hlt := (h.settled reqId hmem).resolve_left (not_not_intro hnone)
    refine ⟨hlt, fun name => ?_⟩
    rw [ResponseCache.lookup, hnone]
    exact if_pos hlt

theorem Inv.step (h : Inv conf s) (hok : s.Uncached a) (hstep : step conf s a = some t) :
    Inv conf t := by
  cases a with
  | request reqId name =>
    rw [RequestService.step] at hstep
    split at hstep
    all_goals
      cases hstep
      exact { h with }
  | finish k response =>
    obtain ⟨p, hp, hstep⟩ := Option.bind_eq_some_iff.mp hstep
    obtain ⟨reqId, name⟩ := p
    cases reqId with
    | none =>
      cases hstep
      exact { h with }
    | some reqId =>
      cases response with
      | none =>
        cases hstep
        exact { h with }
      | some pack =>
        rw [Uncached, hp] at hok
        obtain ⟨c', he, hc⟩ := h.listed.cacheResponse conf pack name hok
        simp only [he] at hstep
        cases hstep
        refine ⟨hc.listed, hc.within, by simp [h.raised], ?_⟩
        intro r hr
        apply hc.kept
        apply ResponseCache.put_settled
        rcases List.mem_append.mp hr with hr | hr
        · exact .inl (h.settled r hr)
        · exact .inr (List.mem_singleton.mp hr)

end RequestService

end Skyext
