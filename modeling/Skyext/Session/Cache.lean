import Skyext.Session.Io

namespace Skyext
set_option autoImplicit true

namespace SessionIo

variable {conf : SessionConf} {io io' : SessionIo}

theorem forget_cache (io : SessionIo) (seq : Nat) :
    (io.forget seq).respCache = io.respCache ∧
    (io.forget seq).minCachedReqId = io.minCachedReqId := by
  rw [forget]
  split <;> exact ⟨rfl, rfl⟩

theorem trim_cache (io : SessionIo) (n : Nat) :
    (io.trim n).respCache = io.respCache ∧ (io.trim n).minCachedReqId = io.minCachedReqId := by
  induction n generalizing io with
  | zero => exact ⟨rfl, rfl⟩
  | succ n ih =>
    obtain ⟨hc, hm⟩ := ih { (io.forget (io.acked + 1)) with acked := io.acked + 1 }
    obtain ⟨hc', hm'⟩ := io.forget_cache (io.acked + 1)
    exact ⟨hc.trans hc', hm.trans hm'⟩

theorem ack_cache (io : SessionIo) (recv : Option Int) :
    (io.ack recv).respCache = io.respCache ∧ (io.ack recv).minCachedReqId = io.minCachedReqId := by
  rw [ack]
  split
  · exact ⟨rfl, rfl⟩
  · exact io.trim_cache _

theorem resumed_cache (io : SessionIo) (recv : Option Int) (nonce : Nonce) (now : Nat) :
    (io.resumed recv nonce now).respCache = io.respCache ∧
    (io.resumed recv nonce now).minCachedReqId = io.minCachedReqId :=
  ack_cache { io with replaying := true } recv

theorem record_cache (conf : SessionConf) (io : SessionIo) (pack : Pack) :
    (io.record conf pack).respCache = io.respCache ∧
    (io.record conf pack).minCachedReqId = io.minCachedReqId := by
  rw [record]
  split <;> exact ⟨rfl, rfl⟩

structure SameHead (io io' : SessionIo) : Prop where
  nonce : io'.nonce = io.nonce
  replaying : io'.replaying = io.replaying

theorem SameHead.record (conf : SessionConf) (io : SessionIo) (pack : Pack) :
    SameHead io (io.record conf pack) := by
  rw [SessionIo.record]
  split <;> exact ⟨rfl, rfl⟩

theorem SameHead.forget (io : SessionIo) (seq : Nat) : SameHead io (io.forget seq) := by
  rw [SessionIo.forget]
  split <;> exact ⟨rfl, rfl⟩

theorem SameHead.trim (io : SessionIo) (n : Nat) : SameHead io (io.trim n) := by
  induction n generalizing io with
  | zero => exact ⟨rfl, rfl⟩
  | succ n ih =>
    obtain ⟨hn, hr⟩ := ih { (io.forget (io.acked + 1)) with acked := io.acked + 1 }
    have hf := SameHead.forget io (io.acked + 1)
    exact ⟨hn.trans hf.nonce, hr.trans hf.replaying⟩

theorem SameHead.ack (io : SessionIo) (recv : Option Int) : SameHead io (io.ack recv) := by
  rw [SessionIo.ack]
  split
  · exact ⟨rfl, rfl⟩
  · exact .trim io _

theorem SameHead.shrinkCache (conf : SessionConf) (n : Nat) (io : SessionIo) :
    SameHead io (SessionIo.shrinkCache conf n io).1 := by
  induction n generalizing io with
  | zero => exact ⟨rfl, rfl⟩
  | succ n ih =>
    rw [SessionIo.shrinkCache]
    split
    · split
      · next io' he =>
        rw [evictOldestResponse] at he
        split at he
        · cases he
        · obtain ⟨entry, _, rfl⟩ := Option.map_eq_some_iff.mp he
          obtain ⟨hn, hr⟩ := ih _
          exact ⟨hn, hr⟩
      · exact ⟨rfl, rfl⟩
    · exact ⟨rfl, rfl⟩

theorem SameHead.cacheResponse (conf : SessionConf) (io : SessionIo) (reqId : Nat) (pack : Pack)
    (name : Proto) : SameHead io (io.cacheResponse conf reqId pack name).1 := by
  obtain ⟨hn, hr⟩ := SameHead.shrinkCache conf (io.respOrder ++ [reqId]).length
    { io with
      respOrder := io.respOrder ++ [reqId]
      respCache := Function.update io.respCache reqId (some ⟨pack, name⟩)
      respBytes := io.respBytes + pack.size }
  exact ⟨hn, hr⟩

/-- The id is still answered without running its handler: from the cache, or by a refusal. -/
def Settled (io : SessionIo) (reqId : Nat) : Prop :=
  io.respCache reqId ≠ none ∨ reqId < io.minCachedReqId

theorem lookup_miss (h : io.lookup reqId name = .miss) : ¬ io.Settled reqId := by
  rw [lookup] at h
  split at h
  · split at h <;> cases h
  · next hc =>
    split at h
    · cases h
    · next hm =>
      rintro (hs | hs)
      · exact hs hc
      · exact hm hs

theorem lookup_hit (h : io.lookup reqId name = .hit pack) :
    ∃ entry, io.respCache reqId = some entry ∧ entry.pack = pack ∧ entry.name = name := by
  rw [lookup] at h
  split at h
  · next entry hc =>
    split at h
    · cases h
    · next hn =>
      cases h
      exact ⟨entry, hc, rfl, not_not.mp hn⟩
  · split at h <;> cases h

/-- What is evicted stays settled: its id falls below the refused ones. -/
theorem evictOldestResponse_spec (h : io.evictOldestResponse = some io') :
    (∀ r e, io'.respCache r = some e → io.respCache r = some e) ∧
    ∀ r, io.Settled r → io'.Settled r := by
  rw [evictOldestResponse] at h
  split at h
  · cases h
  · next reqId order _ =>
    obtain ⟨entry, he, rfl⟩ := Option.map_eq_some_iff.mp h
    constructor
    · intro r e hr
      by_cases hrr : r = reqId
      · subst hrr
        simp only [Function.update_self] at hr
        cases hr
      · simpa only [Function.update_of_ne hrr] using hr
    · intro r hr
      by_cases hrr : r = reqId
      · subst hrr
        refine .inr ?_
        simp only
        split <;> omega
      · rcases hr with hr | hr
        · refine .inl ?_
          simpa only [Function.update_of_ne hrr] using hr
        · refine .inr ?_
          simp only
          split <;> omega

theorem shrinkCache_spec (conf : SessionConf) (n : Nat) (io : SessionIo) :
    (∀ r e, (shrinkCache conf n io).1.respCache r = some e → io.respCache r = some e) ∧
    ∀ r, io.Settled r → (shrinkCache conf n io).1.Settled r := by
  induction n generalizing io with
  | zero => exact ⟨fun _ _ h => h, fun _ h => h⟩
  | succ n ih =>
    rw [shrinkCache]
    split
    · split
      · next io' he =>
        obtain ⟨hc, hs⟩ := evictOldestResponse_spec he
        exact ⟨fun r e h => hc r e ((ih io').1 r e h), fun r h => (ih io').2 r (hs r h)⟩
      · exact ⟨fun _ _ h => h, fun _ h => h⟩
    · exact ⟨fun _ _ h => h, fun _ h => h⟩

theorem cacheResponse_spec (conf : SessionConf) (io : SessionIo) (reqId : Nat) (pack : Pack)
    (name : Proto) :
    (∀ r e, (io.cacheResponse conf reqId pack name).1.respCache r = some e →
      io.respCache r = some e ∨ (r = reqId ∧ e = ⟨pack, name⟩)) ∧
    ∀ r, io.Settled r ∨ r = reqId → (io.cacheResponse conf reqId pack name).1.Settled r := by
  obtain ⟨hc, hs⟩ := shrinkCache_spec conf (io.respOrder ++ [reqId]).length
    { io with
      respOrder := io.respOrder ++ [reqId]
      respCache := Function.update io.respCache reqId (some ⟨pack, name⟩)
      respBytes := io.respBytes + pack.size }
  constructor
  · intro r e h
    have h := hc r e h
    by_cases hr : r = reqId
    · subst hr
      simp only [Function.update_self] at h
      cases h
      exact .inr ⟨rfl, rfl⟩
    · exact .inl (by simpa only [Function.update_of_ne hr] using h)
  · intro r h
    refine hs r ?_
    by_cases hr : r = reqId
    · subst hr
      refine .inl ?_
      simp only [Function.update_self]
      rintro ⟨⟩
    · refine (h.resolve_right hr).imp (fun h => ?_) id
      simpa only [Function.update_of_ne hr] using h

end SessionIo

end Skyext
