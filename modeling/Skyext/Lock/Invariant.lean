import Skyext.Lock.Cluster

namespace Skyext
set_option autoImplicit true

namespace LockModule

/-- Everything the lock module does short of installing a handle: objects keep their fence
and epoch, and the lease and the table entry are kept or forgotten. -/
structure Shrinks (m m' : LockModule) : Prop where
  length : m'.handles.length = m.handles.length
  handle : ∀ (h : Nat) (x' : LockHandle), m'.handles[h]? = some x' →
    ∃ x, m.handles[h]? = some x ∧ x'.fence = x.fence ∧ x'.epoch = x.epoch
  locks : m'.gLocks = m.gLocks ∨ m'.gLocks = none
  lease : m'.lease = m.lease ∨ m'.lease.leaseid = none ∧ m'.lease.epoch = m.lease.epoch

theorem Shrinks.refl (m : LockModule) : Shrinks m m :=
  ⟨rfl, fun _ x hx => ⟨x, hx, rfl, rfl⟩, .inl rfl, .inl rfl⟩

theorem Shrinks.trans (h : Shrinks m m') (h' : Shrinks m' m'') : Shrinks m m'' where
  length := h'.length.trans h.length
  handle i x'' hx := by
    obtain ⟨x', hx', hf', he'⟩ := h'.handle i x'' hx
    obtain ⟨x, hx, hf, he⟩ := h.handle i x' hx'
    exact ⟨x, hx, hf'.trans hf, he'.trans he⟩
  locks := by
    rcases h'.locks with he | he
    · rw [he]
      exact h.locks
    · exact .inr he
  lease := by
    rcases h'.lease with he | ⟨hn, he⟩
    · rw [he]
      exact h.lease
    · rcases h.lease with hl | ⟨_, hl⟩
      · exact .inr ⟨hn, by rw [he, hl]⟩
      · exact .inr ⟨hn, he.trans hl⟩

theorem setInvalid_shrinks (m : LockModule) (h : Nat) : Shrinks m (m.setInvalid h) where
  length := by simp [setInvalid]
  handle i x' hx := by
    simp only [setInvalid, List.getElem?_modify, Option.map_eq_map, Option.map_eq_some_iff] at hx
    obtain ⟨x, hx, he⟩ := hx
    refine ⟨x, hx, ?_⟩
    subst he
    split <;> exact ⟨rfl, rfl⟩
  locks := .inl rfl
  lease := .inl rfl

theorem drop_shrinks (m : LockModule) (h : Nat) : Shrinks m (m.drop h) :=
  (m.setInvalid_shrinks h).trans ⟨rfl, fun _ x hx => ⟨x, hx, rfl, rfl⟩, .inr rfl, .inl rfl⟩

theorem invalidateAll_shrinks (m : LockModule) : Shrinks m m.invalidateAll := by
  unfold invalidateAll
  split
  · exact .refl m
  · exact m.drop_shrinks _

theorem clear_shrinks (m : LockModule) : Shrinks m m.clear := by
  unfold clear
  split
  · exact .refl m
  · have hforget : Shrinks m { m with lease := ⟨none, m.lease.epoch, false⟩ } :=
      ⟨rfl, fun _ x hx => ⟨x, hx, rfl, rfl⟩, .inl rfl, .inr ⟨rfl, rfl⟩⟩
    exact hforget.trans (invalidateAll_shrinks _)

theorem checkLease_shrinks (m : LockModule) : Shrinks m m.checkLease := by
  unfold checkLease
  split
  · exact m.clear_shrinks
  · exact .refl m

theorem checkHandle_shrinks (m : LockModule) (h : Nat) : Shrinks m (m.checkHandle h) := by
  unfold checkHandle
  split
  · exact .refl m
  · split
    · exact m.checkLease_shrinks
    · exact .refl m

theorem onLeaseLost_shrinks (m : LockModule) (epoch : Nat) : Shrinks m (m.onLeaseLost epoch) := by
  unfold onLeaseLost
  split
  · exact .refl m
  · exact m.clear_shrinks

/-- A handle answered valid is the one in the table, made in the current epoch of a live lease. -/
theorem isValid_spec (hv : isValid m h = true) : ∃ x, m.handles[h]? = some x ∧
    m.leaseValid = true ∧ x.epoch = m.lease.epoch ∧ m.gLocks = some h := by
  unfold isValid at hv
  split at hv
  · cases hv
  · rename_i x hx
    simp only [Bool.and_eq_true, decide_eq_true_eq, beq_iff_eq] at hv
    exact ⟨x, hx, hv.1.1.2, hv.1.2, hv.2⟩

theorem leaseValid_spec (hv : leaseValid m = true) :
    ∃ l, m.lease.leaseid = some l ∧ m.lease.elapsed = false := by
  simp only [leaseValid, Bool.and_eq_true, Bool.not_eq_true'] at hv
  obtain ⟨l, hl⟩ := Option.isSome_iff_exists.mp hv.1
  exact ⟨l, hl, hv.2⟩

theorem checkHandle_valid (hv : isValid m h = true) : m.checkHandle h = m := by
  obtain ⟨x, hx, hl, _, _⟩ := isValid_spec hv
  obtain ⟨_, _, he⟩ := leaseValid_spec hl
  have hc : m.checkLease = m := by simp [checkLease, he]
  simp only [checkHandle, hx, hc, ite_self]

theorem tryLockStart_cases (m : LockModule) (value : String) :
    Shrinks m (m.tryLockStart value).1 ∧
      ∀ c, (m.tryLockStart value).2 = .inr c →
        m.lease.leaseid = some c.leaseid ∧ c.epoch = m.lease.epoch := by
  unfold tryLockStart
  split
  · exact ⟨.refl m, by simp⟩
  · split
    · exact ⟨.refl m, by simp⟩
    · split
      · exact ⟨.refl m, by simp⟩
      · rename_i l hl
        split
        · refine ⟨.refl m, fun c hc => ?_⟩
          cases hc
          exact ⟨hl, rfl⟩
        · exact ⟨m.checkLease_shrinks, by simp⟩

/-- A reply either leaves a table without new handles, or the branch that installs one ran. -/
theorem tryLockReply_cases (m : LockModule) (c : TryLockCall) (ret : Option TxnReply) :
    Shrinks m (m.tryLockReply c ret).1 ∨
      ∃ r f, ret = some r ∧ m.leaseValid = true ∧ c.epoch = m.lease.epoch ∧
        m.existingValid = none ∧ grantedRevision c r = .ok f ∧
        (m.tryLockReply c ret).1 = m.install c f := by
  unfold tryLockReply
  split
  · exact .inl (.refl m)
  · rename_i r
    split
    · exact .inl m.checkLease_shrinks
    · rename_i hl
      simp only [Bool.or_eq_true, Bool.not_eq_true', decide_eq_true_eq, not_or,
        Bool.not_eq_false, not_not] at hl
      split
      · exact .inl (.refl m)
      · rename_i he
        split
        · exact .inl (.refl m)
        · rename_i f hf
          exact .inr ⟨r, f, rfl, hl.1, hl.2, he, hf, rfl⟩

theorem unlockStart_cases (m : LockModule) (h : Nat) :
    Shrinks m (m.unlockStart h).1 ∧
      ∀ f, (m.unlockStart h).2 = .inr f →
        ∃ x, m.handles[h]? = some x ∧ x.fence = f ∧ m.gLocks = some h ∧
          (m.unlockStart h).1 = m := by
  unfold unlockStart
  split
  · rename_i hv
    obtain ⟨x, hx, _, _, hg⟩ := isValid_spec hv
    refine ⟨.refl m, fun f hf => ⟨x, hx, ?_, hg, rfl⟩⟩
    cases hf
    simp [hx]
  · exact ⟨m.checkHandle_shrinks h, by simp⟩

theorem unlockReply_shrinks (m : LockModule) (h : Nat) (ret : Option TxnReply) :
    Shrinks m (m.unlockReply h ret).1 := by
  unfold unlockReply
  split
  · dsimp only
    split
    · exact m.drop_shrinks h
    · exact .refl m
  · split
    · exact m.drop_shrinks h
    · dsimp only
      split
      · exact m.checkHandle_shrinks h
      · exact .refl m

theorem grantedRevision_spec (h : grantedRevision c r = .ok f) :
    (r.succeeded = true ∧ r.revision = some f) ∨
      ∃ k, r.succeeded = false ∧ r.kv = some k ∧ k.lease = c.leaseid ∧ k.createRevision = f := by
  unfold grantedRevision at h
  split at h
  · split at h
    · cases h
      exact .inl ⟨‹_›, ‹_›⟩
    · cases h
  · split at h
    · split at h
      · cases h
        exact .inr ⟨_, Bool.eq_false_iff.mpr ‹_›, ‹_›, ‹_›, rfl⟩
      · cases h
    · cases h

end LockModule

end Skyext
