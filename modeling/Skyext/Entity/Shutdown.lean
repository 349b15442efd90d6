import Skyext.Entity.Kept

namespace Skyext
set_option autoImplicit true

open Machine
open LockModule (TryLockCall LockResult)

variable {s t : Entitymgr} {e : MgrEntity} {init : Option (GateJob × Refusal)} {job : GateJob}

namespace LockModule

/-- No handle is in the table, and the module is closed. -/
structure Shut (m : LockModule) : Prop where
  locks : m.gLocks = none
  closed : m.gClosed = true

theorem Shut.invalid (hm : Shut m) (h : Nat) : m.isValid h = false := by
  unfold isValid
  split
  · rfl
  · simp [hm.locks]

theorem Shut.existing (hm : Shut m) : m.existingValid = none := by
  simp [existingValid, hm.locks]

theorem Shut.clear (hm : Shut m) : Shut m.clear := by
  unfold LockModule.clear
  split
  · exact hm
  · simp only [invalidateAll, hm.locks]
    exact ⟨rfl, hm.closed⟩

theorem Shut.checkLease (hm : Shut m) : Shut m.checkLease := by
  unfold LockModule.checkLease
  split
  · exact hm.clear
  · exact hm

theorem Shut.checkHandle (hm : Shut m) (h : Nat) : Shut (m.checkHandle h) := by
  unfold LockModule.checkHandle
  split
  · exact hm
  · split
    · exact hm.checkLease
    · exact hm

theorem Shut.onLeaseAlive (hm : Shut m) (l : LeaseId) (epoch : Nat) (late : Bool) :
    Shut (m.onLeaseAlive l epoch late) := by
  unfold LockModule.onLeaseAlive
  dsimp only
  split
  · exact ⟨hm.clear.locks, hm.clear.closed⟩
  · exact ⟨hm.locks, hm.closed⟩

theorem Shut.onLeaseLost (hm : Shut m) (epoch : Nat) : Shut (m.onLeaseLost epoch) := by
  unfold LockModule.onLeaseLost
  split
  · exact hm
  · exact hm.clear

theorem Shut.unlockReply (hm : Shut m) (h : Nat) (ret : Option TxnReply) :
    Shut (m.unlockReply h ret).1 := by
  unfold LockModule.unlockReply
  split
  · simpa [hm.locks] using hm
  · simpa [hm.invalid h, hm.locks] using hm

theorem shutdown_shut (m : LockModule) : Shut m.shutdown := by
  refine ⟨?_, rfl⟩
  unfold shutdown invalidateAll
  split
  · assumption
  · rfl

/-- Whether a reply hands out a new lock, with the lease the acquisition began under. -/
def grants (m : LockModule) (c : TryLockCall) (r : TxnReply) : Bool :=
  m.leaseValid && decide (c.epoch = m.lease.epoch) && (grantedRevision c r).isOk

theorem grantedRevision_error {e : LockResult} (he : grantedRevision c r = .error e) (h : Nat) :
    e ≠ .locked h := by
  rintro rfl
  unfold grantedRevision at he
  split at he
  · split at he <;> cases he
  · split at he
    · split at he <;> cases he
    · cases he

/-- A closed module gets a lock only through an acquisition that began before. -/
theorem Shut.tryLockReply (hm : Shut m) {c : TryLockCall} {ret : Option TxnReply}
    (hn : ∀ r, ret = some r → m.grants c r = false) :
    Shut (m.tryLockReply c ret).1 ∧ ∀ h, (m.tryLockReply c ret).2 ≠ .locked h := by
  unfold LockModule.tryLockReply
  split
  · exact ⟨hm, by rintro _ ⟨⟩⟩
  · next r =>
    split
    · exact ⟨hm.checkLease, by rintro _ ⟨⟩⟩
    · next hl =>
      simp only [hm.existing]
      split
      · next hf => exact ⟨hm, grantedRevision_error hf⟩
      · next f hf =>
        have hg := hn r rfl
        simp only [Bool.or_eq_true, Bool.not_eq_true', decide_eq_true_eq, not_or,
          Bool.not_eq_false, not_not] at hl
        simp [grants, hl.1, hl.2, hf, Except.isOk, Except.toBool] at hg

end LockModule

namespace Entitymgr

/-- The service has been shut down: nothing in memory, no lock, and nothing is loaded any more. -/
structure Shut (s : Entitymgr) : Prop where
  entity : s.entity = none
  lock : s.lock.Shut
  closing : s.closing = true

theorem lockMoved_none (he : s.entity = none) (m : LockModule) :
    s.lockMoved m = { s with lock := m } := by
  have hx : ∀ n, { s with lock := m }.onLockExpired n = { s with lock := m } := by
    intro n
    simp [onLockExpired, he]
  unfold lockMoved
  dsimp only
  split
  · split
    · exact hx _
    · rfl
  · rfl

theorem Shut.lockMoved (h : s.Shut) {m : LockModule} (hm : m.Shut) : (s.lockMoved m).Shut := by
  rw [lockMoved_none h.entity]
  exact ⟨h.entity, hm, h.closing⟩

theorem Shut.isValid (h : s.Shut) (n : Nat) : (s.isValid n).1.Shut ∧ (s.isValid n).2 = false :=
  ⟨h.lockMoved (h.lock.checkHandle n), h.lock.invalid n⟩

theorem Shut.finish (h : s.Shut) (init : Option (GateJob × Refusal)) : (s.finish init).Shut := by
  unfold Entitymgr.finish
  split
  · exact ⟨h.entity, h.lock, h.closing⟩
  · exact ⟨h.entity, h.lock, h.closing⟩

theorem Shut.answer (h : s.Shut) (job : GateJob) (r : Option Refusal) : (s.answer job r).Shut :=
  ⟨h.entity, h.lock, h.closing⟩

theorem Shut.suspend (h : s.Shut) (pc : GatePc) : (s.suspend pc).Shut :=
  ⟨h.entity, h.lock, h.closing⟩

theorem Shut.setEntity (h : s.Shut) (f : MgrEntity → MgrEntity) : (s.setEntity f).Shut :=
  ⟨by simp [Entitymgr.setEntity, h.entity], h.lock, h.closing⟩

theorem Shut.unloadEntity (h : s.Shut) (init : Option (GateJob × Refusal)) :
    (s.unloadEntity init).Shut := by
  rw [Entitymgr.unloadEntity, h.entity]
  exact h.finish init

theorem Shut.loadFailed (h : s.Shut) (job : GateJob) (n : Nat) (r : Refusal) :
    (s.loadFailed job n r).Shut := by
  unfold Entitymgr.loadFailed
  simp only [(h.isValid n).2, Bool.not_false, if_true]
  exact (h.isValid n).1.answer job _

theorem Shut.start (h : s.Shut) (job : GateJob) (value : String) : (s.start value job).Shut := by
  unfold Entitymgr.start
  split
  · exact h.unloadEntity none
  · rw [h.entity]
    exact h.answer _ _
  · rw [Entitymgr.ensureLoaded, h.entity]
    simp only [h.closing, if_true]
    exact h.answer _ _

/-- The reply to an acquisition that was under way at the shutdown grants the lock. -/
def grantedLate (s : Entitymgr) : MgrAction → Bool
  | .reply (some r) =>
    match s.running with
    | some (.locking _ c) => s.down && s.lock.grants c r
    | _ => false
  | _ => false

theorem Shut.locked (h : s.Shut) (hd : s.down = true) {c : TryLockCall} {ret : Option TxnReply}
    (hr : s.running = some (.locking job c)) (hok : s.grantedLate (.reply ret) = false) :
    (s.locked job c ret).Shut := by
  have hn : ∀ r, ret = some r → s.lock.grants c r = false := by
    rintro r rfl
    simpa [grantedLate, hr, hd] using hok
  obtain ⟨hm, hl⟩ := h.lock.tryLockReply hn
  unfold Entitymgr.locked
  split
  · next m n he =>
    rw [he] at hl
    exact absurd rfl (hl n)
  · next m r owner he =>
    rw [he] at hm
    exact (h.lockMoved hm).answer job _

theorem Shut.dbLoaded (h : s.Shut) (job : GateJob) (n : Nat) (err : Option String) :
    (s.dbLoaded job n err).Shut := by
  unfold Entitymgr.dbLoaded
  split
  · exact h.loadFailed job n _
  · simp only [(h.isValid n).2, Bool.false_eq_true, if_false]
    exact (h.isValid n).1.suspend _

theorem Shut.initialized (h : s.Shut) (job : GateJob) (n : Nat) (err : Option String) :
    (s.initialized job n err).Shut := by
  unfold Entitymgr.initialized
  dsimp only
  split
  · exact (h.setEntity _).unloadEntity _
  · simp only [(h.isValid n).2, Bool.false_eq_true, if_false]
    exact ((h.isValid n).1.setEntity _).unloadEntity _

theorem Shut.frame (h : s.Shut) (he : t.entity = s.entity) (hl : t.lock = s.lock)
    (hc : t.closing = s.closing) : t.Shut :=
  ⟨he.trans h.entity, hl ▸ h.lock, hc.trans h.closing⟩

theorem cacheLoad_lock (h : s.cacheLoad n = some t) : t.entity = s.entity ∧ t.lock = s.lock ∧
    t.closing = s.closing := by
  simp only [cacheLoad] at h
  split at h
  · cases h
    exact ⟨rfl, rfl, rfl⟩
  · split at h
    · cases h
      exact ⟨rfl, rfl, rfl⟩
    · split at h
      · cases h
      · cases h
        exact ⟨rfl, rfl, rfl⟩

/-- Once shut down, the service stays so unless an acquisition under way is granted late. -/
theorem Shut.step (h : s.Shut) (hd : s.down = true) (hk : s.Kept False)
    (hok : s.grantedLate a = false) (ht : s.step a = some t) : t.Shut := by
  have hkey : s.doc.key = none := congrArg (Option.map _) h.entity
  have hca : ¬ s.doc.Cached := by
    rintro ⟨n, hn, _⟩
    cases hkey.symm.trans hn
  have hpe : ¬ s.doc.Persisted := by
    rintro ⟨n, hn, _⟩
    cases hkey.symm.trans hn
  cases a with
  | call job =>
    cases ht
    exact ⟨h.entity, h.lock, h.closing⟩
  | start value =>
    simp only [Entitymgr.step] at ht
    split at ht
    · next job queue hr hq =>
      cases ht
      exact Shut.start (s := { s with queue := queue }) ⟨h.entity, h.lock, h.closing⟩ job value
    · cases ht
  | runForked i =>
    simp only [Entitymgr.step] at ht
    split at ht
    · cases ht
      exact ⟨h.entity, h.lock, h.closing⟩
    · cases ht
      exact (h.setEntity _).frame rfl rfl rfl
    · cases ht
  | retryTimer =>
    simp only [Entitymgr.step, h.entity] at ht
    cases ht
  | unloadTimer =>
    simp only [Entitymgr.step, h.entity] at ht
    cases ht
  | deliveryTimer =>
    simp only [Entitymgr.step, h.entity] at ht
    cases ht
  | scheduleDelivery =>
    simp only [Entitymgr.step, h.entity] at ht
    cases ht
  | bind =>
    simp only [Entitymgr.step] at ht
    split at ht
    · cases ht
      exact h.setEntity _
    · cases ht
  | change =>
    simp only [Entitymgr.step] at ht
    split at ht
    · cases ht
      exact ⟨h.entity, h.lock, h.closing⟩
    · cases ht
      exact ⟨h.entity, h.lock, h.closing⟩
    · cases ht
      exact ⟨h.entity, h.lock, h.closing⟩
    · cases ht
  | save k applied ok =>
    simp only [Entitymgr.step] at ht
    split at ht
    · simp only [saveDoc, Option.ite_none_right_eq_some, Option.some.injEq] at ht
      rw [← ht.2]
      exact ⟨h.entity, h.lock, h.closing⟩
    · cases ht
  | reply ret =>
    simp only [Entitymgr.step] at ht
    split at ht
    · next job c hr =>
      cases ht
      exact h.locked hd hr hok
    · next job n fence r hr =>
      cases ht
      refine Shut.answer ?_ job _
      unfold Entitymgr.unlockReply
      dsimp only
      split
      · exact ⟨h.entity, h.lock.unlockReply n ret, h.closing⟩
      · exact h.lockMoved (h.lock.unlockReply n ret)
    · next init c hr => exact absurd (hk.at hr) hca
    · next init n fence r hr =>
      have ha := hk.at hr
      cases r with
      | recovered => exact ha.elim
      | superseded =>
        obtain ⟨⟨m, hm⟩, _⟩ := ha
        cases hkey.symm.trans hm
      | cacheReplaced => exact ha.elim
      | failed reason => exact absurd ha hca
    · next init fence hr => exact absurd (hk.at hr) hpe
    · cases ht
  | dbLoad err =>
    simp only [Entitymgr.step] at ht
    split at ht
    · next job n hr =>
      split at ht
      · obtain ⟨u, hu, rfl⟩ := Option.map_eq_some_iff.mp ht
        obtain ⟨he, hl, hc⟩ := cacheLoad_lock hu
        exact (h.frame he hl hc).dbLoaded job n none
      · cases ht
        exact h.dbLoaded job n _
    · cases ht
  | discarded value =>
    simp only [Entitymgr.step, h.entity] at ht
    split at ht
    · next job n hr =>
      cases ht
      refine Shut.loadFailed ?_ job n _
      unfold discardClean
      split
      · exact ⟨h.entity, h.lock, h.closing⟩
      · exact h
    · next he => cases he
    · next he => cases he
    · next he => cases he
    · cases ht
  | hooks err =>
    simp only [Entitymgr.step] at ht
    split at ht
    · next job n hr =>
      cases ht
      exact h.initialized job n err
    · next init hr => exact absurd (hk.at hr) hca
    · cases ht
  | handler =>
    simp only [Entitymgr.step] at ht
    split at ht
    · next job hr =>
      cases ht
      rw [handled, h.entity]
      exact h.answer job none
    · cases ht
  | dbUnload k applied ok =>
    simp only [Entitymgr.step] at ht
    split at ht
    · next init hr => exact absurd (hk.at hr) hca
    · cases ht
  | dbRecover r applied =>
    simp only [Entitymgr.step, h.entity] at ht
    split at ht
    · next he => cases he
    · cases ht
  | deadline =>
    cases ht
    exact ⟨h.entity, ⟨h.lock.locks, h.lock.closed⟩, h.closing⟩
  | leaseAlive leaseid epoch late =>
    cases ht
    exact h.lockMoved (h.lock.onLeaseAlive leaseid epoch late)
  | leaseLost epoch =>
    cases ht
    exact h.lockMoved (h.lock.onLeaseLost epoch)
  | leaseCheck =>
    cases ht
    exact h.lockMoved h.lock.checkLease
  | shutdown =>
    cases ht
    have hn : ¬ s.entity.isSome = true := by simp [h.entity]
    rw [if_neg hn]
    exact ⟨h.entity, h.lock, rfl⟩
  | shutdownDone =>
    simp only [Entitymgr.step, Option.ite_none_right_eq_some] at ht
    cases ht.2
    exact ⟨h.entity, LockModule.shutdown_shut _, h.closing⟩

@[simp] theorem down_kickClient (s : Entitymgr) (reason : String) :
    (s.kickClient reason).down = s.down := by
  unfold kickClient
  split <;> rfl

@[simp] theorem down_onLockExpired (s : Entitymgr) (n : Nat) :
    (s.onLockExpired n).down = s.down := by
  unfold onLockExpired
  split
  · exact down_kickClient _ _
  · rfl

@[simp] theorem down_lockMoved (s : Entitymgr) (m : LockModule) :
    (s.lockMoved m).down = s.down := by
  unfold lockMoved
  dsimp only
  split
  · split
    · exact down_onLockExpired _ _
    · rfl
  · rfl

@[simp] theorem down_isValid (s : Entitymgr) (n : Nat) : (s.isValid n).1.down = s.down :=
  down_lockMoved s _

@[simp] theorem down_usable (s : Entitymgr) (e : MgrEntity) : (s.usable e).1.down = s.down := by
  unfold usable
  split
  · rfl
  · exact down_isValid s _

@[simp] theorem down_setEntity (s : Entitymgr) (f : MgrEntity → MgrEntity) :
    (s.setEntity f).down = s.down := rfl

@[simp] theorem down_fork (s : Entitymgr) (j : Forked) : (s.fork j).down = s.down := rfl

@[simp] theorem down_answer (s : Entitymgr) (job : GateJob) (r : Option Refusal) :
    (s.answer job r).down = s.down := rfl

@[simp] theorem down_suspend (s : Entitymgr) (pc : GatePc) : (s.suspend pc).down = s.down := rfl

@[simp] theorem down_unlockSend (s : Entitymgr) (fence : Nat) (pc : GatePc) :
    (s.unlockSend fence pc).down = s.down := rfl

@[simp] theorem down_retry (s : Entitymgr) : s.scheduleUnloadRetry.down = s.down := rfl

@[simp] theorem down_startUnloadTimer (s : Entitymgr) : s.startUnloadTimer.down = s.down := by
  unfold startUnloadTimer
  split <;> rfl

@[simp] theorem down_finish (s : Entitymgr) (init : Option (GateJob × Refusal)) :
    (s.finish init).down = s.down := by
  unfold finish
  split <;> rfl

@[simp] theorem down_forget (s : Entitymgr) (cause : EvictionCause) :
    (s.forget cause).down = s.down := by
  unfold forget
  split <;> rfl

@[simp] theorem down_abortUnload (s : Entitymgr) (init : Option (GateJob × Refusal))
    (reason : String) : (s.abortUnload init reason).down = s.down := by
  simp [abortUnload]

@[simp] theorem down_unlockReply (s : Entitymgr) (n : Nat) (ret : Option TxnReply) :
    (s.unlockReply n ret).1.down = s.down := by
  unfold unlockReply
  dsimp only
  split <;> simp

@[simp] theorem down_releaseLock (s : Entitymgr) (init : Option (GateJob × Refusal)) :
    (s.releaseLock init).down = s.down := by
  unfold releaseLock
  split
  · simp
  · dsimp only
    split
    · simp
    · split <;> simp

@[simp] theorem down_released (s : Entitymgr) (init : Option (GateJob × Refusal))
    (ret : Option TxnReply) : (s.released init ret).down = s.down := by
  unfold released
  split
  · simp
  · dsimp only
    split <;> simp

@[simp] theorem down_recoveryRefused (s : Entitymgr) (init : Option (GateJob × Refusal)) :
    (s.recoveryRefused init).down = s.down := by
  unfold recoveryRefused
  split
  · simp
  · split <;> simp

@[simp] theorem down_recoverDirty (s : Entitymgr) (init : Option (GateJob × Refusal))
    (value : String) : (s.recoverDirty init value).down = s.down := by
  unfold recoverDirty
  dsimp only
  split <;> simp

@[simp] theorem down_relocked (s : Entitymgr) (init : Option (GateJob × Refusal))
    (c : TryLockCall) (ret : Option TxnReply) : (s.relocked init c ret).down = s.down := by
  unfold relocked
  split <;> simp

@[simp] theorem down_recoveryFailed (s : Entitymgr) (init : Option (GateJob × Refusal))
    (r : RecoverResult) : (s.recoveryFailed init r).down = s.down := by
  unfold recoveryFailed
  split
  · simp
  · simp
  · split
    · simp
    · split <;> simp

@[simp] theorem down_recovered (s : Entitymgr) (init : Option (GateJob × Refusal)) (n : Nat)
    (r : RecoverResult) : (s.recovered init n r).down = s.down := by
  unfold recovered
  split
  · simp
  · split <;> simp

@[simp] theorem down_unloadEntity (s : Entitymgr) (init : Option (GateJob × Refusal)) :
    (s.unloadEntity init).down = s.down := by
  unfold unloadEntity
  split
  · simp
  · dsimp only
    split
    · simp
    · split
      · simp
      · split <;> simp

@[simp] theorem down_loadFailed (s : Entitymgr) (job : GateJob) (n : Nat) (r : Refusal) :
    (s.loadFailed job n r).down = s.down := by
  unfold loadFailed
  dsimp only
  split
  · simp
  · split <;> simp

@[simp] theorem down_loaded (s : Entitymgr) (job : GateJob) : (s.loaded job).down = s.down := by
  unfold loaded
  split <;> rfl

@[simp] theorem down_ensureLoaded (s : Entitymgr) (job : GateJob) (value : String) :
    (s.ensureLoaded job value).down = s.down := by
  unfold ensureLoaded
  split
  · dsimp only
    split
    · simp
    · split
      · simp
      · split <;> simp
  · split
    · simp
    · split <;> simp

@[simp] theorem down_locked (s : Entitymgr) (job : GateJob) (c : TryLockCall)
    (ret : Option TxnReply) : (s.locked job c ret).down = s.down := by
  unfold locked
  split <;> simp

@[simp] theorem down_dbLoaded (s : Entitymgr) (job : GateJob) (n : Nat) (err : Option String) :
    (s.dbLoaded job n err).down = s.down := by
  unfold dbLoaded
  split
  · simp
  · dsimp only
    split
    · exact down_isValid s n
    · simp

@[simp] theorem down_initialized (s : Entitymgr) (job : GateJob) (n : Nat)
    (err : Option String) : (s.initialized job n err).down = s.down := by
  unfold initialized
  dsimp only
  split
  · simp
  · split <;> simp

@[simp] theorem down_handled (s : Entitymgr) (job : GateJob) : (s.handled job).down = s.down := by
  unfold handled
  split
  · simp
  · next e he =>
    have hd : (if job = .withEntity then s.usable e else s.isValid e.handle).1.down = s.down := by
      split <;> simp
    generalize (if job = .withEntity then s.usable e else s.isValid e.handle) = p at hd ⊢
    obtain ⟨t, ok⟩ := p
    dsimp only at hd ⊢
    split <;> simp [hd]

@[simp] theorem down_start (s : Entitymgr) (job : GateJob) (value : String) :
    (s.start value job).down = s.down := by
  unfold start
  split
  · simp
  · split
    · split
      · simp
      · dsimp only
        split <;> simp
    · simp
  · simp

theorem down_cacheLoad (h : s.cacheLoad n = some t) : t.down = s.down := by
  simp only [cacheLoad] at h
  split at h
  · cases h
    rfl
  · split at h
    · cases h
      rfl
    · split at h
      · cases h
      · cases h
        rfl

theorem down_saveDoc {k : Nat} {applied ok : Bool} (h : s.saveDoc n k applied ok = some t) :
    t.down = s.down := by
  simp only [saveDoc, Option.ite_none_right_eq_some, Option.some.injEq] at h
  rw [← h.2]

@[simp] theorem down_discardClean (s : Entitymgr) (n : Nat) :
    (s.discardClean n).1.down = s.down := by
  unfold discardClean
  split <;> rfl

@[simp] theorem down_quarantine (s : Entitymgr) (n : Nat) : (s.quarantine n).down = s.down := by
  unfold quarantine
  split <;> rfl

@[simp] theorem down_discard (s : Entitymgr) (n : Nat) : (s.discard n).down = s.down := by
  unfold discard
  split <;> rfl

theorem down_cacheUnload {k : Nat} {applied ok : Bool} {p : Entitymgr × Bool}
    (h : s.cacheUnload k applied ok = some p) : p.1.down = s.down := by
  simp only [cacheUnload] at h
  split at h
  · cases h
    rfl
  · obtain ⟨u, hu, rfl⟩ := Option.map_eq_some_iff.mp h
    have hd : u.down = s.down := down_saveDoc hu
    split
    · exact hd
    · exact hd

theorem down_cacheRecover {old new : Nat} {r : RecoverResult} {applied : Bool}
    {p : Entitymgr × RecoverResult} (h : s.cacheRecover old new r applied = some p) :
    p.1.down = s.down := by
  simp only [cacheRecover] at h
  split at h
  · cases h
    rfl
  · split at h
    · cases h
      rfl
    · split at h
      · obtain ⟨_, h⟩ := Option.ite_none_right_eq_some.mp h
        cases h
        rfl
      · cases h
        rfl
      · cases h
        rfl
      · cases h

theorem down_step (ht : s.step a = some t) (ha : a ≠ .shutdownDone) : t.down = s.down := by
  cases a with
  | shutdownDone => exact absurd rfl ha
  | call job =>
    cases ht
    rfl
  | start value =>
    simp only [Entitymgr.step] at ht
    split at ht
    · cases ht
      exact down_start _ _ _
    · cases ht
  | runForked i =>
    simp only [Entitymgr.step] at ht
    split at ht <;> cases ht <;> rfl
  | retryTimer =>
    simp only [Entitymgr.step, Option.ite_none_right_eq_some] at ht
    cases ht.2
    rfl
  | unloadTimer =>
    simp only [Entitymgr.step, Option.ite_none_right_eq_some] at ht
    cases ht.2
    rfl
  | deliveryTimer =>
    simp only [Entitymgr.step, Option.ite_none_right_eq_some] at ht
    cases ht.2
    rfl
  | scheduleDelivery =>
    simp only [Entitymgr.step, Option.ite_none_right_eq_some] at ht
    cases ht.2
    rfl
  | bind =>
    simp only [Entitymgr.step] at ht
    split at ht <;> cases ht
    rfl
  | change =>
    simp only [Entitymgr.step] at ht
    split at ht <;> cases ht <;> rfl
  | save k applied ok =>
    simp only [Entitymgr.step] at ht
    split at ht
    · exact down_saveDoc ht
    · cases ht
  | reply ret =>
    simp only [Entitymgr.step] at ht
    split at ht <;> cases ht <;> simp
  | dbLoad err =>
    simp only [Entitymgr.step] at ht
    split at ht
    · split at ht
      · obtain ⟨u, hu, rfl⟩ := Option.map_eq_some_iff.mp ht
        exact (down_dbLoaded u _ _ _).trans (down_cacheLoad hu)
      · cases ht
        exact down_dbLoaded s _ _ _
    · cases ht
  | discarded value =>
    simp only [Entitymgr.step] at ht
    split at ht
    · cases ht
      simp
    · split at ht <;> cases ht <;> simp
    · cases ht
      simp
    · cases ht
      simp
    · cases ht
  | hooks err =>
    simp only [Entitymgr.step] at ht
    split at ht
    · cases ht
      simp
    · split at ht <;> cases ht <;> simp
    · cases ht
  | handler =>
    simp only [Entitymgr.step] at ht
    split at ht <;> cases ht
    exact down_handled _ _
  | dbUnload k applied ok =>
    simp only [Entitymgr.step] at ht
    split at ht
    · obtain ⟨p, hp, rfl⟩ := Option.map_eq_some_iff.mp ht
      split
      · exact (down_releaseLock _ _).trans (down_cacheUnload hp)
      · exact (down_abortUnload _ _ _).trans (down_cacheUnload hp)
    · cases ht
  | dbRecover r applied =>
    simp only [Entitymgr.step] at ht
    split at ht
    · obtain ⟨p, hp, rfl⟩ := Option.map_eq_some_iff.mp ht
      exact (down_recovered _ _ _ _).trans (down_cacheRecover hp)
    · cases ht
  | deadline =>
    cases ht
    rfl
  | leaseAlive leaseid epoch late =>
    cases ht
    exact down_lockMoved _ _
  | leaseLost epoch =>
    cases ht
    exact down_lockMoved _ _
  | leaseCheck =>
    cases ht
    exact down_lockMoved _ _
  | shutdown =>
    cases ht
    split <;> rfl

/-- Steps in which no acquisition is granted after the shutdown. -/
def neverGrantedLate (s : Entitymgr) (a : MgrAction) : Prop := s.grantedLate a = false

instance (s : Entitymgr) (a : MgrAction) : Decidable (neverGrantedLate s a) :=
  inferInstanceAs (Decidable (_ = _))

theorem shut_reaches (h : system.Reaches neverGrantedLate s) : s.down = true → s.Shut := by
  induction h with
  | init hs =>
    obtain ⟨resident, rfl⟩ := hs
    rintro ⟨⟩
  | @step s a t hr hok ht ih =>
    intro hd
    by_cases ha : a = .shutdownDone
    · subst ha
      simp only [system, Entitymgr.step, Option.ite_none_right_eq_some] at ht
      obtain ⟨⟨hc, he⟩, ht⟩ := ht
      cases ht
      exact ⟨he, LockModule.shutdown_shut _, hc⟩
    · have hds : s.down = true := (down_step ht ha).symm.trans hd
      exact (ih hds).step hds (kept_reaches hr (by rintro ⟨⟩)) hok ht

/-- The service holds nothing once its shutdown has returned 0, and no change was lost but in
the cases where the log says so. -/
structure LeavesNothing (s : Entitymgr) : Prop where
  entity : s.down = true → s.entity = none
  locks : s.down = true → ∀ h, s.lock.isValid h = false
  saved : ∀ x ∈ s.evicted, x.cause = .superseded ∨ x.cause = .gaveUp ∨ x.stored = x.changes

theorem leaves_nothing (h : system.Reaches neverGrantedLate s) : s.LeavesNothing := by
  have hk : s.Kept False := kept_reaches h (by rintro ⟨⟩)
  have hs := shut_reaches h
  refine ⟨fun hd => (hs hd).entity, fun hd => (hs hd).lock.invalid, fun x hx => ?_⟩
  rcases (hk.1.evicted x hx).2 with hl | hst
  · cases hc : x.cause with
    | superseded => exact .inl rfl
    | gaveUp => exact .inr (.inl rfl)
    | _ =>
      rw [hc] at hl
      cases hl
  · exact .inr (.inr hst)

/-- A changed entity is saved and its lock released before the shutdown returns 0. -/
def shutDownClean : Entitymgr :=
  system.run neverGrantedLate (fresh false)
    [.leaseAlive ⟨0, 1⟩ 1 false, .call .withEntity, .start "a", .reply (some ⟨true, some 5, none⟩),
      .dbLoad none, .hooks none, .change, .handler, .shutdown, .runForked 1, .start "a",
      .hooks none, .dbUnload 1 true true, .reply (some ⟨true, none, none⟩), .shutdownDone]
    (by decide +kernel)

theorem shutDownClean_evicted : shutDownClean.down = true ∧
    shutDownClean.evicted = [⟨.released, 1, 1, 0, none⟩] := by decide +kernel

theorem leaves_nothing_shutDownClean : shutDownClean.LeavesNothing :=
  leaves_nothing (system.run_reaches neverGrantedLate _ ⟨false, rfl⟩ (by decide +kernel))

/-- A load waits for etcd when the shutdown finds nothing to unload; it is granted its lock
afterwards and adds its entity. -/
def loadedAfterShutdown : Entitymgr :=
  system.run anyStep (fresh false)
    [.leaseAlive ⟨0, 1⟩ 1 false, .call .withEntity, .start "a", .shutdown, .shutdownDone,
      .reply (some ⟨true, some 5, none⟩), .dbLoad none] (by decide +kernel)

theorem leaves_entity : ∃ s : Entitymgr, system.Reaches anyStep s ∧ ¬ s.LeavesNothing := by
  refine ⟨loadedAfterShutdown, system.run_reaches anyStep _ ⟨false, rfl⟩ (by decide +kernel),
    fun h => ?_⟩
  have hn : loadedAfterShutdown.entity = none := h.entity (by decide +kernel)
  have he : loadedAfterShutdown.entity = some { handle := 0 } := by decide +kernel
  cases hn.symm.trans he

end Entitymgr

end Skyext
