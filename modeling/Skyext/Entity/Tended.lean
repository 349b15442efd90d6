import Skyext.Entity.Mgr

namespace Skyext
set_option autoImplicit true

open Machine
open LockModule (TryLockCall LockResult)

variable {s t : Entitymgr} {e : MgrEntity} {init : Option (GateJob × Refusal)} {job : GateJob}

/-- The entity refuses to serve. -/
def MgrEntity.flagged (e : MgrEntity) : Bool := e.invalid || e.unloading

def GatePc.unloads : GatePc → Bool
  | .unloadHooks _ => true
  | .saving _ => true
  | .discardingClean _ => true
  | .quarantining _ => true
  | .relocking .. => true
  | .recovering .. => true
  | .unlockingRecovery .. => true
  | .givingUp _ => true
  | .releasing .. => true
  | _ => false

namespace Entitymgr

/-- An unload waits for the gate or has been forked, or its retry timer is armed. -/
def Waiting (s : Entitymgr) : Prop :=
  .unload ∈ s.queue ∨ .gate .unload ∈ s.forked ∨ s.entity.any MgrEntity.unloadRetry = true

def Unloading (s : Entitymgr) : Prop := ∃ pc, s.running = some pc ∧ pc.unloads = true

/-- A flagged entity has an unload to come. -/
def Covered (s : Entitymgr) : Prop := ∀ e, s.entity = some e → e.flagged = true → s.Waiting

def Tended (s : Entitymgr) : Prop := s.Unloading ∨ s.Covered

theorem covered_none (h : s.entity = none) : s.Covered := by
  intro e he
  cases h.symm.trans he

theorem Covered.fork (h : s.Covered) (j : Forked) : (s.fork j).Covered :=
  fun e he hf => (h e he hf).imp id fun hw => hw.imp (List.mem_append_left _) id

theorem Covered.setEntity (h : s.Covered) {f : MgrEntity → MgrEntity}
    (hf : ∀ e, (f e).flagged = true → e.flagged = true)
    (hr : ∀ e, e.unloadRetry = true → (f e).unloadRetry = true) : (s.setEntity f).Covered := by
  intro e' he' hflag
  obtain ⟨e, he, rfl⟩ := Option.map_eq_some_iff.mp he'
  refine (h e he (hf e hflag)).imp id fun hw => hw.imp id fun hw => ?_
  simp only [he, Option.any_some] at hw
  simp only [Entitymgr.setEntity, he, Option.map_some, Option.any_some]
  exact hr e hw

theorem forked_unload_covered (h : .gate .unload ∈ s.forked) : s.Covered :=
  fun _ _ _ => .inr (.inl h)

theorem Covered.onLockExpired (h : s.Covered) (n : Nat) : (s.onLockExpired n).Covered := by
  unfold Entitymgr.onLockExpired
  split
  · exact forked_unload_covered (List.mem_append_right _ (.head _))
  · exact h

theorem Covered.lockMoved (h : s.Covered) (m : LockModule) : (s.lockMoved m).Covered := by
  unfold Entitymgr.lockMoved
  dsimp only
  split
  · split
    · exact Covered.onLockExpired (s := { s with lock := m }) h _
    · exact h
  · exact h

theorem Covered.isValid (h : s.Covered) (n : Nat) : (s.isValid n).1.Covered := h.lockMoved _

theorem Covered.usable (h : s.Covered) (e : MgrEntity) : (s.usable e).1.Covered := by
  unfold Entitymgr.usable
  split
  · exact h
  · exact h.isValid _

theorem Covered.finish (h : s.Covered) (init : Option (GateJob × Refusal)) :
    (s.finish init).Covered := by
  unfold Entitymgr.finish
  split <;> exact h

theorem Covered.unlockReply (h : s.Covered) (n : Nat) (ret : Option TxnReply) :
    (s.unlockReply n ret).1.Covered := by
  unfold Entitymgr.unlockReply
  dsimp only
  split
  · exact h
  · exact h.lockMoved _

theorem scheduleUnloadRetry_covered (s : Entitymgr) : s.scheduleUnloadRetry.Covered := by
  intro e he _
  obtain ⟨e', he', rfl⟩ := Option.map_eq_some_iff.mp he
  refine .inr (.inr ?_)
  simp only [scheduleUnloadRetry, setEntity, he', Option.map_some, Option.any_some]
  split
  · assumption
  · rfl

theorem forget_covered (s : Entitymgr) (cause : EvictionCause) : (s.forget cause).Covered := by
  unfold forget
  split
  · exact covered_none rfl
  · next h => exact covered_none h

theorem abortUnload_covered (s : Entitymgr) (init : Option (GateJob × Refusal)) (reason : String) :
    (s.abortUnload init reason).Covered :=
  (scheduleUnloadRetry_covered _).finish init

theorem tended_suspend (s : Entitymgr) {pc : GatePc} (h : pc.unloads = true) :
    (s.suspend pc).Tended := .inl ⟨pc, rfl, h⟩

theorem releaseLock_tended (s : Entitymgr) (init : Option (GateJob × Refusal)) :
    (s.releaseLock init).Tended := by
  unfold releaseLock
  split
  · next h => exact .inr ((covered_none h).finish init)
  · dsimp only
    split
    · exact .inr ((forget_covered _ _).finish init)
    · split
      · exact .inr ((scheduleUnloadRetry_covered _).finish init)
      · exact .inl ⟨_, rfl, rfl⟩

theorem released_covered (s : Entitymgr) (init : Option (GateJob × Refusal))
    (ret : Option TxnReply) : (s.released init ret).Covered := by
  unfold released
  split
  · next h => exact (covered_none h).finish init
  · dsimp only
    split
    · exact (forget_covered _ _).finish init
    · exact (scheduleUnloadRetry_covered _).finish init

theorem recoveryRefused_tended (s : Entitymgr) (init : Option (GateJob × Refusal)) :
    (s.recoveryRefused init).Tended := by
  unfold recoveryRefused
  split
  · next h => exact .inr ((covered_none h).finish init)
  · split
    · exact tended_suspend s rfl
    · exact .inr (abortUnload_covered s init _)

theorem recoverDirty_tended (s : Entitymgr) (init : Option (GateJob × Refusal)) (value : String) :
    (s.recoverDirty init value).Tended := by
  unfold recoverDirty
  dsimp only
  split
  · exact tended_suspend _ rfl
  · exact recoveryRefused_tended _ init
  · exact tended_suspend _ rfl

theorem relocked_tended (s : Entitymgr) (init : Option (GateJob × Refusal)) (c : TryLockCall)
    (ret : Option TxnReply) : (s.relocked init c ret).Tended := by
  unfold relocked
  split
  · exact tended_suspend _ rfl
  · exact recoveryRefused_tended _ init

theorem recoveryFailed_tended (s : Entitymgr) (init : Option (GateJob × Refusal))
    (r : RecoverResult) : (s.recoveryFailed init r).Tended := by
  unfold recoveryFailed
  split
  · exact .inr ((forget_covered s _).finish init)
  · exact .inr ((forget_covered s _).finish init)
  · split
    · next h => exact .inr ((covered_none h).finish init)
    · split
      · exact tended_suspend s rfl
      · exact .inr (abortUnload_covered s init _)

theorem recovered_tended (s : Entitymgr) (init : Option (GateJob × Refusal)) (n : Nat)
    (r : RecoverResult) : (s.recovered init n r).Tended := by
  unfold recovered
  split
  · exact releaseLock_tended _ init
  · split
    · exact recoveryFailed_tended _ init r
    · exact .inl ⟨_, rfl, rfl⟩

/-- An unload is suspended, has removed the entity, or has armed its retry timer. -/
theorem unloadEntity_tended (s : Entitymgr) (init : Option (GateJob × Refusal)) :
    (s.unloadEntity init).Tended := by
  unfold unloadEntity
  split
  · next h => exact .inr ((covered_none h).finish init)
  · dsimp only
    split
    · exact releaseLock_tended _ init
    · split
      · exact tended_suspend _ rfl
      · split
        · exact tended_suspend _ rfl
        · exact tended_suspend _ rfl

theorem Covered.loadFailed (h : s.Covered) (job : GateJob) (n : Nat) (r : Refusal) :
    (s.loadFailed job n r).Covered := by
  unfold Entitymgr.loadFailed
  dsimp only
  split
  · exact h.isValid n
  · split
    · exact (h.isValid n).lockMoved _
    · exact (h.isValid n).lockMoved _

theorem Covered.startUnloadTimer (h : s.Covered) : s.startUnloadTimer.Covered := by
  unfold Entitymgr.startUnloadTimer
  split
  · exact h
  · exact h.setEntity (fun _ => id) fun _ => id

theorem Covered.loaded (h : s.Covered) (job : GateJob) : (s.loaded job).Covered := by
  unfold Entitymgr.loaded
  split <;> exact h

theorem install_covered (s : Entitymgr) (job : GateJob) (n : Nat) :
    (s.install job n).Covered := by
  intro e he hf
  cases he
  cases hf

theorem Covered.ensureLoaded (h : s.Covered) (job : GateJob) (value : String) :
    (s.ensureLoaded job value).Covered := by
  unfold Entitymgr.ensureLoaded
  split
  · next e he =>
    dsimp only
    split
    · exact (h.usable e).onLockExpired _
    · split
      · exact h.usable e
      · split
        · exact (h.usable e).loaded job
        · exact (h.usable e).startUnloadTimer.loaded job
  · split
    · exact h
    · split
      · exact h.lockMoved _
      · exact h.lockMoved _
      · exact h.lockMoved _

theorem Covered.locked (h : s.Covered) (job : GateJob) (c : TryLockCall)
    (ret : Option TxnReply) : (s.locked job c ret).Covered := by
  unfold Entitymgr.locked
  split
  · exact h.lockMoved _
  · exact h.lockMoved _

theorem Covered.dbLoaded (h : s.Covered) (job : GateJob) (n : Nat) (err : Option String) :
    (s.dbLoaded job n err).Covered := by
  unfold Entitymgr.dbLoaded
  split
  · exact h.loadFailed job n _
  · dsimp only
    split
    · exact install_covered _ job n
    · exact h.isValid n

theorem Covered.initialized (h : s.Covered) (job : GateJob) (n : Nat) (err : Option String) :
    (s.initialized job n err).Tended := by
  unfold Entitymgr.initialized
  dsimp only
  split
  · exact unloadEntity_tended _ _
  · split
    · exact .inr ((((h.isValid n).startUnloadTimer).fork _).loaded job)
    · exact unloadEntity_tended _ _

theorem Covered.handled (h : s.Covered) (job : GateJob) : (s.handled job).Covered := by
  unfold Entitymgr.handled
  split
  · exact h
  · next e he =>
    have hv : (if job = .withEntity then s.usable e else s.isValid e.handle).1.Covered := by
      split
      · exact h.usable e
      · exact h.isValid _
    generalize (if job = .withEntity then s.usable e else s.isValid e.handle) = p at hv ⊢
    obtain ⟨t, ok⟩ := p
    dsimp only
    split
    · exact hv
    · exact hv.onLockExpired _

/-- A coroutine that goes on outside `_unload_entity` has left no flagged entity untended. -/
theorem Tended.covered (h : s.Tended) {pc : GatePc} (hr : s.running = some pc)
    (hu : pc.unloads = false) : s.Covered := by
  rcases h with ⟨pc', hr', hu'⟩ | h
  · cases hr.symm.trans hr'
    cases hu.symm.trans hu'
  · exact h

theorem Tended.idle (h : s.Tended) (hr : s.running = none) : s.Covered := by
  rcases h with ⟨pc, hr', _⟩ | h
  · cases hr.symm.trans hr'
  · exact h

theorem Tended.aside (h : s.Tended) (hr : t.running = s.running)
    (hc : s.Covered → t.Covered) : t.Tended := by
  rcases h with ⟨pc, hr', hu⟩ | h
  · exact .inl ⟨pc, hr.trans hr', hu⟩
  · exact .inr (hc h)

theorem Covered.enqueue (h : s.Covered) (queue : List GateJob) :
    { s with queue := s.queue ++ queue }.Covered :=
  fun e he hf => (h e he hf).imp (List.mem_append_left _) id

theorem Covered.fire (h : s.Covered) {f : MgrEntity → MgrEntity} (job : GateJob)
    (hf : ∀ e, (f e).flagged = true → e.flagged = true)
    (hr : ∀ e, e.unloadRetry = true → (f e).unloadRetry = true) : (s.fire f job).Covered :=
  (h.setEntity hf hr).enqueue [job]

theorem fire_unload_covered (s : Entitymgr) (f : MgrEntity → MgrEntity) :
    (s.fire f .unload).Covered :=
  fun _ _ _ => .inl (List.mem_append_right _ (.head _))

theorem onLockExpired_running (s : Entitymgr) (n : Nat) :
    (s.onLockExpired n).running = s.running := by
  unfold onLockExpired
  split
  · dsimp only [fork]
    unfold kickClient
    split <;> rfl
  · rfl

theorem lockMoved_running (s : Entitymgr) (m : LockModule) :
    (s.lockMoved m).running = s.running := by
  unfold lockMoved
  dsimp only
  split
  · split
    · exact onLockExpired_running _ _
    · rfl
  · rfl

@[simp] theorem lockMoved_lock (s : Entitymgr) (m : LockModule) :
    (s.lockMoved m).lock = m := by
  unfold lockMoved
  dsimp only
  split
  · split
    · unfold onLockExpired
      split
      · dsimp only [fork]
        unfold kickClient
        split <;> rfl
      · rfl
    · rfl
  · rfl

theorem Tended.lockMoved (h : s.Tended) (m : LockModule) : (s.lockMoved m).Tended :=
  h.aside (lockMoved_running s m) fun hc => hc.lockMoved m

theorem Covered.start (h : s.Covered) (job : GateJob) (value : String) :
    (s.start value job).Tended := by
  unfold Entitymgr.start
  split
  · exact unloadEntity_tended s none
  · split
    · split
      · exact .inr h
      · dsimp only
        split
        · exact .inr (h.isValid _)
        · exact .inr (h.isValid _)
    · exact .inr h
  · exact .inr (h.ensureLoaded _ _)

theorem Covered.dequeue (h : s.Covered) {job : GateJob} {queue : List GateJob}
    (hq : s.queue = job :: queue) (hj : job ≠ .unload) : { s with queue := queue }.Covered := by
  intro e he hf
  refine (h e he hf).imp (fun hw => ?_) id
  rw [hq] at hw
  exact (List.mem_cons.mp hw).resolve_left fun hc => hj hc.symm

/-- A forked unload that starts waits for the gate. -/
theorem Covered.runForked (h : s.Covered) {i : Nat} (hi : s.forked[i]? = some (.gate job)) :
    { s with forked := s.forked.eraseIdx i, queue := s.queue ++ [job] }.Covered := by
  intro e he hf
  rcases h e he hf with hw | hw | hw
  · exact .inl (List.mem_append_left _ hw)
  · obtain ⟨j, hj⟩ := List.getElem?_of_mem hw
    by_cases hij : j = i
    · subst hij
      cases hi.symm.trans hj
      exact .inl (List.mem_append_right _ (.head _))
    · exact .inr (.inl (List.mem_eraseIdx_iff_getElem?.mpr ⟨j, hij, hj⟩))
  · exact .inr (.inr hw)

theorem Covered.runKick (h : s.Covered) {i : Nat} (hi : s.forked[i]? = some (.kick reason)) :
    ({ s with forked := s.forked.eraseIdx i }.setEntity fun e =>
      { e with session := false }).Covered := by
  have hrest : { s with forked := s.forked.eraseIdx i }.Covered := by
    intro e he hf
    refine (h e he hf).imp id fun hw => hw.imp (fun hw => ?_) id
    obtain ⟨j, hj⟩ := List.getElem?_of_mem hw
    refine List.mem_eraseIdx_iff_getElem?.mpr ⟨j, ?_, hj⟩
    rintro rfl
    cases hi.symm.trans hj
  exact hrest.setEntity (fun _ => id) fun _ => id

theorem saveDoc_frame {n k : Nat} {applied ok : Bool} (h : s.saveDoc n k applied ok = some t) :
    t.entity = s.entity ∧ t.queue = s.queue ∧ t.forked = s.forked ∧ t.running = s.running := by
  simp only [saveDoc, Option.ite_none_right_eq_some, Option.some.injEq] at h
  rw [← h.2]
  exact ⟨rfl, rfl, rfl, rfl⟩

theorem Covered.frame (h : s.Covered) (he : t.entity = s.entity) (hq : t.queue = s.queue)
    (hf : t.forked = s.forked) : t.Covered := by
  intro e he' hflag
  simp only [Waiting, he, hq, hf] at *
  exact h e he' hflag

theorem cacheLoad_covered (h : s.Covered) {n : Nat} (hl : s.cacheLoad n = some t) : t.Covered := by
  simp only [cacheLoad] at hl
  split at hl
  · cases hl
    exact h
  · split at hl
    · cases hl
      exact h
    · split at hl
      · cases hl
      · cases hl
        exact h

theorem Tended.step (h : s.Tended) {a : MgrAction} (ht : s.step a = some t) : t.Tended := by
  cases a with
  | call job =>
    cases ht
    exact h.aside rfl fun hc => hc.enqueue [job]
  | start value =>
    simp only [Entitymgr.step] at ht
    split at ht
    · next job queue hr hq =>
      cases ht
      have hc := h.idle hr
      cases job with
      | unload => exact unloadEntity_tended _ none
      | ensureLoaded => exact (hc.dequeue hq (by simp)).start _ value
      | withEntity => exact (hc.dequeue hq (by simp)).start _ value
      | withLoaded => exact (hc.dequeue hq (by simp)).start _ value
    · cases ht
  | runForked i =>
    simp only [Entitymgr.step] at ht
    split at ht
    · next job hi =>
      cases ht
      exact h.aside rfl fun hc => hc.runForked hi
    · next reason hi =>
      cases ht
      exact h.aside rfl fun hc => hc.runKick hi
    · cases ht
  | retryTimer =>
    simp only [Entitymgr.step, Option.ite_none_right_eq_some] at ht
    cases ht.2
    exact .inr (fire_unload_covered _ _)
  | unloadTimer =>
    simp only [Entitymgr.step, Option.ite_none_right_eq_some] at ht
    cases ht.2
    exact .inr (fire_unload_covered _ _)
  | deliveryTimer =>
    simp only [Entitymgr.step, Option.ite_none_right_eq_some] at ht
    cases ht.2
    exact h.aside rfl fun hc => hc.fire _ (fun _ => id) fun _ => id
  | scheduleDelivery =>
    simp only [Entitymgr.step, Option.ite_none_right_eq_some] at ht
    cases ht.2
    exact h.aside rfl fun hc => hc.setEntity (fun _ => id) fun _ => id
  | bind =>
    simp only [Entitymgr.step] at ht
    split at ht
    · cases ht
      exact h.aside rfl fun hc => hc.setEntity (fun _ => id) fun _ => id
    · cases ht
  | change =>
    simp only [Entitymgr.step] at ht
    split at ht
    · cases ht
      exact h
    · cases ht
      exact h
    · cases ht
      exact h
    · cases ht
  | save k applied ok =>
    simp only [Entitymgr.step] at ht
    split at ht
    · obtain ⟨he, hq, hf, hr⟩ := saveDoc_frame ht
      exact h.aside hr fun hc => hc.frame he hq hf
    · cases ht
  | reply ret =>
    simp only [Entitymgr.step] at ht
    split at ht
    · next job c hr =>
      cases ht
      exact .inr ((h.covered hr rfl).locked job c ret)
    · next job n fence r hr =>
      cases ht
      exact .inr ((h.covered hr rfl).unlockReply n ret)
    · cases ht
      exact relocked_tended ..
    · cases ht
      exact recoveryFailed_tended ..
    · cases ht
      exact .inr (released_covered _ _ _)
    · cases ht
  | dbLoad err =>
    simp only [Entitymgr.step] at ht
    split at ht
    · next job n hr =>
      have hc := h.covered hr rfl
      split at ht
      · obtain ⟨u, hu, rfl⟩ := Option.map_eq_some_iff.mp ht
        exact .inr ((cacheLoad_covered hc hu).dbLoaded job n none)
      · cases ht
        exact .inr (hc.dbLoaded job n _)
    · cases ht
  | discarded value =>
    simp only [Entitymgr.step] at ht
    split at ht
    · next job n hr =>
      cases ht
      have hc := h.covered hr rfl
      refine .inr (Covered.loadFailed ?_ job n _)
      simp only [discardClean]
      split <;> exact hc
    · split at ht
      · cases ht
        exact .inr ((forget_covered _ _).finish _)
      · cases ht
        exact tended_suspend _ rfl
    · cases ht
      exact recoverDirty_tended ..
    · cases ht
      exact .inr ((forget_covered _ _).finish _)
    · cases ht
  | hooks err =>
    simp only [Entitymgr.step] at ht
    split at ht
    · next job n hr =>
      cases ht
      exact (h.covered hr rfl).initialized job n err
    · split at ht
      · cases ht
        exact .inr (abortUnload_covered _ _ _)
      · cases ht
        exact tended_suspend _ rfl
    · cases ht
  | handler =>
    simp only [Entitymgr.step] at ht
    split at ht
    · next job hr =>
      cases ht
      exact .inr ((h.covered hr rfl).handled job)
    · cases ht
  | dbUnload k applied ok =>
    simp only [Entitymgr.step] at ht
    split at ht
    · obtain ⟨p, _, rfl⟩ := Option.map_eq_some_iff.mp ht
      split
      · exact releaseLock_tended ..
      · exact .inr (abortUnload_covered _ _ _)
    · cases ht
  | dbRecover r applied =>
    simp only [Entitymgr.step] at ht
    split at ht
    · obtain ⟨p, _, rfl⟩ := Option.map_eq_some_iff.mp ht
      exact recovered_tended ..
    · cases ht
  | deadline =>
    cases ht
    exact h
  | leaseAlive leaseid epoch late =>
    cases ht
    exact h.lockMoved _
  | leaseLost epoch =>
    cases ht
    exact h.lockMoved _
  | leaseCheck =>
    cases ht
    exact h.lockMoved _
  | shutdown =>
    cases ht
    refine h.aside ?_ fun hc => ?_
    · split <;> rfl
    · split
      · exact Covered.fork (s := { s with closing := true }) hc _
      · exact hc
  | shutdownDone =>
    simp only [Entitymgr.step, Option.ite_none_right_eq_some] at ht
    cases ht.2
    exact h

theorem tended_reaches (h : system.Reaches ok s) : s.Tended := by
  apply h.invariant (fun s hs => ?_) fun _ _ _ hi _ ht => hi.step ht
  obtain ⟨resident, rfl⟩ := hs
  exact .inr (covered_none rfl)

end Entitymgr

end Skyext
