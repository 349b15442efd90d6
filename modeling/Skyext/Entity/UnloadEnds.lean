import Skyext.Entity.Tended
import Skyext.Lock.Invariant

namespace Skyext
set_option autoImplicit true

open LockModule (TryLockCall LockResult)

variable {s t : Entitymgr} {e : MgrEntity} {init : Option (GateJob × Refusal)} {a : MgrAction}
  {fails fails' : Prop}

/-- How many calls of `_unload_entity` are still to come, at most. -/
def GatePc.callsLeft : GatePc → Nat
  | .unloadHooks _ => 3
  | .saving _ => 2
  | .releasing .. => 1
  | .discardingClean _ => 6
  | .quarantining _ => 5
  | .relocking .. => 4
  | .recovering .. => 3
  | .unlockingRecovery .. => 2
  | .givingUp _ => 1
  | _ => 0

namespace Entitymgr

def callsLeft (s : Entitymgr) : Nat := s.running.elim 0 GatePc.callsLeft

/-- The answer that the unload gets is a failure: a hook raised, the document was not saved or not
recovered, the lock was not had or not given back. -/
def Fails (s : Entitymgr) : MgrAction → Prop
  | .hooks err => err.isSome
  | .dbUnload snapshot applied ok => ∃ t, s.cacheUnload snapshot applied ok = some (t, false)
  | .dbRecover r _ => ∃ reason, r = .failed reason
  | .discarded value =>
    ∃ m reason owner, s.lock.tryLockStart value = (m, .inl (.refused reason owner))
  | .reply ret =>
    match s.running with
    | some (.relocking _ c) =>
      ∃ m reason owner, s.lock.tryLockReply c ret = (m, .refused reason owner)
    | some (.unlockingRecovery _ _ _ r) => r ≠ .superseded ∧ r ≠ .cacheReplaced
    | some (.releasing ..) => ∃ e, s.entity = some e ∧ (s.unlockReply e.handle ret).2 = false
    | _ => False
  | _ => False

/-- At most `n` calls of the unload are still to come, and where none is the entity has left memory
or a call has failed. -/
structure Ends (t : Entitymgr) (n : Nat) (fails : Prop) : Prop where
  shorter : t.callsLeft ≤ n
  gone : t.callsLeft = 0 → t.entity = none ∨ fails

theorem unloading_iff : s.Unloading ↔ 0 < s.callsLeft := by
  unfold Unloading callsLeft
  cases s.running with
  | none => simp
  | some pc => cases pc <;> simp [GatePc.unloads, GatePc.callsLeft]

theorem finish_callsLeft (s : Entitymgr) (init : Option (GateJob × Refusal)) :
    (s.finish init).callsLeft = 0 := by
  unfold finish
  split <;> rfl

theorem ends_finish (n : Nat) (h : s.entity = none ∨ fails) : (s.finish init).Ends n fails := by
  refine ⟨(finish_callsLeft s init).symm ▸ Nat.zero_le n, fun _ => ?_⟩
  unfold finish
  split <;> exact h

theorem ends_forget (s : Entitymgr) (cause : EvictionCause) (n : Nat) :
    ((s.forget cause).finish init).Ends n fails := by
  refine ends_finish n (.inl ?_)
  unfold forget
  split
  · rfl
  · assumption

theorem ends_suspend (s : Entitymgr) {pc : GatePc} {k : Nat} (h : pc.callsLeft = k + 1) (n : Nat) :
    (s.suspend pc).Ends (k + 1 + n) fails :=
  ⟨(show pc.callsLeft ≤ k + 1 + n from h ▸ Nat.le_add_right ..), fun h0 => absurd (h.symm.trans h0)
    (Nat.succ_ne_zero k)⟩

theorem Ends.mono {n m : Nat} (h : t.Ends n fails) (hle : n ≤ m) (himp : fails → fails') :
    t.Ends m fails' :=
  ⟨Nat.le_trans h.shorter hle, fun h0 => (h.gone h0).imp id himp⟩

/-- `_release_lock` sends its transaction unless the lease is lost, when nothing is left to do. -/
theorem releaseLock_ends (s : Entitymgr) (init : Option (GateJob × Refusal)) :
    (s.releaseLock init).Ends 1 fails := by
  unfold releaseLock
  split
  · next he => exact ends_finish 1 (.inl he)
  · next e he =>
    dsimp only
    split
    · exact ends_forget _ _ 1
    · next hv =>
      have hvalid : (s.kickClient "entity unloaded").lock.isValid e.handle = true := by
        simpa [isValid] using hv
      have hlock : ((s.kickClient "entity unloaded").isValid e.handle).1.lock.isValid e.handle =
          true := by
        rw [isValid, lockMoved_lock, LockModule.checkHandle_valid hvalid]
        exact hvalid
      split
      · next m r hm =>
        rw [LockModule.unlockStart, if_pos hlock] at hm
        cases hm
      · exact ⟨Nat.le_refl 1, fun h => absurd h Nat.one_ne_zero⟩

theorem released_ends (s : Entitymgr) (init : Option (GateJob × Refusal))
    (ret : Option TxnReply) :
    (s.released init ret).Ends 0
      (∃ e, s.entity = some e ∧ (s.unlockReply e.handle ret).2 = false) := by
  unfold released
  split
  · next he => exact ends_finish 0 (.inl he)
  · next e he =>
    dsimp only
    split
    · exact ends_forget _ _ 0
    · next hok => exact ends_finish 0 (.inr ⟨e, he, by simpa using hok⟩)

theorem recoveryRefused_ends (s : Entitymgr) (init : Option (GateJob × Refusal)) (h : fails) :
    (s.recoveryRefused init).Ends 1 fails := by
  unfold recoveryRefused
  split
  · next he => exact ends_finish 1 (.inl he)
  · split
    · exact ends_suspend s rfl 0
    · exact ends_finish 1 (.inr h)

theorem recoverDirty_ends (s : Entitymgr) (init : Option (GateJob × Refusal)) (value : String) :
    (s.recoverDirty init value).Ends 4
      (∃ m reason owner, s.lock.tryLockStart value = (m, .inl (.refused reason owner))) := by
  unfold recoverDirty
  dsimp only
  split
  · exact ends_suspend _ rfl 1
  · next m reason owner hm =>
    exact (recoveryRefused_ends _ init ⟨m, reason, owner, hm⟩).mono (by decide) id
  · exact ends_suspend _ rfl 0

theorem relocked_ends (s : Entitymgr) (init : Option (GateJob × Refusal)) (c : TryLockCall)
    (ret : Option TxnReply) :
    (s.relocked init c ret).Ends 3
      (∃ m reason owner, s.lock.tryLockReply c ret = (m, .refused reason owner)) := by
  unfold relocked
  split
  · exact ends_suspend _ rfl 0
  · next m reason owner hm =>
    exact (recoveryRefused_ends _ init ⟨m, reason, owner, hm⟩).mono (by decide) id

theorem recoveryFailed_ends (s : Entitymgr) (init : Option (GateJob × Refusal))
    (r : RecoverResult) :
    (s.recoveryFailed init r).Ends 1 (r ≠ .superseded ∧ r ≠ .cacheReplaced) := by
  unfold recoveryFailed
  split
  · exact ends_forget s _ 1
  · exact ends_forget s _ 1
  · next hs hc =>
    split
    · next he => exact ends_finish 1 (.inl he)
    · split
      · exact ends_suspend s rfl 0
      · exact ends_finish 1 (.inr ⟨hs, hc⟩)

theorem recovered_ends (s : Entitymgr) (init : Option (GateJob × Refusal)) (n : Nat)
    (r : RecoverResult) : (s.recovered init n r).Ends 2 (∃ reason, r = .failed reason) := by
  unfold recovered
  split
  · exact (releaseLock_ends _ init).mono (by decide) id
  · next hr =>
    split
    · refine (recoveryFailed_ends _ init r).mono (by decide) fun ⟨hs, hc⟩ => ?_
      cases r with
      | recovered => exact absurd rfl hr
      | superseded => exact absurd rfl hs
      | cacheReplaced => exact absurd rfl hc
      | failed reason => exact ⟨reason, rfl⟩
    · exact ⟨Nat.le_refl 2, fun h => absurd h (Nat.succ_ne_zero 1)⟩

theorem unloadEntity_ends (s : Entitymgr) (init : Option (GateJob × Refusal)) :
    (s.unloadEntity init).Ends 6 False := by
  unfold unloadEntity
  split
  · next he => exact ends_finish 6 (.inl he)
  · dsimp only
    split
    · exact (releaseLock_ends _ init).mono (by decide) id
    · split
      · exact ends_suspend _ rfl 0
      · split
        · exact ends_suspend _ rfl 4
        · exact ends_suspend _ rfl 3

theorem quarantine_lock (s : Entitymgr) (n : Nat) : (s.quarantine n).lock = s.lock := by
  unfold quarantine
  split <;> rfl

theorem cacheRecover_failed {old new : Nat} {r : RecoverResult} {applied : Bool}
    {p : Entitymgr × RecoverResult} {reason : String}
    (h : s.cacheRecover old new r applied = some p) (hf : p.2 = .failed reason) :
    r = .failed reason := by
  simp only [cacheRecover] at h
  split at h
  · cases h
    cases hf
  · split at h
    · cases h
      cases hf
    · split at h
      · obtain ⟨_, h⟩ := Option.ite_none_right_eq_some.mp h
        cases h
        cases hf
      · cases h
        cases hf
      · cases h
        exact hf
      · cases h

theorem callsLeft_eq {pc : GatePc} (hr : s.running = some pc) : s.callsLeft = pc.callsLeft := by
  rw [callsLeft, hr, Option.elim_some]

theorem Ends.of_running {pc : GatePc} {n : Nat} (h : t.Ends n fails) (hr : s.running = some pc)
    (hn : pc.callsLeft = n + 1) : ∃ n, n + 1 = s.callsLeft ∧ t.Ends n fails :=
  ⟨n, ((callsLeft_eq hr).trans hn).symm, h⟩

theorem unload_reply {ret : Option TxnReply} (hu : s.Unloading)
    (ht : s.step (.reply ret) = some t) :
    ∃ n, n + 1 = s.callsLeft ∧ t.Ends n (s.Fails (.reply ret)) := by
  obtain ⟨pc, hr, hpc⟩ := hu
  simp only [Entitymgr.step, hr] at ht
  simp only [Fails, hr]
  cases pc with
  | relocking init c =>
    cases ht
    exact (relocked_ends s init c ret).of_running hr rfl
  | unlockingRecovery init n fence r =>
    cases ht
    exact (recoveryFailed_ends _ init r).of_running hr rfl
  | releasing init fence =>
    cases ht
    exact (released_ends s init ret).of_running hr rfl
  | locking job c => cases hpc
  | unlockingLoad job n fence r => cases hpc
  | _ => cases ht

theorem unload_discarded {value : String} (hu : s.Unloading)
    (ht : s.step (.discarded value) = some t) :
    ∃ n, n + 1 = s.callsLeft ∧ t.Ends n (s.Fails (.discarded value)) := by
  obtain ⟨pc, hr, hpc⟩ := hu
  simp only [Entitymgr.step, hr] at ht
  cases he : s.entity with
  | none =>
    rw [he] at ht
    cases pc with
    | discardingLoaded job n => cases hpc
    | _ => cases ht
  | some e =>
    rw [he] at ht
    cases pc with
    | discardingClean init =>
      dsimp only at ht
      split at ht
      · cases ht
        exact (ends_forget _ _ 5).of_running hr rfl
      · cases ht
        exact (ends_suspend _ rfl 0).of_running hr rfl
    | quarantining init =>
      cases ht
      have hends := recoverDirty_ends (s.quarantine e.handle) init value
      rw [quarantine_lock] at hends
      exact hends.of_running hr rfl
    | givingUp init =>
      cases ht
      exact (ends_forget _ _ 0).of_running hr rfl
    | discardingLoaded job n => cases hpc
    | _ => cases ht

theorem unload_hooks {err : Option String} (hu : s.Unloading) (ht : s.step (.hooks err) = some t) :
    ∃ n, n + 1 = s.callsLeft ∧ t.Ends n (s.Fails (.hooks err)) := by
  obtain ⟨pc, hr, hpc⟩ := hu
  simp only [Entitymgr.step, hr] at ht
  cases pc with
  | unloadHooks init =>
    cases err with
    | some reason =>
      cases ht
      exact (ends_finish 2 (.inr rfl)).of_running hr rfl
    | none =>
      cases ht
      exact (ends_suspend _ rfl 0).of_running hr rfl
  | initializing job n => cases hpc
  | _ => cases ht

theorem unload_save {snapshot : Nat} {applied ok : Bool} (hu : s.Unloading)
    (ht : s.step (.dbUnload snapshot applied ok) = some t) :
    ∃ n, n + 1 = s.callsLeft ∧ t.Ends n (s.Fails (.dbUnload snapshot applied ok)) := by
  obtain ⟨pc, hr, _⟩ := hu
  simp only [Entitymgr.step, hr] at ht
  cases pc with
  | saving init =>
    obtain ⟨⟨u, ok'⟩, hsave, rfl⟩ := Option.map_eq_some_iff.mp ht
    split
    · exact (releaseLock_ends _ init).of_running hr rfl
    · next hok =>
      have hfailed : ok' = false := by simpa using hok
      subst hfailed
      exact (ends_finish 1 (.inr ⟨u, hsave⟩)).of_running hr rfl
  | _ => cases ht

theorem unload_recover {r : RecoverResult} {applied : Bool} (hu : s.Unloading)
    (ht : s.step (.dbRecover r applied) = some t) :
    ∃ n, n + 1 = s.callsLeft ∧ t.Ends n (s.Fails (.dbRecover r applied)) := by
  obtain ⟨pc, hr, _⟩ := hu
  simp only [Entitymgr.step, hr] at ht
  cases pc with
  | recovering init n =>
    split at ht
    · next e hpc' he =>
      cases hpc'
      obtain ⟨p, hp, rfl⟩ := Option.map_eq_some_iff.mp ht
      refine Ends.of_running ?_ hr rfl
      exact (recovered_ends p.1 init n p.2).mono (Nat.le_refl 2)
        (Exists.imp fun _ hf => cacheRecover_failed hp hf)
    · cases ht
  | _ => cases ht

/-- Whatever happens while an unload is at work leaves it where it is, or is the answer to its call:
then fewer calls are to come, and if none is the entity has left memory unless a call failed. -/
theorem unload_step (hu : s.Unloading) (ht : s.step a = some t) :
    t.running = s.running ∨ ∃ n, n + 1 = s.callsLeft ∧ t.Ends n (s.Fails a) := by
  cases a with
  | reply ret => exact .inr (unload_reply hu ht)
  | discarded value => exact .inr (unload_discarded hu ht)
  | hooks err => exact .inr (unload_hooks hu ht)
  | dbUnload snapshot applied ok => exact .inr (unload_save hu ht)
  | dbRecover r applied => exact .inr (unload_recover hu ht)
  | dbLoad err =>
    obtain ⟨pc, hr, hpc⟩ := hu
    simp only [Entitymgr.step, hr] at ht
    cases pc with
    | loading job n => cases hpc
    | _ => cases ht
  | handler =>
    obtain ⟨pc, hr, hpc⟩ := hu
    simp only [Entitymgr.step, hr] at ht
    cases pc with
    | handling job => cases hpc
    | _ => cases ht
  | start value =>
    obtain ⟨pc, hr, _⟩ := hu
    simp only [Entitymgr.step, hr] at ht
    cases ht
  | save k applied ok =>
    simp only [Entitymgr.step] at ht
    split at ht
    · exact .inl (saveDoc_frame ht).2.2.2
    · cases ht
  | leaseAlive leaseid epoch late =>
    cases ht
    exact .inl (lockMoved_running _ _)
  | leaseLost epoch =>
    cases ht
    exact .inl (lockMoved_running _ _)
  | leaseCheck =>
    cases ht
    exact .inl (lockMoved_running _ _)
  | shutdown =>
    cases ht
    refine .inl ?_
    split <;> rfl
  | runForked i =>
    simp only [Entitymgr.step] at ht
    split at ht <;> cases ht <;> exact .inl rfl
  | bind =>
    simp only [Entitymgr.step] at ht
    split at ht <;> cases ht
    exact .inl rfl
  | change =>
    simp only [Entitymgr.step] at ht
    split at ht <;> cases ht <;> exact .inl rfl
  | call job =>
    cases ht
    exact .inl rfl
  | deadline =>
    cases ht
    exact .inl rfl
  | retryTimer =>
    simp only [Entitymgr.step, Option.ite_none_right_eq_some] at ht
    cases ht.2
    exact .inl rfl
  | unloadTimer =>
    simp only [Entitymgr.step, Option.ite_none_right_eq_some] at ht
    cases ht.2
    exact .inl rfl
  | deliveryTimer =>
    simp only [Entitymgr.step, Option.ite_none_right_eq_some] at ht
    cases ht.2
    exact .inl rfl
  | scheduleDelivery =>
    simp only [Entitymgr.step, Option.ite_none_right_eq_some] at ht
    cases ht.2
    exact .inl rfl
  | shutdownDone =>
    simp only [Entitymgr.step, Option.ite_none_right_eq_some] at ht
    cases ht.2
    exact .inl rfl

end Entitymgr

end Skyext
