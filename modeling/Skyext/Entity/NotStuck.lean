import Skyext.Entity.UnloadEnds

namespace Skyext
set_option autoImplicit true

open Machine
open LockModule (TryLockCall LockResult)

variable {s t : Entitymgr} {e : MgrEntity} {init : Option (GateJob × Refusal)} {job : GateJob}
  {P Q : Bool → Nat → Prop}

namespace Entitymgr

/-- The entity in memory, if any, satisfies a condition on `persisted` and its recovery attempts. -/
def Holds (P : Bool → Nat → Prop) (s : Entitymgr) : Prop :=
  ∀ e, s.entity = some e → P e.persisted e.recoveryAttempts

/-- An entity that no recovery is at work on has attempts left, or nothing left to recover. -/
def Calm (persisted : Bool) (attempts : Nat) : Prop :=
  attempts < dirtyRecoveryMaxAttempts ∨ persisted = true ∧ attempts ≤ dirtyRecoveryMaxAttempts

def Left (_ : Bool) (attempts : Nat) : Prop := attempts < dirtyRecoveryMaxAttempts

def Counted (_ : Bool) (attempts : Nat) : Prop := attempts ≤ dirtyRecoveryMaxAttempts

/-- What is known of the attempts while the coroutine with the gate is where it is. -/
def limit : Option GatePc → Bool → Nat → Prop
  | some (.discardingClean _) => Left
  | some (.quarantining _) => Left
  | some (.relocking ..) => Counted
  | some (.recovering ..) => Counted
  | some (.unlockingRecovery ..) => Counted
  | some (.givingUp _) => Counted
  | _ => Calm

def Bounded (s : Entitymgr) : Prop := s.Holds (limit s.running)

theorem Holds.mono (h : s.Holds P) (hpq : ∀ p n, P p n → Q p n) : s.Holds Q :=
  fun e he => hpq _ _ (h e he)

theorem holds_none (h : s.entity = none) : s.Holds P := by
  intro e he
  cases h.symm.trans he

theorem Left.calm {p : Bool} {n : Nat} (h : Left p n) : Calm p n := .inl h

theorem Calm.counted {p : Bool} {n : Nat} (h : Calm p n) : Counted p n :=
  h.elim Nat.le_of_lt And.right

theorem Counted.calm {n : Nat} (h : Counted p n) : Calm true n := .inr ⟨rfl, h⟩

theorem Holds.setEntity (h : s.Holds P) {f : MgrEntity → MgrEntity}
    (hf : ∀ e, P e.persisted e.recoveryAttempts → Q (f e).persisted (f e).recoveryAttempts) :
    (s.setEntity f).Holds Q := by
  intro e' he'
  obtain ⟨e, he, rfl⟩ := Option.map_eq_some_iff.mp he'
  exact hf e (h e he)

theorem Holds.kickClient (h : s.Holds P) (reason : String) : (s.kickClient reason).Holds P := by
  unfold Entitymgr.kickClient
  split <;> exact h

theorem Holds.onLockExpired (h : s.Holds P) (n : Nat) : (s.onLockExpired n).Holds P := by
  unfold Entitymgr.onLockExpired
  split
  · refine Holds.kickClient ?_ "lease lost"
    exact h.setEntity fun _ => id
  · exact h

theorem Holds.lockMoved (h : s.Holds P) (m : LockModule) : (s.lockMoved m).Holds P := by
  unfold Entitymgr.lockMoved
  dsimp only
  split
  · split
    · exact Holds.onLockExpired (s := { s with lock := m }) h _
    · exact h
  · exact h

theorem Holds.isValid (h : s.Holds P) (n : Nat) : (s.isValid n).1.Holds P := h.lockMoved _

theorem Holds.usable (h : s.Holds P) (e : MgrEntity) : (s.usable e).1.Holds P := by
  unfold Entitymgr.usable
  split
  · exact h
  · exact h.isValid _

theorem Holds.unlockReply (h : s.Holds P) (n : Nat) (ret : Option TxnReply) :
    (s.unlockReply n ret).1.Holds P := by
  unfold Entitymgr.unlockReply
  dsimp only
  split
  · exact h
  · exact h.lockMoved _

theorem Holds.startUnloadTimer (h : s.Holds P) : s.startUnloadTimer.Holds P := by
  unfold Entitymgr.startUnloadTimer
  split
  · exact h
  · exact h.setEntity fun _ => id

theorem bounded_suspend {pc : GatePc} (h : s.Holds P)
    (hl : ∀ p n, P p n → limit (some pc) p n) : (s.suspend pc).Bounded := h.mono hl

theorem bounded_answer (h : s.Holds Calm) (job : GateJob) (r : Option Refusal) :
    (s.answer job r).Bounded := h

theorem bounded_finish (h : s.Holds Calm) (init : Option (GateJob × Refusal)) :
    (s.finish init).Bounded := by
  unfold finish
  split <;> exact h

theorem bounded_forget (s : Entitymgr) (cause : EvictionCause)
    (init : Option (GateJob × Refusal)) : ((s.forget cause).finish init).Bounded := by
  apply bounded_finish
  unfold forget
  split
  · exact holds_none rfl
  · next h => exact holds_none h

theorem Holds.retry (h : s.Holds P) : s.scheduleUnloadRetry.Holds P := by
  refine h.setEntity fun e he => ?_
  split <;> exact he

theorem bounded_abort (h : s.Holds Calm) (init : Option (GateJob × Refusal)) (reason : String) :
    (s.abortUnload init reason).Bounded :=
  bounded_finish (h.kickClient reason).retry init

theorem bounded_releaseLock (h : s.Holds Calm) (init : Option (GateJob × Refusal)) :
    (s.releaseLock init).Bounded := by
  unfold releaseLock
  split
  · exact bounded_finish h init
  · next e he =>
    have hv := (h.kickClient "entity unloaded").isValid e.handle
    dsimp only
    split
    · exact bounded_forget _ _ init
    · split
      · exact bounded_finish (hv.lockMoved _).retry init
      · exact hv.lockMoved _

theorem bounded_released (h : s.Holds Calm) (init : Option (GateJob × Refusal))
    (ret : Option TxnReply) : (s.released init ret).Bounded := by
  unfold released
  split
  · exact bounded_finish h init
  · dsimp only
    split
    · exact bounded_forget _ _ init
    · exact bounded_finish (h.unlockReply _ ret).retry init

/-- The last attempt goes on to give the entity up. -/
theorem bounded_recoveryRefused (h : s.Holds Counted) (init : Option (GateJob × Refusal)) :
    (s.recoveryRefused init).Bounded := by
  unfold recoveryRefused
  split
  · next he => exact bounded_finish (holds_none he) init
  · next e he =>
    split
    · exact bounded_suspend h fun _ _ => id
    · next hlt =>
      refine bounded_abort (fun e' he' => ?_) init _
      cases he.symm.trans he'
      exact .inl (Nat.lt_of_not_le hlt)

theorem bounded_recoverDirty (h : s.Holds Left) (init : Option (GateJob × Refusal))
    (value : String) : (s.recoverDirty init value).Bounded := by
  have hc : (s.setEntity fun e => { e with recoveryAttempts := e.recoveryAttempts + 1 }).Holds
      Counted := h.setEntity fun _ he => he
  unfold recoverDirty
  dsimp only
  split
  · exact hc.lockMoved _
  · exact bounded_recoveryRefused (hc.lockMoved _) init
  · exact hc.lockMoved _

theorem bounded_relocked (h : s.Holds Counted) (init : Option (GateJob × Refusal))
    (c : TryLockCall) (ret : Option TxnReply) : (s.relocked init c ret).Bounded := by
  unfold relocked
  split
  · exact h.lockMoved _
  · exact bounded_recoveryRefused (h.lockMoved _) init

theorem bounded_recoveryFailed (h : s.Holds Counted) (init : Option (GateJob × Refusal))
    (r : RecoverResult) : (s.recoveryFailed init r).Bounded := by
  unfold recoveryFailed
  split
  · exact bounded_forget s _ init
  · exact bounded_forget s _ init
  · split
    · next he => exact bounded_finish (holds_none he) init
    · next e he =>
      split
      · exact bounded_suspend h fun _ _ => id
      · next hlt =>
        refine bounded_abort (fun e' he' => ?_) init _
        cases he.symm.trans he'
        exact .inl (Nat.lt_of_not_le hlt)

theorem bounded_recovered (h : s.Holds Counted) (init : Option (GateJob × Refusal)) (n : Nat)
    (r : RecoverResult) : (s.recovered init n r).Bounded := by
  unfold recovered
  split
  · exact bounded_releaseLock (h.setEntity fun _ he => he.calm) init
  · split
    · exact bounded_recoveryFailed (h.lockMoved _) init r
    · exact h.lockMoved _

theorem bounded_unloadEntity (h : s.Holds Calm) (init : Option (GateJob × Refusal)) :
    (s.unloadEntity init).Bounded := by
  unfold unloadEntity
  split
  · exact bounded_finish h init
  · next e he =>
    have hs := h.setEntity (Q := Calm)
      (f := fun e => { MgrEntity.cancelTimers e with unloading := true }) fun _ => id
    dsimp only
    split
    · exact bounded_releaseLock hs init
    · next hp =>
      have hleft : (s.setEntity fun e =>
          { MgrEntity.cancelTimers e with unloading := true }).Holds Left := by
        intro e' he'
        obtain ⟨e₀, he₀, rfl⟩ := Option.map_eq_some_iff.mp he'
        cases he.symm.trans he₀
        exact (h e he).resolve_right fun hc => hp hc.1
      split
      · refine Holds.kickClient ?_ "lease lost"
        exact (hleft.usable e).setEntity fun _ => id
      · split
        · exact (hleft.usable e).mono fun _ _ => Left.calm
        · exact (hleft.usable e).mono fun _ _ => Left.calm

theorem bounded_loadFailed (h : s.Holds Calm) (job : GateJob) (n : Nat) (r : Refusal) :
    (s.loadFailed job n r).Bounded := by
  unfold loadFailed
  dsimp only
  split
  · exact h.isValid n
  · split
    · exact (h.isValid n).lockMoved _
    · exact (h.isValid n).lockMoved _

theorem bounded_loaded (h : s.Holds Calm) (job : GateJob) : (s.loaded job).Bounded := by
  unfold loaded
  split <;> exact h

theorem bounded_ensureLoaded (h : s.Holds Calm) (job : GateJob) (value : String) :
    (s.ensureLoaded job value).Bounded := by
  unfold ensureLoaded
  split
  · next e he =>
    dsimp only
    split
    · exact (h.usable e).onLockExpired _
    · split
      · exact h.usable e
      · split
        · exact bounded_loaded (h.usable e) job
        · exact bounded_loaded (h.usable e).startUnloadTimer job
  · split
    · exact h
    · split
      · exact h.lockMoved _
      · exact h.lockMoved _
      · exact h.lockMoved _

theorem bounded_locked (h : s.Holds Calm) (job : GateJob) (c : TryLockCall)
    (ret : Option TxnReply) : (s.locked job c ret).Bounded := by
  unfold locked
  split
  · exact h.lockMoved _
  · exact h.lockMoved _

theorem bounded_dbLoaded (h : s.Holds Calm) (job : GateJob) (n : Nat) (err : Option String) :
    (s.dbLoaded job n err).Bounded := by
  unfold dbLoaded
  split
  · exact bounded_loadFailed h job n _
  · dsimp only
    split
    · intro e he
      cases he
      exact .inl (Nat.succ_pos 7)
    · exact h.isValid n

theorem bounded_initialized (h : s.Holds Calm) (job : GateJob) (n : Nat) (err : Option String) :
    (s.initialized job n err).Bounded := by
  unfold initialized
  dsimp only
  split
  · refine bounded_unloadEntity ?_ _
    exact h.setEntity fun _ => id
  · split
    · refine bounded_loaded ?_ job
      exact (h.isValid n).startUnloadTimer
    · refine bounded_unloadEntity ?_ _
      exact (h.isValid n).setEntity fun _ => id

theorem bounded_handled (h : s.Holds Calm) (job : GateJob) : (s.handled job).Bounded := by
  unfold handled
  split
  · exact h
  · next e he =>
    have hv : (if job = .withEntity then s.usable e else s.isValid e.handle).1.Holds Calm := by
      split
      · exact h.usable e
      · exact h.isValid _
    generalize (if job = .withEntity then s.usable e else s.isValid e.handle) = p at hv ⊢
    obtain ⟨t, ok⟩ := p
    dsimp only
    split
    · exact hv
    · exact hv.onLockExpired _

theorem bounded_start (h : s.Holds Calm) (job : GateJob) (value : String) :
    (s.start value job).Bounded := by
  unfold start
  split
  · exact bounded_unloadEntity h none
  · split
    · split
      · exact h
      · dsimp only
        split
        · exact h.isValid _
        · exact h.isValid _
    · exact h
  · exact bounded_ensureLoaded h _ _

theorem cacheLoad_entity {n : Nat} (h : s.cacheLoad n = some t) : t.entity = s.entity := by
  simp only [cacheLoad] at h
  split at h
  · cases h
    rfl
  · split at h
    · cases h
      rfl
    · split at h
      · cases h
      · cases h
        rfl

theorem discardClean_entity (s : Entitymgr) (n : Nat) :
    (s.discardClean n).1.entity = s.entity := by
  unfold discardClean
  split <;> rfl

theorem quarantine_entity (s : Entitymgr) (n : Nat) : (s.quarantine n).entity = s.entity := by
  unfold quarantine
  split <;> rfl

theorem cacheUnload_entity {k : Nat} {applied ok : Bool} {p : Entitymgr × Bool}
    (h : s.cacheUnload k applied ok = some p) : p.1.entity = s.entity := by
  simp only [cacheUnload] at h
  split at h
  · cases h
    rfl
  · obtain ⟨u, hu, rfl⟩ := Option.map_eq_some_iff.mp h
    have he := (saveDoc_frame hu).1
    split
    · exact he
    · exact he

theorem cacheRecover_entity {old new : Nat} {r : RecoverResult} {applied : Bool}
    {p : Entitymgr × RecoverResult} (h : s.cacheRecover old new r applied = some p) :
    p.1.entity = s.entity := by
  simp only [cacheRecover] at h
  split at h
  · cases h
    rfl
  · split at h
    · cases h
      rfl
    · split at h
      · obtain ⟨_, h⟩ := Option.ite_none_right_eq_some.mp h
        cases h
        rfl
      · cases h
        rfl
      · cases h
        rfl
      · cases h

theorem Bounded.at (h : s.Bounded) {pc : GatePc} (hr : s.running = some pc) :
    s.Holds (limit (some pc)) := by
  have hl : s.Holds (limit s.running) := h
  rwa [hr] at hl

theorem Bounded.idle (h : s.Bounded) (hr : s.running = none) : s.Holds Calm := by
  have hl : s.Holds (limit s.running) := h
  rwa [hr] at hl

theorem bounded_aside (hr : t.running = s.running)
    (ht : t.Holds (limit s.running)) : t.Bounded := by
  unfold Bounded
  rwa [hr]

theorem Bounded.lockMoved (h : s.Bounded) (m : LockModule) : (s.lockMoved m).Bounded :=
  bounded_aside (lockMoved_running s m) (Holds.lockMoved h m)

theorem Holds.frame (h : s.Holds P) (he : t.entity = s.entity) : t.Holds P :=
  fun e he' => h e (he ▸ he')

theorem Bounded.step (h : s.Bounded) {a : MgrAction} (ht : s.step a = some t) : t.Bounded := by
  cases a with
  | call job =>
    cases ht
    exact h
  | start value =>
    simp only [Entitymgr.step] at ht
    split at ht
    · next job queue hr hq =>
      cases ht
      refine bounded_start ?_ job value
      exact h.idle hr
    · cases ht
  | runForked i =>
    simp only [Entitymgr.step] at ht
    split at ht
    · cases ht
      exact h
    · cases ht
      exact bounded_aside rfl (Holds.setEntity (s := { s with forked := s.forked.eraseIdx i }) h
        fun _ => id)
    · cases ht
  | retryTimer =>
    simp only [Entitymgr.step, Option.ite_none_right_eq_some] at ht
    cases ht.2
    exact bounded_aside rfl (Holds.setEntity h fun _ => id)
  | unloadTimer =>
    simp only [Entitymgr.step, Option.ite_none_right_eq_some] at ht
    cases ht.2
    exact bounded_aside rfl (Holds.setEntity h fun _ => id)
  | deliveryTimer =>
    simp only [Entitymgr.step, Option.ite_none_right_eq_some] at ht
    cases ht.2
    exact bounded_aside rfl (Holds.setEntity h fun _ => id)
  | scheduleDelivery =>
    simp only [Entitymgr.step, Option.ite_none_right_eq_some] at ht
    cases ht.2
    exact bounded_aside rfl (Holds.setEntity h fun _ => id)
  | bind =>
    simp only [Entitymgr.step] at ht
    split at ht
    · cases ht
      exact bounded_aside rfl (Holds.setEntity h fun _ => id)
    · cases ht
  | change =>
    simp only [Entitymgr.step] at ht
    split at ht
    · cases ht
      exact h
    · cases ht
      exact h
    · cases ht
      exact h
    · cases ht
  | save k applied ok =>
    simp only [Entitymgr.step] at ht
    split at ht
    · obtain ⟨he, _, _, hr⟩ := saveDoc_frame ht
      exact bounded_aside hr (Holds.frame h he)
    · cases ht
  | reply ret =>
    simp only [Entitymgr.step] at ht
    split at ht
    · next job c hr =>
      cases ht
      exact bounded_locked (h.at hr) job c ret
    · next job n fence r hr =>
      cases ht
      exact bounded_answer (Holds.unlockReply (h.at hr) n ret) job _
    · next init c hr =>
      cases ht
      exact bounded_relocked (h.at hr) init c ret
    · next init n fence r hr =>
      cases ht
      exact bounded_recoveryFailed (Holds.unlockReply (h.at hr) n ret) init r
    · next init fence hr =>
      cases ht
      exact bounded_released (h.at hr) init ret
    · cases ht
  | dbLoad err =>
    simp only [Entitymgr.step] at ht
    split at ht
    · next job n hr =>
      split at ht
      · obtain ⟨u, hu, rfl⟩ := Option.map_eq_some_iff.mp ht
        exact bounded_dbLoaded (Holds.frame (h.at hr) (cacheLoad_entity hu)) job n none
      · cases ht
        exact bounded_dbLoaded (h.at hr) job n _
    · cases ht
  | discarded value =>
    simp only [Entitymgr.step] at ht
    split at ht
    · next job n hr =>
      cases ht
      exact bounded_loadFailed (Holds.frame (h.at hr) (discardClean_entity s n)) job n _
    · next init e hr he =>
      have hleft : (s.discardClean e.handle).1.Holds Left :=
        Holds.frame (h.at hr) (discardClean_entity s e.handle)
      split at ht
      · cases ht
        exact bounded_forget _ _ init
      · cases ht
        exact bounded_suspend hleft fun _ _ => id
    · next init e hr he =>
      cases ht
      exact bounded_recoverDirty (Holds.frame (h.at hr) (quarantine_entity s e.handle)) init value
    · cases ht
      exact bounded_forget _ _ _
    · cases ht
  | hooks err =>
    simp only [Entitymgr.step] at ht
    split at ht
    · next job n hr =>
      cases ht
      exact bounded_initialized (h.at hr) job n err
    · next init hr =>
      split at ht
      · cases ht
        exact bounded_abort (h.at hr) init _
      · cases ht
        exact Holds.setEntity (h.at hr) fun _ => id
    · cases ht
  | handler =>
    simp only [Entitymgr.step] at ht
    split at ht
    · next job hr =>
      cases ht
      exact bounded_handled (h.at hr) job
    · cases ht
  | dbUnload k applied ok =>
    simp only [Entitymgr.step] at ht
    split at ht
    · next init hr =>
      obtain ⟨p, hp, rfl⟩ := Option.map_eq_some_iff.mp ht
      have hc : p.1.Holds Calm := Holds.frame (h.at hr) (cacheUnload_entity hp)
      split
      · refine bounded_releaseLock ?_ init
        exact hc.setEntity fun _ he => he.counted.calm
      · exact bounded_abort hc init _
    · cases ht
  | dbRecover r applied =>
    simp only [Entitymgr.step] at ht
    split at ht
    · next init n e hr he =>
      obtain ⟨p, hp, rfl⟩ := Option.map_eq_some_iff.mp ht
      exact bounded_recovered (Holds.frame (h.at hr) (cacheRecover_entity hp)) init n p.2
    · cases ht
  | deadline =>
    cases ht
    exact h
  | leaseAlive leaseid epoch late =>
    cases ht
    exact h.lockMoved _
  | leaseLost epoch =>
    cases ht
    exact h.lockMoved _
  | leaseCheck =>
    cases ht
    exact h.lockMoved _
  | shutdown =>
    cases ht
    refine bounded_aside ?_ (Holds.frame h ?_) <;> split <;> rfl
  | shutdownDone =>
    simp only [Entitymgr.step, Option.ite_none_right_eq_some] at ht
    cases ht.2
    exact h

theorem bounded_reaches (h : system.Reaches ok s) : s.Bounded := by
  apply h.invariant (fun s hs => ?_) fun _ _ _ hi _ ht => hi.step ht
  obtain ⟨resident, rfl⟩ := hs
  exact holds_none rfl

/-- The entity stays, and a flag of it stays up. -/
def Keeps (s t : Entitymgr) : Prop :=
  ∀ e, s.entity = some e → ∃ e', t.entity = some e' ∧ e'.handle = e.handle ∧
    (e.invalid = true → e'.invalid = true) ∧ e'.unloading = e.unloading

theorem kickClient_entity (s : Entitymgr) (reason : String) :
    (s.kickClient reason).entity = s.entity := by
  unfold kickClient
  split <;> rfl

theorem onLockExpired_keeps (s : Entitymgr) (n : Nat) : s.Keeps (s.onLockExpired n) := by
  intro e he
  unfold onLockExpired
  split
  · refine ⟨{ MgrEntity.cancelTimers e with invalid := true }, ?_, rfl, fun _ => rfl, rfl⟩
    exact (kickClient_entity _ _).trans (congrArg (Option.map _) he)
  · exact ⟨e, he, rfl, id, rfl⟩

theorem lockMoved_keeps (s : Entitymgr) (m : LockModule) : s.Keeps (s.lockMoved m) := by
  intro e he
  unfold lockMoved
  dsimp only
  split
  · split
    · exact onLockExpired_keeps { s with lock := m } _ e he
    · exact ⟨e, he, rfl, id, rfl⟩
  · exact ⟨e, he, rfl, id, rfl⟩

theorem onLockExpired_invalid (he : s.entity = some e) :
    ∃ e', (s.onLockExpired e.handle).entity = some e' ∧ e'.invalid = true := by
  unfold onLockExpired
  split
  · exact ⟨{ MgrEntity.cancelTimers e with invalid := true },
      (kickClient_entity _ _).trans (congrArg (Option.map _) he), rfl⟩
  · next hv =>
    refine ⟨e, he, ?_⟩
    simpa [he] using hv

theorem onLockExpired_answers (s : Entitymgr) (n : Nat) :
    (s.onLockExpired n).answers = s.answers := by
  unfold onLockExpired
  split
  · dsimp only [fork]
    unfold kickClient
    split <;> rfl
  · rfl

theorem lockMoved_answers (s : Entitymgr) (m : LockModule) :
    (s.lockMoved m).answers = s.answers := by
  unfold lockMoved
  dsimp only
  split
  · split
    · exact onLockExpired_answers _ _
    · rfl
  · rfl

/-- `_ensure_loaded` has refused with an answer. -/
def Refused (s t : Entitymgr) (job : GateJob) (r : Refusal) : Prop :=
  t.answers = (job, some r) :: s.answers

theorem answer_refused {r' : Option Refusal} {r : Refusal}
    (hr : s.Refused (t.answer job r') job r) : r' = some r := by
  have h' : (job, r') :: t.answers = (job, some r) :: s.answers := hr
  exact (Prod.mk.inj (List.cons.inj h').1).2

theorem not_refused (h : t.answers = s.answers) (r : Refusal) : ¬ s.Refused t job r := by
  intro hr
  have he : (job, some r) :: s.answers = s.answers := hr.symm.trans h
  exact absurd he (List.cons_ne_self _ _)

theorem loaded_not_refused (h : t.answers = s.answers) (r : Refusal) :
    ¬ s.Refused (t.loaded job) job r := by
  unfold loaded
  split
  · intro hr
    cases answer_refused hr
  · exact not_refused h r

/-- Who is refused as unloading or with an expired lease meets an entity that is flagged. -/
theorem ensureLoaded_refused {value : String} {r : Refusal}
    (hr : s.Refused (s.ensureLoaded job value) job r) (hu : r = .unloading ∨ r = .leaseExpired) :
    ∃ e, (s.ensureLoaded job value).entity = some e ∧ e.flagged = true := by
  unfold ensureLoaded at hr ⊢
  split at hr
  · next e he =>
    have hkeep : s.Keeps (s.usable e).1 := by
      unfold usable
      split
      · exact fun e he => ⟨e, he, rfl, id, rfl⟩
      · exact lockMoved_keeps s _
    have hans : (s.usable e).1.answers = s.answers := by
      unfold usable
      split
      · rfl
      · exact lockMoved_answers s _
    obtain ⟨e', he', hh, _, hunl⟩ := hkeep e he
    dsimp only
    dsimp only at hr
    split at hr
    · next hn =>
      obtain ⟨e'', he'', hi⟩ := onLockExpired_invalid he'
      rw [hh] at he''
      rw [if_pos hn]
      exact ⟨e'', he'', by simp [MgrEntity.flagged, hi]⟩
    · next hn =>
      split at hr
      · next hunload =>
        rw [if_neg hn, if_pos hunload]
        exact ⟨e', he', by simp [MgrEntity.flagged, hunl, hunload]⟩
      · split at hr
        · exact absurd hr (loaded_not_refused hans r)
        · refine absurd hr (loaded_not_refused ?_ r)
          unfold startUnloadTimer
          split <;> exact hans
  · next he =>
    have hno : ∀ r', (∀ reason, r' = Refusal.lock reason ∨ r' = .shuttingDown → r ≠ r') := by
      rintro r' reason (rfl | rfl) hc
      · rcases hu with rfl | rfl <;> cases hc
      · rcases hu with rfl | rfl <;> cases hc
    split at hr
    · exact absurd (Option.some.inj (answer_refused hr)).symm (hno _ "" (.inr rfl))
    · split at hr
      · exact absurd hr (not_refused (lockMoved_answers s _) r)
      · next reason owner _ =>
        exact absurd (Option.some.inj (answer_refused hr)).symm
          (hno _ reason (.inl rfl))
      · exact absurd hr (not_refused (lockMoved_answers s _) r)

/-- No entity gets stuck half-unloaded: an unload of it is to come or at work, and one that no call
fails leaves no entity behind. -/
structure NotStuck (s : Entitymgr) : Prop where
  tended : ∀ e, s.entity = some e → e.flagged = true → s.Unloading ∨ s.Waiting
  attempts : ∀ e, s.entity = some e → e.recoveryAttempts ≤ dirtyRecoveryMaxAttempts
  atRest : ∀ e, s.entity = some e → s.running = none → e.persisted = false →
    e.recoveryAttempts < dirtyRecoveryMaxAttempts
  lastStart : ∀ e init value m reason owner, s.entity = some e →
    s.running = some (.quarantining init) → e.recoveryAttempts + 1 = dirtyRecoveryMaxAttempts →
    s.lock.tryLockStart value = (m, .inl (.refused reason owner)) →
    ∃ t, s.step (.discarded value) = some t ∧ t.running = some (.givingUp init)
  lastAttempt : ∀ e init c ret m reason owner, s.entity = some e →
    s.running = some (.relocking init c) → e.recoveryAttempts = dirtyRecoveryMaxAttempts →
    s.lock.tryLockReply c ret = (m, .refused reason owner) →
    ∃ t, s.step (.reply ret) = some t ∧ t.running = some (.givingUp init)
  givenUp : ∀ init value t, s.running = some (.givingUp init) →
    s.step (.discarded value) = some t → t.entity = none
  refused : ∀ job value r, s.Refused (s.ensureLoaded job value) job r →
    r = .unloading ∨ r = .leaseExpired →
    ∃ e, (s.ensureLoaded job value).entity = some e ∧ e.flagged = true
  begins : ∀ value queue t, s.running = none → s.queue = .unload :: queue →
    s.step (.start value) = some t → t.callsLeft ≤ 6 ∧ (t.Unloading ∨ t.entity = none)
  answered : ∀ a t, s.Unloading → s.step a = some t →
    t.running = s.running ∨ t.callsLeft < s.callsLeft
  ends : ∀ a t, s.Unloading → s.step a = some t → ¬ t.Unloading → t.entity = none ∨ s.Fails a

theorem finish_entity (s : Entitymgr) (init : Option (GateJob × Refusal)) :
    (s.finish init).entity = s.entity := by
  unfold finish
  split <;> rfl

theorem forget_entity (s : Entitymgr) (cause : EvictionCause) : (s.forget cause).entity = none := by
  unfold forget
  split
  · rfl
  · assumption

theorem recoveryRefused_last (he : s.entity = some e)
    (hn : e.recoveryAttempts = dirtyRecoveryMaxAttempts) :
    (s.recoveryRefused init).running = some (.givingUp init) := by
  unfold recoveryRefused
  rw [he]
  dsimp only
  rw [if_pos (Nat.le_of_eq hn.symm)]
  rfl

theorem lockMoved_attempts (m : LockModule) (he : s.entity = some e) :
    ∃ e', (s.lockMoved m).entity = some e' ∧ e'.recoveryAttempts = e.recoveryAttempts := by
  have hh : s.Holds fun _ n => n = e.recoveryAttempts := by
    intro e' he'
    cases he.symm.trans he'
    rfl
  obtain ⟨e', he', _⟩ := lockMoved_keeps s m e he
  exact ⟨e', he', hh.lockMoved m e' he'⟩

theorem limit_counted {pc : Option GatePc} {p : Bool} {n : Nat} (h : limit pc p n) :
    n ≤ dirtyRecoveryMaxAttempts := by
  cases pc with
  | none => exact Calm.counted h
  | some pc =>
    cases pc with
    | discardingClean init => exact Nat.le_of_lt h
    | quarantining init => exact Nat.le_of_lt h
    | relocking init c => exact h
    | recovering init n => exact h
    | unlockingRecovery init n fence r => exact h
    | givingUp init => exact h
    | _ => exact Calm.counted h

theorem givingUp_gone {value : String} (hr : s.running = some (.givingUp init))
    (ht : s.step (.discarded value) = some t) : t.entity = none := by
  cases he : s.entity with
  | none =>
    simp only [Entitymgr.step, hr, he] at ht
    cases ht
  | some e =>
    simp only [Entitymgr.step, hr, he] at ht
    cases ht
    rw [finish_entity, forget_entity]

theorem recoverDirty_last {value reason : String} {m : LockModule} {owner : Option String}
    (he : s.entity = some e) (hn : e.recoveryAttempts + 1 = dirtyRecoveryMaxAttempts)
    (hm : s.lock.tryLockStart value = (m, .inl (.refused reason owner))) :
    (s.recoverDirty init value).running = some (.givingUp init) := by
  have he₁ : (s.setEntity fun e =>
      { e with recoveryAttempts := e.recoveryAttempts + 1 }).entity =
        some { e with recoveryAttempts := e.recoveryAttempts + 1 } := congrArg (Option.map _) he
  obtain ⟨e', he', hn'⟩ := lockMoved_attempts m he₁
  have hs : (s.setEntity fun e => { e with recoveryAttempts := e.recoveryAttempts + 1 }).lock =
      s.lock := rfl
  simp only [recoverDirty, hs, hm]
  exact recoveryRefused_last he' (hn'.trans hn)

theorem start_unload {queue : List GateJob} {value : String} (hr : s.running = none)
    (hq : s.queue = .unload :: queue) (ht : s.step (.start value) = some t) :
    t.callsLeft ≤ 6 ∧ (t.Unloading ∨ t.entity = none) := by
  obtain ⟨u, rfl⟩ : ∃ u : Entitymgr, t = u.unloadEntity none := by
    simp only [Entitymgr.step, hr, hq] at ht
    exact ⟨_, (Option.some.inj ht).symm⟩
  have hends := unloadEntity_ends u none
  refine ⟨hends.shorter, ?_⟩
  rcases Nat.eq_zero_or_pos (u.unloadEntity none).callsLeft with h0 | hpos
  · exact .inr ((hends.gone h0).resolve_right id)
  · exact .inl (unloading_iff.mpr hpos)

theorem unload_answered {a : MgrAction} (hu : s.Unloading) (ht : s.step a = some t) :
    t.running = s.running ∨ t.callsLeft < s.callsLeft := by
  rcases unload_step hu ht with hr | ⟨n, hn, hends⟩
  · exact .inl hr
  · exact .inr (hn ▸ Nat.lt_succ_of_le hends.shorter)

theorem unload_ends {a : MgrAction} (hu : s.Unloading) (ht : s.step a = some t)
    (hnot : ¬ t.Unloading) : t.entity = none ∨ s.Fails a := by
  rcases unload_step hu ht with hr | ⟨n, _, hends⟩
  · obtain ⟨pc, hpc, hu⟩ := hu
    exact absurd ⟨pc, hr.trans hpc, hu⟩ hnot
  · exact hends.gone (Nat.eq_zero_of_not_pos (mt unloading_iff.mpr hnot))

theorem not_stuck (h : system.Reaches anyStep s) : s.NotStuck := by
  have ht := tended_reaches h
  have hb := bounded_reaches h
  refine ⟨fun e he hf => ht.imp id fun hc => hc e he hf, fun e he => limit_counted (hb e he),
    fun e he hr hp => ?_, fun e init value m reason owner he hr hn hm => ?_,
    fun e init c ret m reason owner he hr hn hm => ?_,
    fun init value t hr hs => givingUp_gone hr hs, fun job value r => ensureLoaded_refused,
    fun value queue t => start_unload, fun a t => unload_answered, fun a t => unload_ends⟩
  · exact (hb.idle hr e he).resolve_right fun hc => by simp [hp] at hc
  · refine ⟨(s.quarantine e.handle).recoverDirty init value, ?_, ?_⟩
    · simp only [Entitymgr.step, hr, he]
    · exact recoverDirty_last ((quarantine_entity s _).trans he) hn
        ((quarantine_lock s _).symm ▸ hm)
  · obtain ⟨e', he', hn'⟩ := lockMoved_attempts m he
    refine ⟨s.relocked init c ret, by simp only [Entitymgr.step, hr], ?_⟩
    rw [relocked, hm]
    exact recoveryRefused_last he' (hn'.trans hn)

/-- A changed entity whose lease is lost, and whose recovery finds no lease to lock it with. -/
def halfUnloaded : Entitymgr :=
  system.run anyStep (fresh false)
    [.leaseAlive ⟨0, 0⟩ 1 false, .call .withEntity, .start "a", .reply (some ⟨true, some 5, none⟩),
      .dbLoad none, .hooks none, .change, .handler, .leaseLost 1, .runForked 1, .start "a",
      .discarded "a", .discarded "a"] (by decide +kernel)

theorem halfUnloaded_retries : halfUnloaded.running = none ∧
    (halfUnloaded.entity.any fun e => e.invalid && e.unloadRetry && e.recoveryAttempts == 1) =
      true := by decide +kernel

theorem not_stuck_halfUnloaded : halfUnloaded.NotStuck :=
  not_stuck (system.run_reaches anyStep _ ⟨false, rfl⟩ (by decide +kernel))

/-- An entity whose unload hook has failed `n` times, while others were answered. -/
def hookFailed (n : Nat) (answers : List (GateJob × Option Refusal)) : Entitymgr :=
  { lock := ⟨⟨some ⟨0, 0⟩, 1, false⟩, [⟨5, ⟨0, 0⟩, 1, true⟩], some 0, false⟩
    entity := some { handle := 0, unloading := true, unloadRetry := true, unloadRetries := n }
    queue := []
    running := none
    forked := []
    closing := false
    down := false
    resident := false
    cache := some ⟨0, true⟩
    changes := 0
    saved := 0
    stored := 0
    docFence := 5
    answers := answers
    evicted := []
    unlocks := [] }

/-- The entity is asked for, its retry timer fires, and the hook fails once more. -/
def failedRetry : List MgrAction :=
  [.call .withEntity, .start "a", .retryTimer, .start "a", .hooks (some "unload hook failed")]

def firstFailure : List MgrAction :=
  [.leaseAlive ⟨0, 0⟩ 1 false, .call .withEntity, .start "a", .reply (some ⟨true, some 5, none⟩),
    .dbLoad none, .hooks none, .handler, .runForked 0, .start "a", .handler, .unloadTimer,
    .start "a", .hooks (some "unload hook failed")]

theorem firstFailure_hookFailed : system.exec anyStep (fresh false) firstFailure =
    some (hookFailed 1 [(.withEntity, none), (.withEntity, none)]) := rfl

theorem failedRetry_hookFailed (n : Nat) (answers : List (GateJob × Option Refusal)) :
    system.exec anyStep (hookFailed n answers) failedRetry =
      some (hookFailed (n + 1) ((.withEntity, some .unloading) :: answers)) := rfl

/-- The states after each of its failed retries. -/
def retried (k : Nat) : Entitymgr :=
  hookFailed (k + 1) (List.replicate k (.withEntity, some .unloading) ++
    [(.withEntity, none), (.withEntity, none)])

theorem retried_reaches (k : Nat) : system.Reaches anyStep (retried k) := by
  induction k with
  | zero =>
    have hfresh : system.Reaches anyStep (fresh false) := .init ⟨false, rfl⟩
    exact hfresh.exec firstFailure_hookFailed
  | succ k ih => exact ih.exec (failedRetry_hookFailed _ _)

theorem refused_forever : ∃ σ : ℕ → Entitymgr, ∀ k,
    system.Reaches anyStep (σ k) ∧ system.exec anyStep (σ k) failedRetry = some (σ (k + 1)) ∧
      (σ (k + 1)).answers = (.withEntity, some .unloading) :: (σ k).answers :=
  ⟨retried, fun k => ⟨retried_reaches k, failedRetry_hookFailed _ _, rfl⟩⟩

end Entitymgr

end Skyext
