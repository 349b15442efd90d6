import Skyext.Lock.Invariant
import Skyext.Entity.Tended

namespace Skyext
set_option autoImplicit true

open Machine
open LockModule (TryLockCall LockResult)

variable {fenced : Prop} {s t : Entitymgr} {e : MgrEntity} {init : Option (GateJob × Refusal)}
  {job : GateJob}

/-- The document of the id: which handle the entity in memory has and whether it was persisted,
the cache entry of dbmgr, and what became of the changes. -/
structure Doc where
  key : Option (Nat × Bool)
  cache : Option MgrCache
  changes : Nat
  saved : Nat
  stored : Nat
  docFence : Nat
  evicted : List Eviction
  unlocks : List UnlockSent

def EvictionCause.loses : EvictionCause → Bool
  | .superseded => true
  | .gaveUp => true
  | _ => false

/-- The entity left no cache entry behind, and no change but by a loss that was accepted. -/
def Eviction.Fair (x : Eviction) : Prop :=
  (x.cache.any fun c => c.handle = x.handle) = false ∧
    (x.cause.loses = true ∨ x.stored = x.changes)

/-- What the coroutine with the gate has got hold of. -/
inductive DocPhase
  | rest
  | loads
  | loaded (h : Nat)
  | unloads
  | releases
  | superseded
  | never

namespace Doc

/-- `fenced` is whether unlocks are to wait for the changes made under their lock. -/
structure Sound (d : Doc) (fenced : Prop) : Prop where
  saved_le : d.saved ≤ d.stored
  stored_le : d.stored ≤ d.changes
  evicted : ∀ x ∈ d.evicted, x.Fair
  unlocks : fenced → ∀ u ∈ d.unlocks, u.fence = u.docFence → u.unsaved = false

def Free (d : Doc) : Prop := d.key = none ∧ d.cache = none

def Cached (d : Doc) : Prop := ∃ h, d.key = some (h, false) ∧ ∃ c, d.cache = some c ∧ c.handle = h

def Persisted (d : Doc) : Prop :=
  ∃ h, d.key = some (h, true) ∧ d.cache = none ∧ d.saved = d.changes

/-- The cache entry goes with the entity, from the load to the save that ends it. -/
def At (d : Doc) : DocPhase → Prop
  | .rest => d.Free ∨ d.Cached ∨ d.Persisted
  | .loads => d.Free
  | .loaded h => d.key = none ∧ (∃ c, d.cache = some c ∧ c.handle = h) ∧ d.saved = d.changes
  | .unloads => d.Cached
  | .releases => d.Persisted
  | .superseded => (∃ h, d.key = some (h, false)) ∧ d.cache = none
  | .never => False

def dirty (d : Doc) : Bool := decide (d.saved < d.changes)

variable {d : Doc}

theorem Free.rest (h : d.Free) : d.At .rest := .inl h

theorem Cached.rest (h : d.Cached) : d.At .rest := .inr (.inl h)

theorem Persisted.rest (h : d.Persisted) : d.At .rest := .inr (.inr h)

theorem not_dirty (h : d.saved = d.changes) : d.dirty = false := by simp [dirty, h]

theorem Sound.stored_all (hs : d.Sound fenced) (h : d.saved = d.changes) : d.stored = d.changes :=
  Nat.le_antisymm hs.stored_le (h ▸ hs.saved_le)

theorem Sound.saved_all (hs : d.Sound fenced) (h : d.dirty = false) : d.saved = d.changes :=
  Nat.le_antisymm (Nat.le_trans hs.saved_le hs.stored_le) (Nat.le_of_not_lt (of_decide_eq_false h))

theorem Persisted.stored (h : d.Persisted) (hs : d.Sound fenced) : d.stored = d.changes := by
  obtain ⟨_, _, _, hsaved⟩ := h
  exact hs.stored_all hsaved

theorem Persisted.cache (h : d.Persisted) : d.cache = none := by
  obtain ⟨_, _, hc, _⟩ := h
  exact hc

theorem Persisted.not_dirty (h : d.Persisted) : d.dirty = false := by
  obtain ⟨_, _, _, hsaved⟩ := h
  exact Doc.not_dirty hsaved

end Doc

def RecoverResult.phase : RecoverResult → DocPhase
  | .superseded => .superseded
  | .failed _ => .unloads
  | _ => .never

def GatePc.phase : GatePc → DocPhase
  | .locking .. => .loads
  | .loading .. => .loads
  | .discardingLoaded _ h => .loaded h
  | .unlockingLoad .. => .loads
  | .initializing .. => .rest
  | .handling _ => .rest
  | .unlockingRecovery _ _ _ r => r.phase
  | .releasing .. => .releases
  | _ => .unloads

namespace Entitymgr

def doc (s : Entitymgr) : Doc :=
  ⟨s.entity.map fun e => (e.handle, e.persisted), s.cache, s.changes, s.saved, s.stored,
    s.docFence, s.evicted, s.unlocks⟩

def phase (s : Entitymgr) : DocPhase := (s.running.map GatePc.phase).getD .rest

/-- The gate, the entity and the cache agree on who has the document. -/
def Kept (s : Entitymgr) (fenced : Prop) : Prop := s.doc.Sound fenced ∧ s.doc.At s.phase

theorem doc_setEntity (s : Entitymgr) {f : MgrEntity → MgrEntity}
    (hf : ∀ e, ((f e).handle, (f e).persisted) = (e.handle, e.persisted)) :
    (s.setEntity f).doc = s.doc := by
  have hk : (s.setEntity f).entity.map (fun e => (e.handle, e.persisted)) =
      s.entity.map fun e => (e.handle, e.persisted) := by
    simp only [setEntity, Option.map_map, Function.comp_def, hf]
  simp only [doc, hk]
  rfl

@[simp] theorem doc_fork (s : Entitymgr) (j : Forked) : (s.fork j).doc = s.doc := rfl

@[simp] theorem doc_kickClient (s : Entitymgr) (reason : String) :
    (s.kickClient reason).doc = s.doc := by
  unfold kickClient
  split <;> rfl

@[simp] theorem doc_onLockExpired (s : Entitymgr) (n : Nat) : (s.onLockExpired n).doc = s.doc := by
  unfold onLockExpired
  split
  · refine (doc_kickClient _ "lease lost").trans ?_
    exact doc_setEntity s fun _ => rfl
  · rfl

@[simp] theorem doc_lockMoved (s : Entitymgr) (m : LockModule) : (s.lockMoved m).doc = s.doc := by
  unfold lockMoved
  dsimp only
  split
  · split
    · exact doc_onLockExpired _ _
    · rfl
  · rfl

@[simp] theorem doc_isValid (s : Entitymgr) (n : Nat) : (s.isValid n).1.doc = s.doc :=
  doc_lockMoved s _

@[simp] theorem doc_usable (s : Entitymgr) (e : MgrEntity) : (s.usable e).1.doc = s.doc := by
  unfold usable
  split
  · rfl
  · exact doc_isValid s _

@[simp] theorem doc_unlockReply (s : Entitymgr) (n : Nat) (ret : Option TxnReply) :
    (s.unlockReply n ret).1.doc = s.doc := by
  unfold unlockReply
  dsimp only
  split
  · rfl
  · exact doc_lockMoved s _

@[simp] theorem doc_scheduleUnloadRetry (s : Entitymgr) : s.scheduleUnloadRetry.doc = s.doc := by
  apply doc_setEntity
  intro e
  split <;> rfl

@[simp] theorem doc_startUnloadTimer (s : Entitymgr) : s.startUnloadTimer.doc = s.doc := by
  unfold startUnloadTimer
  split
  · rfl
  · exact doc_setEntity s fun _ => rfl

@[simp] theorem doc_setInvalid (s : Entitymgr) :
    (s.setEntity fun e => { e with invalid := true }).doc = s.doc := doc_setEntity s fun _ => rfl

@[simp] theorem doc_setInitFailed (s : Entitymgr) :
    (s.setEntity fun e => { e with initFailed := true }).doc = s.doc :=
  doc_setEntity s fun _ => rfl

@[simp] theorem doc_setHooksRun (s : Entitymgr) :
    (s.setEntity fun e => { e with hooksRun := true }).doc = s.doc :=
  doc_setEntity s fun _ => rfl

theorem kept_suspend (s : Entitymgr) (pc : GatePc) (hs : s.doc.Sound fenced)
    (h : s.doc.At pc.phase) :
    (s.suspend pc).Kept fenced := ⟨hs, h⟩

theorem kept_answer (s : Entitymgr) (job : GateJob) (r : Option Refusal) (hs : s.doc.Sound fenced)
    (h : s.doc.At .rest) : (s.answer job r).Kept fenced := ⟨hs, h⟩

theorem kept_finish (s : Entitymgr) (init : Option (GateJob × Refusal)) (hs : s.doc.Sound fenced)
    (h : s.doc.At .rest) : (s.finish init).Kept fenced := by
  unfold finish
  split
  · exact ⟨hs, h⟩
  · exact kept_answer s _ _ hs h

theorem kept_forget (s : Entitymgr) (cause : EvictionCause)
    (init : Option (GateJob × Refusal)) (hs : s.doc.Sound fenced) (hc : s.doc.cache = none)
    (hl : cause.loses = true ∨ s.doc.stored = s.doc.changes) :
    ((s.forget cause).finish init).Kept fenced := by
  unfold forget
  split
  · next e he =>
    apply kept_finish
    · refine ⟨hs.saved_le, hs.stored_le, fun x hx => ?_, hs.unlocks⟩
      rcases List.mem_cons.mp hx with rfl | hx
      · exact ⟨congrArg (Option.any _) hc, hl⟩
      · exact hs.evicted x hx
    · exact .inl ⟨rfl, hc⟩
  · next he =>
    apply kept_finish s init hs
    exact .inl ⟨by simp [doc, he], hc⟩

theorem Kept.of_doc (h : s.Kept fenced) (hd : t.doc = s.doc) (hr : t.running = s.running) :
    t.Kept fenced := by
  unfold Kept phase
  rw [hd, hr]
  exact h

/-- An unlock goes out for a fence that nothing unsaved depends on. -/
theorem kept_unlockSend (s : Entitymgr) (fence : Nat) (pc : GatePc) (hs : s.doc.Sound fenced)
    (h : s.doc.At pc.phase) (hf : fenced → fence = s.doc.docFence → s.doc.dirty = false) :
    (s.unlockSend fence pc).Kept fenced := by
  refine ⟨⟨hs.saved_le, hs.stored_le, hs.evicted, fun hfenced u hu => ?_⟩, h⟩
  rcases List.mem_cons.mp hu with rfl | hu
  · exact hf hfenced
  · exact hs.unlocks hfenced u hu

theorem kept_abort (s : Entitymgr) (init : Option (GateJob × Refusal)) (reason : String)
    (hs : s.doc.Sound fenced) (h : s.doc.At .rest) : (s.abortUnload init reason).Kept fenced := by
  apply kept_finish <;> simpa

theorem kept_releaseLock (s : Entitymgr) (init : Option (GateJob × Refusal))
    (hs : s.doc.Sound fenced) (h : s.doc.Persisted) : (s.releaseLock init).Kept fenced := by
  unfold releaseLock
  split
  · exact kept_finish s init hs h.rest
  · next e he =>
    have hd : ((s.kickClient "entity unloaded").isValid e.handle).1.doc = s.doc := by simp
    dsimp only
    split
    · apply kept_forget <;> rw [hd]
      · exact hs
      · exact h.cache
      · exact .inr (h.stored hs)
    · split
      · apply kept_finish <;> rw [doc_scheduleUnloadRetry, doc_lockMoved, hd]
        · exact hs
        · exact h.rest
      · apply kept_unlockSend <;> rw [doc_lockMoved, hd]
        · exact hs
        · exact h
        · exact fun _ _ => h.not_dirty

theorem kept_released (s : Entitymgr) (init : Option (GateJob × Refusal))
    (ret : Option TxnReply) (hs : s.doc.Sound fenced) (h : s.doc.Persisted) :
    (s.released init ret).Kept fenced := by
  unfold released
  split
  · exact kept_finish s init hs h.rest
  · dsimp only
    split
    · apply kept_forget <;> rw [doc_unlockReply]
      · exact hs
      · exact h.cache
      · exact .inr (h.stored hs)
    · apply kept_finish <;> rw [doc_scheduleUnloadRetry, doc_unlockReply]
      · exact hs
      · exact h.rest

theorem kept_recoveryRefused (s : Entitymgr) (init : Option (GateJob × Refusal))
    (hs : s.doc.Sound fenced) (h : s.doc.Cached) : (s.recoveryRefused init).Kept fenced := by
  unfold recoveryRefused
  split
  · exact kept_finish s init hs h.rest
  · split
    · exact kept_suspend s _ hs h
    · exact kept_abort s init _ hs h.rest

theorem kept_recoverDirty (s : Entitymgr) (init : Option (GateJob × Refusal)) (value : String)
    (hs : s.doc.Sound fenced) (h : s.doc.Cached) : (s.recoverDirty init value).Kept fenced := by
  have hd : (s.setEntity fun e =>
      { e with recoveryAttempts := e.recoveryAttempts + 1 }).doc = s.doc :=
    doc_setEntity s fun _ => rfl
  unfold recoverDirty
  dsimp only
  split
  · apply kept_suspend <;> rw [doc_lockMoved, hd]
    · exact hs
    · exact h
  · apply kept_recoveryRefused <;> rw [doc_lockMoved, hd]
    · exact hs
    · exact h
  · apply kept_suspend <;> rw [doc_lockMoved, hd]
    · exact hs
    · exact h

theorem kept_relocked (s : Entitymgr) (init : Option (GateJob × Refusal)) (c : TryLockCall)
    (ret : Option TxnReply) (hs : s.doc.Sound fenced) (h : s.doc.Cached) :
    (s.relocked init c ret).Kept fenced := by
  unfold relocked
  split
  · apply kept_suspend <;> rw [doc_lockMoved]
    · exact hs
    · exact h
  · apply kept_recoveryRefused <;> rw [doc_lockMoved]
    · exact hs
    · exact h

theorem kept_recoveryFailed (s : Entitymgr) (init : Option (GateJob × Refusal))
    (r : RecoverResult) (hs : s.doc.Sound fenced) (h : s.doc.At r.phase) :
    (s.recoveryFailed init r).Kept fenced := by
  cases r with
  | recovered => exact h.elim
  | superseded => exact kept_forget s _ init hs h.2 (.inl rfl)
  | cacheReplaced => exact h.elim
  | failed reason =>
    have hc : s.doc.Cached := h
    simp only [recoveryFailed]
    split
    · exact kept_finish s init hs hc.rest
    · split
      · exact kept_suspend s _ hs h
      · exact kept_abort s init _ hs hc.rest

/-- The lock is held whose fence the changes were made under, and some are unsaved. -/
def retaken (s : Entitymgr) (n : Nat) : Bool :=
  s.lock.isValid n && decide (s.fenceOf n = s.docFence) && s.dirty

theorem unlockStart_fence {m : LockModule} {fence : Nat}
    (h : s.lock.unlockStart n = (m, .inr fence)) :
    s.lock.isValid n = true ∧ fence = s.fenceOf n := by
  unfold LockModule.unlockStart at h
  split at h
  · next hv =>
    cases h
    exact ⟨hv, rfl⟩
  · cases h

/-- Unless the lock was retaken, its unlock leaves nothing unsaved behind. -/
theorem retaken_not_dirty {m : LockModule} {fence : Nat}
    (h : s.lock.unlockStart n = (m, .inr fence)) (hn : s.retaken n = false)
    (hf : fence = s.docFence) : s.dirty = false := by
  obtain ⟨hv, rfl⟩ := unlockStart_fence h
  simpa [retaken, hv, hf] using hn

theorem retaken_isValid (hv : s.lock.isValid n = true) :
    (s.isValid n).1.retaken n = s.retaken n := by
  have hl : (s.isValid n).1.lock = s.lock :=
    (lockMoved_lock s _).trans (LockModule.checkHandle_valid hv)
  have hf : (s.isValid n).1.docFence = s.docFence := congrArg Doc.docFence (doc_isValid s n)
  have hd : (s.isValid n).1.dirty = s.dirty := congrArg Doc.dirty (doc_isValid s n)
  rw [retaken, retaken, fenceOf, fenceOf, hl, hf, hd]

theorem kept_recovered (s : Entitymgr) (init : Option (GateJob × Refusal)) (n : Nat)
    (hs : s.doc.Sound fenced) (hk : ∃ h p, s.doc.key = some (h, p)) (hc : s.doc.cache = none)
    (hsaved : s.doc.saved = s.doc.changes) : (s.recovered init n .recovered).Kept fenced := by
  obtain ⟨h, p, hk⟩ := hk
  simp only [recovered]
  refine kept_releaseLock _ init ⟨hs.saved_le, hs.stored_le, hs.evicted, hs.unlocks⟩
    ⟨n, ?_, hc, hsaved⟩
  obtain ⟨e, he, -⟩ := Option.map_eq_some_iff.mp hk
  simp only [doc, setEntity, he, Option.map_some]

theorem kept_recovered_not (s : Entitymgr) (init : Option (GateJob × Refusal)) (n : Nat)
    (r : RecoverResult) (hs : s.doc.Sound fenced) (h : s.doc.At r.phase)
    (hn : fenced → s.retaken n = false) : (s.recovered init n r).Kept fenced := by
  cases r with
  | recovered => exact h.elim
  | cacheReplaced => exact h.elim
  | superseded =>
    simp only [recovered]
    split
    · apply kept_recoveryFailed <;> rw [doc_lockMoved]
      · exact hs
      · exact h
    · next hu =>
      apply kept_unlockSend <;> rw [doc_lockMoved]
      · exact hs
      · exact h
      · exact fun hfenced => retaken_not_dirty hu (hn hfenced)
  | failed reason =>
    simp only [recovered]
    split
    · apply kept_recoveryFailed <;> rw [doc_lockMoved]
      · exact hs
      · exact h
    · next hu =>
      apply kept_unlockSend <;> rw [doc_lockMoved]
      · exact hs
      · exact h
      · exact fun hfenced => retaken_not_dirty hu (hn hfenced)

theorem key_eq (he : s.entity = some e) : s.doc.key = some (e.handle, e.persisted) :=
  congrArg (Option.map _) he

theorem rest_persisted (h : s.doc.At .rest) (he : s.entity = some e)
    (hp : e.persisted = true) : s.doc.Persisted := by
  rcases h with h | ⟨n, hn, _⟩ | h
  · cases (key_eq he).symm.trans h.1
  · have hk := Option.some.inj ((key_eq he).symm.trans hn)
    rw [hp] at hk
    cases hk
  · exact h

theorem rest_cached (h : s.doc.At .rest) (he : s.entity = some e)
    (hp : ¬ e.persisted = true) : s.doc.Cached := by
  rcases h with h | h | ⟨n, hn, _⟩
  · cases (key_eq he).symm.trans h.1
  · exact h
  · have hk := Option.some.inj ((key_eq he).symm.trans hn)
    exact absurd (congrArg Prod.snd hk) hp

theorem rest_free (h : s.doc.At .rest) (he : s.entity = none) : s.doc.Free := by
  have hk : s.doc.key = none := congrArg (Option.map _) he
  rcases h with h | ⟨n, hn, _⟩ | ⟨n, hn, _⟩
  · exact h
  · cases hk.symm.trans hn
  · cases hk.symm.trans hn

theorem kept_unloadEntity (s : Entitymgr) (init : Option (GateJob × Refusal))
    (hs : s.doc.Sound fenced) (h : s.doc.At .rest) : (s.unloadEntity init).Kept fenced := by
  unfold unloadEntity
  split
  · exact kept_finish s init hs h
  · next e he =>
    have hd : (s.setEntity fun e =>
        { MgrEntity.cancelTimers e with unloading := true }).doc = s.doc :=
      doc_setEntity s fun _ => rfl
    dsimp only
    split
    · next hp =>
      apply kept_releaseLock <;> rw [hd]
      · exact hs
      · exact rest_persisted h he hp
    · next hp =>
      have hc := rest_cached h he hp
      split
      · apply kept_suspend <;> rw [doc_kickClient, doc_setInvalid, doc_usable, hd]
        · exact hs
        · exact hc
      · split
        · apply kept_suspend <;> rw [doc_usable, hd]
          · exact hs
          · exact hc
        · apply kept_suspend <;> rw [doc_usable, hd]
          · exact hs
          · exact hc

theorem kept_loadFailed (s : Entitymgr) (job : GateJob) (n : Nat) (r : Refusal)
    (hs : s.doc.Sound fenced) (h : s.doc.Free) (hn : fenced → s.retaken n = false) :
    (s.loadFailed job n r).Kept fenced := by
  unfold loadFailed
  dsimp only
  split
  · apply kept_answer <;> rw [doc_isValid]
    · exact hs
    · exact h.rest
  · next hv =>
    rw [← retaken_isValid (by simpa [isValid] using hv)] at hn
    split
    · apply kept_answer <;> rw [doc_lockMoved, doc_isValid]
      · exact hs
      · exact h.rest
    · next m fence hu =>
      have hc : fenced → fence = (s.isValid n).1.docFence → (s.isValid n).1.dirty = false :=
        fun hfenced => retaken_not_dirty hu (hn hfenced)
      apply kept_unlockSend <;> rw [doc_lockMoved]
      · rw [doc_isValid]
        exact hs
      · rw [doc_isValid]
        exact h
      · exact hc

theorem kept_loaded (s : Entitymgr) (job : GateJob) (hs : s.doc.Sound fenced) (h : s.doc.At .rest) :
    (s.loaded job).Kept fenced := by
  unfold loaded
  split
  · exact kept_answer s _ _ hs h
  · exact kept_suspend s _ hs h

theorem kept_ensureLoaded (s : Entitymgr) (job : GateJob) (value : String)
    (hs : s.doc.Sound fenced) (h : s.doc.At .rest) : (s.ensureLoaded job value).Kept fenced := by
  unfold ensureLoaded
  split
  · next e he =>
    dsimp only
    split
    · apply kept_answer <;> rw [doc_onLockExpired, doc_usable]
      · exact hs
      · exact h
    · split
      · apply kept_answer <;> rw [doc_usable]
        · exact hs
        · exact h
      · split
        · apply kept_loaded <;> rw [doc_usable]
          · exact hs
          · exact h
        · apply kept_loaded <;> rw [doc_startUnloadTimer, doc_usable]
          · exact hs
          · exact h
  · next he =>
    have hf := rest_free h he
    split
    · exact kept_answer s _ _ hs h
    · split
      · apply kept_suspend <;> rw [doc_lockMoved]
        · exact hs
        · exact hf
      · apply kept_answer <;> rw [doc_lockMoved]
        · exact hs
        · exact h
      · apply kept_suspend <;> rw [doc_lockMoved]
        · exact hs
        · exact hf

theorem kept_locked (s : Entitymgr) (job : GateJob) (c : TryLockCall) (ret : Option TxnReply)
    (hs : s.doc.Sound fenced) (h : s.doc.Free) : (s.locked job c ret).Kept fenced := by
  unfold locked
  split
  · apply kept_suspend <;> rw [doc_lockMoved]
    · exact hs
    · exact h
  · apply kept_answer <;> rw [doc_lockMoved]
    · exact hs
    · exact h.rest

theorem kept_initialized (s : Entitymgr) (job : GateJob) (n : Nat) (err : Option String)
    (hs : s.doc.Sound fenced) (h : s.doc.At .rest) : (s.initialized job n err).Kept fenced := by
  unfold initialized
  dsimp only
  split
  · apply kept_unloadEntity <;> rw [doc_setInitFailed]
    · exact hs
    · exact h
  · split
    · apply kept_loaded <;> rw [doc_fork, doc_startUnloadTimer, doc_isValid]
      · exact hs
      · exact h
    · apply kept_unloadEntity <;> rw [doc_setInitFailed, doc_isValid]
      · exact hs
      · exact h

theorem kept_handled (s : Entitymgr) (job : GateJob) (hs : s.doc.Sound fenced)
    (h : s.doc.At .rest) :
    (s.handled job).Kept fenced := by
  unfold handled
  split
  · exact kept_answer s _ _ hs h
  · next e he =>
    have hd : (if job = .withEntity then s.usable e else s.isValid e.handle).1.doc = s.doc := by
      split <;> simp
    generalize (if job = .withEntity then s.usable e else s.isValid e.handle) = p at hd ⊢
    obtain ⟨t, ok⟩ := p
    dsimp only at hd ⊢
    split
    · apply kept_answer <;> rw [hd]
      · exact hs
      · exact h
    · apply kept_answer <;> rw [doc_onLockExpired, hd]
      · exact hs
      · exact h

theorem kept_start (s : Entitymgr) (job : GateJob) (value : String) (hs : s.doc.Sound fenced)
    (h : s.doc.At .rest) : (s.start value job).Kept fenced := by
  unfold start
  split
  · exact kept_unloadEntity s none hs h
  · split
    · split
      · exact kept_answer s _ _ hs h
      · dsimp only
        split
        · apply kept_suspend <;> rw [doc_isValid]
          · exact hs
          · exact h
        · apply kept_answer <;> rw [doc_isValid]
          · exact hs
          · exact h
    · exact kept_answer s _ _ hs h
  · exact kept_ensureLoaded s _ _ hs h

theorem kept_install (s : Entitymgr) (job : GateJob) (n : Nat) (hs : s.doc.Sound fenced)
    (hc : ∃ c, s.doc.cache = some c ∧ c.handle = n) : (s.install job n).Kept fenced := by
  refine ⟨⟨hs.saved_le, hs.stored_le, hs.evicted, hs.unlocks⟩, ?_⟩
  exact .inr (.inl ⟨n, rfl, hc⟩)

theorem kept_dbLoaded (s : Entitymgr) (job : GateJob) (n : Nat) (hs : s.doc.Sound fenced)
    (h : s.doc.At (.loaded n)) : (s.dbLoaded job n none).Kept fenced := by
  unfold dbLoaded
  dsimp only
  split
  · apply kept_install <;> rw [doc_isValid]
    · exact hs
    · exact h.2.1
  · apply kept_suspend <;> rw [doc_isValid]
    · exact hs
    · exact h

theorem cacheLoad_loaded (hs : s.doc.Sound fenced) (h : s.doc.Free) (hl : s.cacheLoad n = some t) :
    t.doc.Sound fenced ∧ t.doc.At (.loaded n) := by
  have hc : s.cache = none := h.2
  simp only [cacheLoad, hc, Option.some.injEq] at hl
  subst hl
  exact ⟨⟨Nat.le_refl 0, Nat.le_refl 0, hs.evicted, hs.unlocks⟩, h.1, ⟨_, rfl, rfl⟩, rfl⟩

/-- A save moves the counters towards the changes, and nothing else. -/
theorem saveDoc_sound {k : Nat} {applied ok : Bool} (hs : s.doc.Sound fenced)
    (hl : s.saveDoc n k applied ok = some t) :
    t.doc.Sound fenced ∧ t.doc.key = s.doc.key ∧ t.doc.cache = s.doc.cache ∧
      t.doc.changes = s.doc.changes ∧ s.doc.saved ≤ t.doc.saved := by
  simp only [saveDoc, Option.ite_none_right_eq_some, Option.some.injEq] at hl
  obtain ⟨⟨hk, hk', hok⟩, rfl⟩ := hl
  have hsaved : s.saved ≤ s.stored := hs.saved_le
  have hstored : s.stored ≤ s.changes := hs.stored_le
  refine ⟨⟨?_, ?_, hs.evicted, hs.unlocks⟩, rfl, rfl, rfl, ?_⟩
  · dsimp only [doc]
    cases ok with
    | false =>
      cases applied
      · exact hsaved
      · exact Nat.le_trans hsaved (Nat.le_max_left _ _)
    | true =>
      rw [if_pos rfl, if_pos (hok rfl).1]
      omega
  · dsimp only [doc]
    cases applied
    · exact hstored
    · exact Nat.max_le.mpr ⟨hstored, hk'⟩
  · dsimp only [doc]
    cases ok
    · exact Nat.le_refl _
    · exact Nat.le_max_left _ _

theorem At_save {d d' : Doc} {p : DocPhase} (h : d.At p) (hs : d'.Sound fenced)
    (hk : d'.key = d.key)
    (hc : d'.cache = d.cache) (hn : d'.changes = d.changes) (hsaved : d.saved ≤ d'.saved) :
    d'.At p := by
  have hall : d.saved = d.changes → d'.saved = d'.changes := fun he =>
    Nat.le_antisymm (Nat.le_trans hs.saved_le hs.stored_le) (by omega)
  have hp : d.Persisted → d'.Persisted := by
    rintro ⟨n, hkey, hcache, he⟩
    exact ⟨n, hk.trans hkey, hc.trans hcache, hall he⟩
  have hca : d.Cached → d'.Cached := by
    rintro ⟨n, hkey, c, hcache, he⟩
    exact ⟨n, hk.trans hkey, c, hc.trans hcache, he⟩
  have hfr : d.Free → d'.Free := fun hf => ⟨hk.trans hf.1, hc.trans hf.2⟩
  cases p with
  | rest => exact h.imp hfr fun h => h.imp hca hp
  | loads => exact hfr h
  | loaded n =>
    obtain ⟨hkey, ⟨c, hcache, he⟩, hsv⟩ := h
    exact ⟨hk.trans hkey, ⟨c, hc.trans hcache, he⟩, hall hsv⟩
  | unloads => exact hca h
  | releases => exact hp h
  | superseded =>
    obtain ⟨⟨n, hkey⟩, hcache⟩ := h
    exact ⟨⟨n, hk.trans hkey⟩, hc.trans hcache⟩
  | never => exact h

theorem Kept.save {k : Nat} {applied ok : Bool} (h : s.Kept fenced)
    (hl : s.saveDoc n k applied ok = some t) : t.Kept fenced := by
  obtain ⟨hs, hk, hc, hn, hsaved⟩ := saveDoc_sound h.1 hl
  obtain ⟨_, _, _, hr⟩ := saveDoc_frame hl
  have hp : t.phase = s.phase := by
    unfold phase
    rw [hr]
  exact ⟨hs, hp ▸ At_save h.2 hs hk hc hn hsaved⟩

theorem Kept.at (h : s.Kept fenced) {pc : GatePc} (hr : s.running = some pc) :
    s.doc.At pc.phase := by
  have hp : s.phase = pc.phase := by simp [phase, hr]
  exact hp ▸ h.2

theorem Kept.idle (h : s.Kept fenced) (hr : s.running = none) : s.doc.At .rest := by
  have hp : s.phase = .rest := by simp [phase, hr]
  exact hp ▸ h.2

theorem Kept.lockMoved (h : s.Kept fenced) (m : LockModule) : (s.lockMoved m).Kept fenced :=
  h.of_doc (doc_lockMoved s m) (lockMoved_running s m)

/-- Mongo fails whoever holds again the lock that unsaved changes were made under. -/
def failsRetaken (s : Entitymgr) : MgrAction → Bool
  | .dbLoad (some _) =>
    match s.running with
    | some (.loading _ h) => s.retaken h
    | _ => false
  | .dbRecover r _ =>
    match s.running with
    | some (.recovering _ h) => decide (r ≠ .recovered) && s.retaken h
    | _ => false
  | _ => false

theorem rest_cached_some {c : MgrCache} (h : s.doc.At .rest) (hc : s.cache = some c) :
    s.doc.Cached := by
  rcases h with hf | hca | hp
  · cases hc.symm.trans hf.2
  · exact hca
  · cases hc.symm.trans hp.cache

theorem kept_change (h : s.Kept fenced) (hca : s.doc.Cached)
    (hp : s.phase = .rest ∨ s.phase = .unloads) :
    { s with changes := s.changes + 1 }.Kept fenced := by
  refine ⟨⟨h.1.saved_le, Nat.le_succ_of_le h.1.stored_le, h.1.evicted, h.1.unlocks⟩, ?_⟩
  have hph : { s with changes := s.changes + 1 }.phase = s.phase := rfl
  rw [hph]
  rcases hp with hp | hp
  · rw [hp]
    exact .inr (.inl hca)
  · rw [hp]
    exact hca

theorem caches_of {c : MgrCache} (hc : s.cache = some c) (hn : c.handle = n) :
    s.caches n = true := by simp [caches, hc, hn]

theorem cached_caches (h : s.doc.Cached) (he : s.entity = some e) :
    s.caches e.handle = true ∧ e.persisted = false ∧ ∃ c, s.cache = some c := by
  obtain ⟨n, hk, c, hc, hn⟩ := h
  have hkey := Option.some.inj ((key_eq he).symm.trans hk)
  exact ⟨caches_of hc (hn.trans (congrArg Prod.fst hkey).symm), congrArg Prod.snd hkey, c, hc⟩

theorem kept_discardedLoaded (s : Entitymgr) (job : GateJob) (n : Nat) (r : Refusal)
    (hs : s.doc.Sound fenced) (h : s.doc.At (.loaded n)) :
    ((s.discardClean n).1.loadFailed job n r).Kept fenced := by
  obtain ⟨hk, ⟨c, hc, hn⟩, hsaved⟩ := h
  have hd : s.dirty = false := Doc.not_dirty hsaved
  have hcl : s.discardClean n = (s.dropCache, true) := by
    simp [discardClean, caches_of hc hn, hd]
  rw [hcl]
  refine kept_loadFailed _ job n r ⟨hs.saved_le, hs.stored_le, hs.evicted, hs.unlocks⟩
    ⟨hk, rfl⟩ ?_
  have hd' : s.dropCache.dirty = false := hd
  simp [retaken, hd']

theorem kept_discardedClean (init : Option (GateJob × Refusal)) (hs : s.doc.Sound fenced)
    (h : s.doc.Cached) (he : s.entity = some e) :
    (if (s.discardClean e.handle).2 then
      ((s.discardClean e.handle).1.forget .clean).finish init
    else (s.discardClean e.handle).1.suspend (.quarantining init)).Kept fenced := by
  obtain ⟨hca, _, _⟩ := cached_caches h he
  cases hd : s.dirty with
  | false =>
    have hcl : s.discardClean e.handle = (s.dropCache, true) := by simp [discardClean, hca, hd]
    rw [hcl]
    exact kept_forget _ _ init ⟨hs.saved_le, hs.stored_le, hs.evicted, hs.unlocks⟩ rfl
      (.inr (hs.stored_all (hs.saved_all hd)))
  | true =>
    have hcl : s.discardClean e.handle = (s, false) := by simp [discardClean, hd]
    rw [hcl]
    exact kept_suspend s _ hs h

theorem kept_quarantined (value : String) (hs : s.doc.Sound fenced) (h : s.doc.Cached) (n : Nat) :
    ((s.quarantine n).recoverDirty init value).Kept fenced := by
  obtain ⟨m, hk, c, hc, hm⟩ := h
  unfold quarantine
  split
  · apply kept_recoverDirty
    · exact ⟨hs.saved_le, hs.stored_le, hs.evicted, hs.unlocks⟩
    · exact ⟨m, hk, { c with onWheel := false }, congrArg (Option.map _) hc, hm⟩
  · exact kept_recoverDirty s init value hs ⟨m, hk, c, hc, hm⟩

theorem kept_gaveUp (hs : s.doc.Sound fenced) (h : s.doc.Cached) (he : s.entity = some e) :
    (((s.discard e.handle).forget .gaveUp).finish init).Kept fenced := by
  have hd : s.discard e.handle = s.dropCache := by simp [discard, (cached_caches h he).1]
  rw [hd]
  exact kept_forget _ _ init ⟨hs.saved_le, hs.stored_le, hs.evicted, hs.unlocks⟩ rfl (.inl rfl)

/-- The save that ends an entity takes its cache entry along. -/
theorem kept_cacheUnload {k : Nat} {applied ok : Bool} {p : Entitymgr × Bool} (h : s.Kept fenced)
    (hr : s.running = some (.saving init)) (hp : s.cacheUnload k applied ok = some p) :
    (if p.2 then (p.1.setEntity fun e => { e with persisted := true }).releaseLock init
      else p.1.abortUnload init "persistence failed").Kept fenced := by
  obtain ⟨n, hk, c, hc, hn⟩ := h.at hr
  have hcache : s.cache = some c := hc
  simp only [cacheUnload, hcache] at hp
  obtain ⟨u, hu, rfl⟩ := Option.map_eq_some_iff.mp hp
  obtain ⟨hs, hkey, _, _, _⟩ := saveDoc_sound h.1 hu
  have hca : u.doc.Cached := (h.save hu).at ((saveDoc_frame hu).2.2.2.trans hr)
  split
  · next hok =>
    rw [if_pos rfl]
    have hd : u.dirty = false := by simpa using (Bool.and_eq_true_iff.mp hok).2
    refine kept_releaseLock _ init ⟨hs.saved_le, hs.stored_le, hs.evicted, hs.unlocks⟩ ?_
    obtain ⟨e, he, hkeq⟩ := Option.map_eq_some_iff.mp (hkey.trans hk)
    refine ⟨n, ?_, rfl, hs.saved_all hd⟩
    have hm : e.handle = n := congrArg Prod.fst hkeq
    simp only [doc, setEntity, dropCache, he, Option.map_some, hm]
  · rw [if_neg Bool.false_ne_true]
    exact kept_abort u init _ hs hca.rest

/-- A recovery brings every change to Mongo, or the entry stays, or another holder has
superseded it. -/
theorem kept_cacheRecover {old new : Nat} {r : RecoverResult} {applied : Bool}
    {p : Entitymgr × RecoverResult} (hs : s.doc.Sound fenced) (h : s.doc.Cached)
    (he : s.entity = some e) (hold : old = e.handle)
    (hn : fenced → (decide (r ≠ .recovered) && s.retaken new) = false)
    (hp : s.cacheRecover old new r applied = some p) :
    (p.1.recovered init new p.2).Kept fenced := by
  subst hold
  obtain ⟨hca, hpers, c, hc⟩ := cached_caches h he
  have hk : ∃ h p, s.doc.key = some (h, p) := ⟨_, _, key_eq he⟩
  simp only [cacheRecover, hca, Bool.not_true, Bool.false_eq_true, if_false] at hp
  split at hp
  · next hd =>
    cases hp
    have hclean : s.dirty = false := by simpa using hd
    have hsaved : s.doc.saved = s.doc.changes := hs.saved_all hclean
    exact kept_recovered _ init new ⟨hs.saved_le, hs.stored_le, hs.evicted, hs.unlocks⟩ hk rfl
      hsaved
  · split at hp
    · obtain ⟨_, hp⟩ := Option.ite_none_right_eq_some.mp hp
      cases hp
      exact kept_recovered _ init new
        ⟨Nat.le_refl _, Nat.le_refl _, hs.evicted, hs.unlocks⟩ hk rfl rfl
    · cases hp
      have hn' : fenced → s.retaken new = false := fun hfenced => by simpa using hn hfenced
      refine kept_recovered_not _ init new .superseded
        ⟨hs.saved_le, hs.stored_le, hs.evicted, hs.unlocks⟩ ⟨⟨e.handle, ?_⟩, rfl⟩ hn'
      exact (key_eq he).trans (by rw [hpers])
    · next reason =>
      cases hp
      have hn' : fenced → s.retaken new = false := fun hfenced => by simpa using hn hfenced
      refine kept_recovered_not _ init new (.failed reason) ⟨?_, ?_, hs.evicted, hs.unlocks⟩ h hn'
      · dsimp only [doc]
        split
        · exact Nat.le_trans hs.saved_le hs.stored_le
        · exact hs.saved_le
      · dsimp only [doc]
        split
        · exact Nat.le_refl _
        · exact hs.stored_le
    · cases hp

theorem Kept.step (h : s.Kept fenced) (hok : fenced → s.failsRetaken a = false)
    (ht : s.step a = some t) :
    t.Kept fenced := by
  cases a with
  | call job =>
    cases ht
    exact h
  | start value =>
    simp only [Entitymgr.step] at ht
    split at ht
    · next job queue hr hq =>
      cases ht
      exact kept_start { s with queue := queue } job value h.1 (h.idle hr)
    · cases ht
  | runForked i =>
    simp only [Entitymgr.step] at ht
    split at ht
    · cases ht
      exact h
    · cases ht
      exact h.of_doc (doc_setEntity _ fun _ => rfl) rfl
    · cases ht
  | retryTimer =>
    simp only [Entitymgr.step, Option.ite_none_right_eq_some] at ht
    cases ht.2
    exact h.of_doc (doc_setEntity s fun _ => rfl) rfl
  | unloadTimer =>
    simp only [Entitymgr.step, Option.ite_none_right_eq_some] at ht
    cases ht.2
    exact h.of_doc (doc_setEntity s fun _ => rfl) rfl
  | deliveryTimer =>
    simp only [Entitymgr.step, Option.ite_none_right_eq_some] at ht
    cases ht.2
    exact h.of_doc (doc_setEntity s fun _ => rfl) rfl
  | scheduleDelivery =>
    simp only [Entitymgr.step, Option.ite_none_right_eq_some] at ht
    cases ht.2
    exact h.of_doc (doc_setEntity s fun _ => rfl) rfl
  | bind =>
    simp only [Entitymgr.step] at ht
    split at ht
    · cases ht
      exact h.of_doc (doc_setEntity s fun _ => rfl) rfl
    · cases ht
  | change =>
    simp only [Entitymgr.step] at ht
    split at ht
    · next job c hr hc =>
      cases ht
      exact kept_change h (rest_cached_some (h.at hr) hc)
        (.inl (by simp [phase, hr, GatePc.phase]))
    · next job n c hr hc =>
      cases ht
      exact kept_change h (rest_cached_some (h.at hr) hc)
        (.inl (by simp [phase, hr, GatePc.phase]))
    · next init c hr hc =>
      cases ht
      exact kept_change h (h.at hr) (.inr (by simp [phase, hr, GatePc.phase]))
    · cases ht
  | save k applied ok =>
    simp only [Entitymgr.step] at ht
    split at ht
    · exact h.save ht
    · cases ht
  | reply ret =>
    simp only [Entitymgr.step] at ht
    split at ht
    · next job c hr =>
      cases ht
      exact kept_locked s job c ret h.1 (h.at hr)
    · next job n fence r hr =>
      cases ht
      have hf : s.doc.Free := h.at hr
      apply kept_answer <;> rw [doc_unlockReply]
      · exact h.1
      · exact hf.rest
    · next init c hr =>
      cases ht
      exact kept_relocked s init c ret h.1 (h.at hr)
    · next init n fence r hr =>
      cases ht
      apply kept_recoveryFailed <;> rw [doc_unlockReply]
      · exact h.1
      · exact h.at hr
    · next init fence hr =>
      cases ht
      exact kept_released s init ret h.1 (h.at hr)
    · cases ht
  | dbLoad err =>
    simp only [Entitymgr.step] at ht
    split at ht
    · next job n hr =>
      split at ht
      · obtain ⟨u, hu, rfl⟩ := Option.map_eq_some_iff.mp ht
        obtain ⟨hs, ha⟩ := cacheLoad_loaded h.1 (h.at hr) hu
        exact kept_dbLoaded u job n hs ha
      · cases ht
        simp only [failsRetaken, hr] at hok
        exact kept_loadFailed s job n _ h.1 (h.at hr) hok
    · cases ht
  | discarded value =>
    simp only [Entitymgr.step] at ht
    split at ht
    · next job n hr =>
      cases ht
      exact kept_discardedLoaded s job n _ h.1 (h.at hr)
    · next init e hr he =>
      have hk := kept_discardedClean init h.1 (h.at hr) he
      split at ht
      · next hok =>
        cases ht
        rwa [if_pos hok] at hk
      · next hok =>
        cases ht
        rwa [if_neg hok] at hk
    · next init e hr he =>
      cases ht
      exact kept_quarantined value h.1 (h.at hr) e.handle
    · next init e hr he =>
      cases ht
      exact kept_gaveUp h.1 (h.at hr) he
    · cases ht
  | hooks err =>
    simp only [Entitymgr.step] at ht
    split at ht
    · next job n hr =>
      cases ht
      exact kept_initialized s job n err h.1 (h.at hr)
    · next init hr =>
      have hc : s.doc.Cached := h.at hr
      split at ht
      · cases ht
        exact kept_abort s init _ h.1 hc.rest
      · cases ht
        apply kept_suspend <;> rw [doc_setHooksRun]
        · exact h.1
        · exact hc
    · cases ht
  | handler =>
    simp only [Entitymgr.step] at ht
    split at ht
    · next job hr =>
      cases ht
      exact kept_handled s job h.1 (h.at hr)
    · cases ht
  | dbUnload k applied ok =>
    simp only [Entitymgr.step] at ht
    split at ht
    · next init hr =>
      obtain ⟨p, hp, rfl⟩ := Option.map_eq_some_iff.mp ht
      exact kept_cacheUnload h hr hp
    · cases ht
  | dbRecover r applied =>
    simp only [Entitymgr.step] at ht
    split at ht
    · next init n e hr he =>
      obtain ⟨p, hp, rfl⟩ := Option.map_eq_some_iff.mp ht
      simp only [failsRetaken, hr] at hok
      exact kept_cacheRecover h.1 (h.at hr) he rfl hok hp
    · cases ht
  | deadline =>
    cases ht
    exact h
  | leaseAlive leaseid epoch late =>
    cases ht
    exact h.lockMoved _
  | leaseLost epoch =>
    cases ht
    exact h.lockMoved _
  | leaseCheck =>
    cases ht
    exact h.lockMoved _
  | shutdown =>
    cases ht
    refine h.of_doc ?_ ?_ <;> split <;> rfl
  | shutdownDone =>
    simp only [Entitymgr.step, Option.ite_none_right_eq_some] at ht
    cases ht.2
    exact h

/-- Steps in which Mongo fails nobody that holds a lock again. -/
def neverFailsRetaken (s : Entitymgr) (a : MgrAction) : Prop := s.failsRetaken a = false

instance (s : Entitymgr) (a : MgrAction) : Decidable (neverFailsRetaken s a) :=
  inferInstanceAs (Decidable (_ = _))

theorem kept_reaches (h : system.Reaches ok s)
    (hok : fenced → ∀ s a, ok s a → s.failsRetaken a = false) : s.Kept fenced := by
  apply h.invariant (fun s hs => ?_) fun s a _ hi ha ht => hi.step (fun hf => hok hf s a ha) ht
  obtain ⟨resident, rfl⟩ := hs
  exact ⟨⟨Nat.le_refl 0, Nat.le_refl 0, List.forall_mem_nil _, fun _ => List.forall_mem_nil _⟩,
    .inl ⟨rfl, rfl⟩⟩

def Loading (s : Entitymgr) : Prop :=
  ∃ job h, s.running = some (.loading job h) ∨ s.running = some (.discardingLoaded job h)

/-- Eviction throws nothing away by mistake. -/
structure NothingLost (s : Entitymgr) : Prop where
  entry : ∀ x ∈ s.evicted, (x.cache.any fun c => c.handle = x.handle) = false
  gone : s.entity = none → s.cache = none ∨ s.Loading
  written : ∀ x ∈ s.evicted,
    x.cause = .superseded ∨ x.cause = .cacheReplaced ∨ x.cause = .gaveUp ∨ x.stored = x.changes
  unlocked : ∀ u ∈ s.unlocks, u.fence = u.docFence → u.unsaved = false

theorem Kept.gone (h : s.Kept fenced) (he : s.entity = none) : s.cache = none ∨ s.Loading := by
  have hk : s.doc.key = none := congrArg (Option.map _) he
  have hca : ¬ s.doc.Cached := by
    rintro ⟨n, hn, _⟩
    cases hk.symm.trans hn
  cases hr : s.running with
  | none => exact .inl (rest_free (h.idle hr) he).2
  | some pc =>
    have ha := h.at hr
    cases pc with
    | discardingLoaded job n => exact .inr ⟨job, n, .inr hr⟩
    | locking job c => exact .inl ha.2
    | loading job n => exact .inl ha.2
    | unlockingLoad job n fence r => exact .inl ha.2
    | initializing job n => exact .inl (rest_free ha he).2
    | handling job => exact .inl (rest_free ha he).2
    | releasing init fence => exact .inl ha.cache
    | unlockingRecovery init n fence r =>
      cases r with
      | superseded => exact .inl ha.2
      | failed reason => exact absurd ha hca
      | recovered => exact ha.elim
      | cacheReplaced => exact ha.elim
    | _ => exact absurd ha hca

theorem nothing_lost (h : system.Reaches neverFailsRetaken s) : s.NothingLost := by
  have hk : s.Kept True := kept_reaches h fun _ _ _ => id
  refine ⟨fun x hx => (hk.1.evicted x hx).1, hk.gone, fun x hx => ?_, hk.1.unlocks trivial⟩
  rcases (hk.1.evicted x hx).2 with hl | hs
  · cases hc : x.cause with
    | superseded => exact .inl rfl
    | gaveUp => exact .inr (.inr (.inl rfl))
    | _ =>
      rw [hc] at hl
      cases hl
  · exact .inr (.inr (.inr hs))

/-- An entity is changed, loses its lease, recovers under a new one and is unloaded. -/
def recoveredUnloaded : Entitymgr :=
  system.run neverFailsRetaken (fresh false)
    [.leaseAlive ⟨0, 1⟩ 1 false, .call .withEntity, .start "a", .reply (some ⟨true, some 5, none⟩),
      .dbLoad none, .hooks none, .change, .handler, .leaseLost 1, .leaseAlive ⟨0, 2⟩ 2 false,
      .runForked 1, .start "a", .discarded "a", .discarded "a",
      .reply (some ⟨true, some 9, none⟩), .dbRecover .recovered true,
      .reply (some ⟨true, none, none⟩)] (by decide +kernel)

theorem recoveredUnloaded_evicted : recoveredUnloaded.evicted = [⟨.released, 1, 1, 1, none⟩] := by
  decide +kernel

theorem nothing_lost_recoveredUnloaded : recoveredUnloaded.NothingLost :=
  nothing_lost (system.run_reaches neverFailsRetaken _ ⟨false, rfl⟩ (by decide +kernel))

/-- The lease runs out locally and is announced again; the recovery gets the lock of the entity
back, Mongo fails, and the lock is given up with the change unsaved. -/
def unlockedUnsaved : Entitymgr :=
  system.run anyStep (fresh false)
    [.leaseAlive ⟨0, 1⟩ 1 false, .call .withEntity, .start "a", .reply (some ⟨true, some 5, none⟩),
      .dbLoad none, .hooks none, .change, .handler, .deadline, .leaseCheck,
      .leaseAlive ⟨0, 1⟩ 1 false, .runForked 1, .start "a", .discarded "a", .discarded "a",
      .reply (some ⟨false, none, some ⟨5, ⟨0, 1⟩, "a"⟩⟩), .dbRecover (.failed "timeout") false]
    (by decide +kernel)

theorem unlock_unsaved : ∃ s : Entitymgr, system.Reaches anyStep s ∧ ¬ s.NothingLost := by
  refine ⟨unlockedUnsaved, system.run_reaches anyStep _ ⟨false, rfl⟩ (by decide +kernel),
    fun h => ?_⟩
  have hu : unlockedUnsaved.unlocks = [⟨5, 5, true⟩] := by decide +kernel
  have hmem : (⟨5, 5, true⟩ : UnlockSent) ∈ unlockedUnsaved.unlocks :=
    hu ▸ List.mem_singleton_self _
  cases h.unlocked _ hmem rfl

end Entitymgr

end Skyext
