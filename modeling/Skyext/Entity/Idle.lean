import Mathlib.Data.List.Basic
import Skyext.Lib.Machine

namespace Skyext
set_option autoImplicit true

/-- The entries of a type's configuration that its idle timer reads. -/
structure IdleConfig where
  resident : Bool
  unload_delay : Option Nat
  deriving DecidableEq

/-- The delay in the milliseconds of the timer service. -/
def IdleConfig.delay (c : IdleConfig) : Nat := c.unload_delay.getD 600 * 1000

/-- What waits for the gate of an entity id: the unload of its idle timer, any other unload, and
what runs through `with_entity` or `with_loaded_entity`. -/
inductive IdleJob
  | idle
  | unload
  | entity
  | loaded
  deriving DecidableEq

/-- How the load of an entity that is not in memory ends; `retained` is a failed `on_load` whose
unload failed too. -/
inductive LoadResult
  | loaded
  | failed
  | retained
  deriving DecidableEq

/-- The unload of the idle timer sets `unloading`: the session then bound, the time, and when the
entity was last touched, bound or used by a request. -/
structure IdleUnload where
  session : Option Nat
  lastUse : Option Nat
  time : Nat
  deriving DecidableEq

/-- One entity id, its session, its gate and its idle timer, which keeps the time it was set. -/
structure IdleEntity where
  now : Nat
  loaded : Bool
  invalid : Bool
  unloading : Bool
  valid : Bool
  session : Option Nat
  unload_timer : Option Nat
  queue : List IdleJob
  running : Option IdleJob
  lastUse : Option Nat
  begun : List IdleUnload
  deriving DecidableEq

/-- `install` is `install_conn` within `bind` or `resume`; timers may fire late, never early. -/
inductive IdleAction
  | tick (ms : Nat)
  | enqueue (job : IdleJob)
  | due
  | start (load : LoadResult)
  | install (conn : Nat)
  | finish (ok : Bool)
  | touch
  | unbind (conn : Nat)
  | loseLease
  | lockExpired
  | recover
  deriving DecidableEq

namespace IdleEntity

variable (c : IdleConfig)

def used (s : IdleEntity) : IdleEntity := { s with lastUse := some s.now }

def serves (s : IdleEntity) : Bool := s.loaded && !s.invalid && !s.unloading && s.valid

def startUnloadTimer (s : IdleEntity) : IdleEntity :=
  if c.resident then s else { s with unload_timer := some s.now }

def cancelUnloadTimer (s : IdleEntity) : IdleEntity := { s with unload_timer := none }

def touch (s : IdleEntity) : IdleEntity :=
  if s.serves && s.session.isNone then s.startUnloadTimer c else s

/-- `_on_lock_expired`; the client is kicked by an `unbind` later. -/
def onLockExpired (s : IdleEntity) : IdleEntity :=
  if !s.loaded || s.invalid then s
  else { s.cancelUnloadTimer with invalid := true, queue := s.queue ++ [.unload] }

def unloadEntity (s : IdleEntity) (job : IdleJob) : IdleEntity :=
  { s.cancelUnloadTimer with
    unloading := true
    running := some job
    begun := if job = .idle ∧ s.unloading = false then ⟨s.session, s.lastUse, s.now⟩ :: s.begun
      else s.begun }

/-- `_ensure_loaded` for an entity that is not in memory. -/
def load (s : IdleEntity) : LoadResult → IdleEntity
  | .failed => s
  | .retained =>
    { s with loaded := true, invalid := false, unloading := true, valid := true,
             session := none, unload_timer := none }
  | .loaded =>
    let s : IdleEntity :=
      { s with loaded := true, invalid := false, unloading := false, valid := true,
               session := none, unload_timer := none }
    { (s.startUnloadTimer c).used with running := some .entity }

/-- A job takes the gate. -/
def enter (s : IdleEntity) (r : LoadResult) : IdleJob → IdleEntity
  | .idle => if s.loaded then s.unloadEntity .idle else s
  | .unload => if s.loaded then s.unloadEntity .unload else s
  | .entity =>
    if !s.loaded then s.load c r
    else if s.invalid || !s.valid then s.onLockExpired
    else if s.unloading then s
    else { (s.touch c).used with running := some .entity }
  | .loaded => if s.serves then { s.used with running := some .loaded } else s

def leave (s : IdleEntity) (ok : Bool) : IdleJob → IdleEntity
  | .idle | .unload => if ok then { s.cancelUnloadTimer with loaded := false } else s
  | .entity =>
    if s.invalid || !s.valid then s.onLockExpired else if ok then s.used else s
  | .loaded => if !s.valid then s.onLockExpired else if ok then s.used else s

def step (s : IdleEntity) : IdleAction → Option IdleEntity
  | .tick ms => some { s with now := s.now + ms }
  | .enqueue job => if job = .idle then none else some { s with queue := s.queue ++ [job] }
  | .due =>
    match s.unload_timer with
    | some since =>
      if since + c.delay ≤ s.now then
        some { s with unload_timer := none, queue := s.queue ++ [.idle] }
      else none
    | none => none
  | .start r =>
    match s.running, s.queue with
    | none, job :: queue => some ({ s with queue := queue }.enter c r job)
    | _, _ => none
  | .install conn =>
    if s.running = some .entity ∨ s.running = some .loaded then
      some { s.used.cancelUnloadTimer with session := some conn }
    else none
  | .finish ok => s.running.map fun job => { s with running := none }.leave ok job
  | .touch => if s.loaded then some (s.used.touch c) else none
  | .unbind conn =>
    let s := if s.session = some conn then { s with session := none } else s
    some (if s.loaded then s.used.touch c else s)
  | .loseLease => some { s with valid := false }
  | .lockExpired => if s.valid then none else some s.onLockExpired
  | .recover =>
    if s.running = some .idle ∨ s.running = some .unload then
      some { s with valid := true, invalid := false }
    else none

def fresh : IdleEntity := ⟨0, false, false, false, false, none, none, [], none, none, []⟩

def system : Machine.System IdleEntity IdleAction := ⟨fun s => s = fresh, step c⟩

def admits (s : IdleEntity) (r : LoadResult) : IdleJob → Bool
  | .entity => if s.loaded then s.serves else r = .loaded
  | .loaded => s.serves
  | _ => false

def completes (s : IdleEntity) (ok : Bool) : IdleJob → Bool
  | .entity => ok && !s.invalid && s.valid
  | .loaded => ok && s.valid
  | _ => false

/-- The step touches or binds the entity, or starts or completes a request on it. -/
def uses (s : IdleEntity) : IdleAction → Bool
  | .start r => s.queue.head?.any (s.admits r)
  | .finish ok => s.running.any (s.completes ok)
  | .install _ | .touch => true
  | .unbind _ => s.loaded
  | _ => false

/-- The idle timer was set no earlier than the entity was last used. -/
def TimerCurrent (s : IdleEntity) : Prop := ∀ u ∈ s.lastUse, ∀ since ∈ s.unload_timer, u ≤ since

/-- No use while the unload of the idle timer waits for the gate, and a timer that fires is as
recent as the last use. -/
def Undisturbed (s : IdleEntity) (a : IdleAction) : Prop :=
  (s.uses a = true → .idle ∉ s.queue) ∧ (a = .due → s.TimerCurrent)

variable {c} {s t : IdleEntity}

/-- What the code does with a waiting idle unload and with a running idle timer. -/
structure Inv (c : IdleConfig) (s : IdleEntity) : Prop where
  timer : s.unload_timer.isSome → s.session = none
  waiting : .idle ∈ s.queue → s.session = none ∧ ∀ u ∈ s.lastUse, u + c.delay ≤ s.now
  begun : ∀ b ∈ s.begun, b.session = none ∧ ∀ u ∈ b.lastUse, u + c.delay ≤ b.time

theorem Inv.keep (h : s.Inv c) (ht : t.unload_timer = s.unload_timer ∨ t.unload_timer = none)
    (hs : t.session = s.session) (hq : .idle ∈ t.queue → .idle ∈ s.queue)
    (hl : t.lastUse = s.lastUse) (hn : t.now = s.now) (hb : t.begun = s.begun) : t.Inv c := by
  refine ⟨fun hsome => ?_, fun hmem => ?_, fun b hmem => h.begun b (hb ▸ hmem)⟩
  · rw [hs]
    rcases ht with ht | ht
    · exact h.timer (ht ▸ hsome)
    · rw [ht] at hsome
      cases hsome
  · rw [hs, hl, hn]
    exact h.waiting (hq hmem)

theorem Inv.use (h : s.Inv c) (hidle : .idle ∉ s.queue) : s.used.Inv c :=
  ⟨h.timer, fun hmem => absurd hmem hidle, h.begun⟩

@[simp] theorem startUnloadTimer_queue : (s.startUnloadTimer c).queue = s.queue := by
  rw [startUnloadTimer]
  split <;> rfl

@[simp] theorem touch_queue : (s.touch c).queue = s.queue := by
  rw [IdleEntity.touch]
  split
  · exact startUnloadTimer_queue
  · rfl

theorem Inv.startUnloadTimer (h : s.Inv c) (hs : s.session = none) :
    (s.startUnloadTimer c).Inv c := by
  rw [IdleEntity.startUnloadTimer]
  split
  · exact h
  · exact ⟨fun _ => hs, h.waiting, h.begun⟩

theorem Inv.touch (h : s.Inv c) : (s.touch c).Inv c := by
  rw [IdleEntity.touch]
  split
  · next hs =>
    exact h.startUnloadTimer (Option.isNone_iff_eq_none.mp (Bool.and_eq_true_iff.mp hs).2)
  · exact h

theorem Inv.onLockExpired (h : s.Inv c) : s.onLockExpired.Inv c := by
  rw [IdleEntity.onLockExpired]
  split
  · exact h
  · refine h.keep (.inr rfl) rfl (fun hmem => ?_) rfl rfl rfl
    rcases List.mem_append.mp hmem with hmem | hmem
    · exact hmem
    · cases List.mem_singleton.mp hmem

/-- An unload enters the gate; `hidle` is what the invariant said while it waited. -/
theorem Inv.unloadEntity (h : s.Inv c) (job : IdleJob)
    (hidle : job = .idle → s.session = none ∧ ∀ u ∈ s.lastUse, u + c.delay ≤ s.now) :
    (s.unloadEntity job).Inv c := by
  refine ⟨fun hsome => absurd hsome Bool.false_ne_true, h.waiting, fun b hmem => ?_⟩
  have hmem : b ∈ (if job = .idle ∧ s.unloading = false then
    ⟨s.session, s.lastUse, s.now⟩ :: s.begun else s.begun) := hmem
  split at hmem
  · next hjob =>
    rcases List.mem_cons.mp hmem with rfl | hmem
    · exact hidle hjob.1
    · exact h.begun b hmem
  · exact h.begun b hmem

theorem Inv.load (h : s.Inv c) (r : LoadResult) (hidle : r = .loaded → .idle ∉ s.queue) :
    (s.load c r).Inv c := by
  cases r with
  | failed => exact h
  | retained =>
    exact ⟨fun _ => rfl, fun hmem => ⟨rfl, (h.waiting hmem).2⟩, h.begun⟩
  | loaded =>
    have hidle := hidle rfl
    have hfresh : ({ s with
        loaded := true, invalid := false, unloading := false, valid := true, session := none,
        unload_timer := none } : IdleEntity).Inv c :=
      ⟨fun _ => rfl, fun hmem => absurd hmem hidle, h.begun⟩
    have harmed := (hfresh.startUnloadTimer rfl).use (by rw [startUnloadTimer_queue]; exact hidle)
    exact harmed.keep (.inl rfl) rfl id rfl rfl rfl

theorem Inv.enter (h : s.Inv c) (r : LoadResult) (job : IdleJob)
    (hwait : job = .idle → s.session = none ∧ ∀ u ∈ s.lastUse, u + c.delay ≤ s.now)
    (hidle : s.admits r job = true → .idle ∉ s.queue) : (s.enter c r job).Inv c := by
  cases job with
  | idle =>
    rw [IdleEntity.enter]
    split
    · exact h.unloadEntity .idle hwait
    · exact h
  | unload =>
    rw [IdleEntity.enter]
    split
    · exact h.unloadEntity .unload (by rintro ⟨⟩)
    · exact h
  | entity =>
    rw [admits] at hidle
    rw [IdleEntity.enter]
    cases hl : s.loaded with
    | false =>
      refine h.load r fun hr => hidle ?_
      simp only [hl, hr, Bool.false_eq_true, if_false, decide_true]
    | true =>
      rw [if_neg (by simp)]
      split
      · exact h.onLockExpired
      · split
        · exact h
        · next hvalid hunloading =>
          simp only [Bool.or_eq_true, Bool.not_eq_true', not_or, Bool.not_eq_true,
            Bool.not_eq_false] at hvalid hunloading
          have hserves : s.serves = true := by
            simp only [serves, hl, hvalid, hunloading, Bool.not_false, Bool.and_self]
          have hfree : .idle ∉ s.queue := hidle (by rw [if_pos hl]; exact hserves)
          exact (h.touch.use (by rw [touch_queue]; exact hfree)).keep (.inl rfl) rfl id rfl rfl rfl
  | loaded =>
    rw [IdleEntity.enter]
    split
    · next hserves => exact (h.use (hidle hserves)).keep (.inl rfl) rfl id rfl rfl rfl
    · exact h

theorem Inv.leave (h : s.Inv c) (ok : Bool) (job : IdleJob)
    (hidle : s.completes ok job = true → .idle ∉ s.queue) : (s.leave ok job).Inv c := by
  have hunload : (if ok then { s.cancelUnloadTimer with loaded := false } else s).Inv c := by
    split
    · exact h.keep (.inr rfl) rfl id rfl rfl rfl
    · exact h
  cases job with
  | idle => exact hunload
  | unload => exact hunload
  | entity =>
    rw [IdleEntity.leave]
    split
    · exact h.onLockExpired
    · next hvalid =>
      split
      · next hok => exact h.use (hidle (by rw [completes, hok]; simpa using hvalid))
      · exact h
  | loaded =>
    rw [IdleEntity.leave]
    split
    · exact h.onLockExpired
    · next hvalid =>
      split
      · next hok => exact h.use (hidle (by rw [completes, hok]; simpa using hvalid))
      · exact h

theorem Inv.step (h : s.Inv c) {a : IdleAction} (hok : s.Undisturbed a)
    (ht : step c s a = some t) : t.Inv c := by
  obtain ⟨huse, hdue⟩ := hok
  cases a with
  | tick ms =>
    cases ht
    refine ⟨h.timer, fun hmem => ?_, h.begun⟩
    obtain ⟨hs, hl⟩ := h.waiting hmem
    exact ⟨hs, fun u hu => Nat.le_trans (hl u hu) (Nat.le_add_right ..)⟩
  | enqueue job =>
    obtain ⟨hjob, ht⟩ := Option.ite_none_left_eq_some.mp ht
    cases ht
    refine h.keep (.inl rfl) rfl (fun hmem => ?_) rfl rfl rfl
    rcases List.mem_append.mp hmem with hmem | hmem
    · exact hmem
    · exact absurd (List.mem_singleton.mp hmem).symm hjob
  | due =>
    rw [IdleEntity.step] at ht
    split at ht
    · next since hsince =>
      obtain ⟨hle, ht⟩ := Option.ite_none_right_eq_some.mp ht
      cases ht
      have hnone : s.session = none := h.timer (by rw [hsince]; rfl)
      refine ⟨fun hsome => absurd hsome Bool.false_ne_true, fun _ => ⟨hnone, fun u hu => ?_⟩,
        h.begun⟩
      have hu := hdue rfl u hu since hsince
      exact Nat.le_trans (Nat.add_le_add_right hu _) hle
    · cases ht
  | start r =>
    rw [IdleEntity.step] at ht
    split at ht
    · next job queue hrunning hqueue =>
      cases ht
      have hq : ({ s with queue := queue } : IdleEntity).Inv c :=
        h.keep (.inl rfl) rfl (fun hmem => hqueue ▸ List.mem_cons_of_mem _ hmem) rfl rfl rfl
      refine hq.enter r job (fun hjob => h.waiting ?_) fun hadmit hmem => ?_
      · rw [hqueue, hjob]
        exact List.mem_cons_self
      · refine huse ?_ (hqueue ▸ List.mem_cons_of_mem _ hmem)
        rw [uses, hqueue]
        exact hadmit
    · cases ht
  | install conn =>
    obtain ⟨_, ht⟩ := Option.ite_none_right_eq_some.mp ht
    cases ht
    exact ⟨fun hsome => absurd hsome Bool.false_ne_true, fun hmem => absurd hmem (huse rfl),
      h.begun⟩
  | finish ok =>
    obtain ⟨job, hjob, rfl⟩ := Option.map_eq_some_iff.mp ht
    have hfree : ({ s with running := none } : IdleEntity).Inv c :=
      h.keep (.inl rfl) rfl id rfl rfl rfl
    refine hfree.leave ok job fun hdone => huse ?_
    rw [uses, hjob]
    exact hdone
  | touch =>
    obtain ⟨_, ht⟩ := Option.ite_none_right_eq_some.mp ht
    cases ht
    exact (h.use (huse rfl)).touch
  | unbind conn =>
    cases ht
    have hunbound : (if s.session = some conn then { s with session := none } else s).Inv c ∧
        (if s.session = some conn then { s with session := none } else s).loaded = s.loaded ∧
        (if s.session = some conn then { s with session := none } else s).queue = s.queue := by
      split
      · exact ⟨⟨fun _ => rfl, fun hmem => ⟨rfl, (h.waiting hmem).2⟩, h.begun⟩, rfl, rfl⟩
      · exact ⟨h, rfl, rfl⟩
    generalize (if s.session = some conn then { s with session := none } else s) = u at *
    obtain ⟨hu, hl, hq⟩ := hunbound
    split
    · next hloaded => exact (hu.use (hq ▸ huse (hl.symm.trans hloaded))).touch
    · exact hu
  | loseLease =>
    cases ht
    exact h.keep (.inl rfl) rfl id rfl rfl rfl
  | lockExpired =>
    obtain ⟨_, ht⟩ := Option.ite_none_left_eq_some.mp ht
    cases ht
    exact h.onLockExpired
  | recover =>
    obtain ⟨_, ht⟩ := Option.ite_none_right_eq_some.mp ht
    cases ht
    exact h.keep (.inl rfl) rfl id rfl rfl rfl

/-- While nothing uses the entity behind the back of its idle timer, the unload of the timer takes
it only without a session and `unload_delay` after the last use. -/
theorem idle_unload_spares_used (h : (system c).Reaches Undisturbed s) :
    ∀ b ∈ s.begun, b.session = none ∧ ∀ u ∈ b.lastUse, u + c.delay ≤ b.time := by
  have hinv : s.Inv c := by
    refine h.invariant (fun u hu => ?_) fun u a v hu hok hv => Inv.step hu hok hv
    cases hu
    exact ⟨fun _ => rfl, fun hmem => absurd hmem List.not_mem_nil,
      fun b hmem => absurd hmem List.not_mem_nil⟩
  exact hinv.begun

instance (s : IdleEntity) (a : IdleAction) : Decidable (s.Undisturbed a) := by
  unfold Undisturbed TimerCurrent
  infer_instance

/-- A login, a disconnect, and the idle unload ten minutes later. -/
def idleRun : List IdleAction :=
  [.enqueue .entity, .start .loaded, .install 0, .finish true, .tick 1000, .unbind 0,
   .tick 600000, .due, .start .failed, .finish true]

theorem idle_unload_spares_used_logout :
    ∃ s : IdleEntity, s.begun = [⟨none, some 1000, 601000⟩] ∧
      ∀ b ∈ s.begun, b.session = none ∧ ∀ u ∈ b.lastUse, u + 600000 ≤ b.time :=
  ⟨(system ⟨false, none⟩).run Undisturbed fresh idleRun (by decide +kernel), by decide +kernel,
    idle_unload_spares_used ((system ⟨false, none⟩).run_reaches Undisturbed idleRun rfl
      (by decide +kernel))⟩

/-- The idle timer fires while the resume of the player waits for the network gate. -/
def resumeRun : List IdleAction :=
  [.enqueue .entity, .start .loaded, .install 0, .finish true, .tick 1000, .unbind 0,
   .tick 599999, .enqueue .loaded, .start .failed, .tick 1, .due, .install 1, .finish true,
   .start .failed]

/-- A player who resumes while the expired timer waits for the gate of the entity is taken. -/
theorem resumed_player_unloaded :
    ∃ s, (system ⟨false, none⟩).Reaches Machine.anyStep s ∧
      s.begun = [⟨some 1, some 601000, 601000⟩] :=
  ⟨(system ⟨false, none⟩).run Machine.anyStep fresh resumeRun (by decide +kernel),
    (system ⟨false, none⟩).run_reaches Machine.anyStep resumeRun rfl (by decide +kernel),
    by decide +kernel⟩

end IdleEntity

end Skyext
