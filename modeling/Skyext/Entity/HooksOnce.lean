import Skyext.Entity.Hooks

namespace Skyext
set_option autoImplicit true

open Machine

/-- The unload hook of the handler applies after these events. -/
def HandlerDue (conf : HookConf) (l : List HookEvent) : Prop :=
  conf.onUnload = true ∧ .initFailed ∉ l

/-- The unload hook of a module applies after these events: after a failed initialization only if
the module had been loaded. -/
def ModuleDue (conf : HookConf) (l : List HookEvent) (name : String) : Prop :=
  name ∈ conf.names ∧ (conf.modules name).onUnload = true ∧ (.initFailed ∈ l → .loaded name ∈ l)

/-- Every unload hook that applies has completed, and has done so once. -/
structure AllRun (conf : HookConf) (l : List HookEvent) : Prop where
  handler : HandlerDue conf l → l.count (.completed .unload) = 1
  modules : ∀ name, ModuleDue conf l name → l.count (.completed (.moduleUnload name)) = 1

def Fits (conf : HookConf) (l : List HookEvent) : HookEvent → Prop
  | .started .unload =>
    .initFailed ∉ l ∧ (conf.onLoad = true → .completed .load ∈ l)
  | .started (.moduleUnload name) =>
    (.initFailed ∈ l → .loaded name ∈ l) ∧ (HandlerDue conf l → .completed .unload ∈ l)
  | .completed .unload => .completed .unload ∉ l ∧ .started .unload ∈ l
  | .completed (.moduleUnload name) =>
    .completed (.moduleUnload name) ∉ l ∧ .started (.moduleUnload name) ∈ l
  | .loaded name =>
    .initFailed ∉ l ∧ ((conf.modules name).onLoad = true → .completed (.moduleLoad name) ∈ l)
  | .initFailed => .started .unload ∉ l ∧ ∀ name, .started (.moduleUnload name) ∉ l
  | .persisted => AllRun conf l
  | .recovered => .leaseLost ∈ l
  | .released => .persisted ∈ l ∨ .recovered ∈ l
  | _ => True

/-- A history each event of which fits what happened before it. -/
inductive HookTrace (conf : HookConf) : List HookEvent → Prop
  | nil : HookTrace conf []
  | cons : HookTrace conf l → Fits conf l e → HookTrace conf (e :: l)

variable {conf : HookConf} {s t : HookedEntity} {l l₁ l₂ : List HookEvent} {e : HookEvent}
  {name : String} {rest : List String}

namespace HookTrace

theorem split (h : HookTrace conf (l₂ ++ e :: l₁)) : Fits conf l₁ e := by
  induction l₂ with
  | nil =>
    cases h with
    | cons _ hf => exact hf
  | cons _ l₂ ih =>
    cases h with
    | cons h _ => exact ih h

theorem mem (h : HookTrace conf l) (he : e ∈ l) : ∃ l₁ l₂, l = l₂ ++ e :: l₁ ∧ Fits conf l₁ e := by
  obtain ⟨l₂, l₁, rfl⟩ := List.append_of_mem he
  exact ⟨l₁, l₂, rfl, h.split⟩

theorem count_le (h : HookTrace conf l) (hook : Hook)
    (hfit : ∀ l, Fits conf l (.completed hook) → .completed hook ∉ l) :
    l.count (.completed hook) ≤ 1 := by
  induction h with
  | nil => exact Nat.zero_le _
  | @cons l e _ hf ih =>
    rw [List.count_cons]
    by_cases he : e = .completed hook
    · subst he
      rw [List.count_eq_zero_of_not_mem (hfit _ hf)]
      simp only [beq_self_eq_true, if_true, Nat.zero_add, Nat.le_refl]
    · simpa only [beq_iff_eq, if_neg he, Nat.add_zero] using ih

theorem count_handler (h : HookTrace conf l) : l.count (.completed .unload) ≤ 1 :=
  h.count_le .unload fun _ hf => hf.1

theorem count_module (h : HookTrace conf l) (name : String) :
    l.count (.completed (.moduleUnload name)) ≤ 1 :=
  h.count_le (.moduleUnload name) fun _ hf => hf.1

/-- No initialization fails after an unload hook was called. -/
theorem failed_before (h : HookTrace conf (l₂ ++ e :: l₁))
    (hs : e = .started .unload ∨ ∃ name, e = .started (.moduleUnload name)) :
    .initFailed ∈ l₂ ++ e :: l₁ → .initFailed ∈ l₁ := by
  intro hm
  rcases List.mem_append.mp hm with hm | hm
  · obtain ⟨a, b, rfl⟩ := List.append_of_mem hm
    rw [List.append_assoc] at h
    obtain ⟨hn, hn'⟩ : Fits _ _ .initFailed := h.split
    rcases hs with rfl | ⟨name, rfl⟩
    · exact absurd (List.mem_append_right b List.mem_cons_self) hn
    · exact absurd (List.mem_append_right b List.mem_cons_self) (hn' name)
  · rcases List.mem_cons.mp hm with rfl | hm
    · rcases hs with hs | ⟨_, hs⟩ <;> cases hs
    · exact hm

theorem mem_of_fits (h : HookTrace conf l) (he : e ∈ l) (hfit : ∀ l, Fits conf l e → e' ∈ l) :
    e' ∈ l := by
  obtain ⟨l₁, l₂, rfl, hf⟩ := h.mem he
  exact List.mem_append_right _ (List.mem_cons_of_mem _ (hfit l₁ hf))

theorem handler_loaded (h : HookTrace conf l) (hc : .completed .unload ∈ l) :
    .initFailed ∉ l ∧ (conf.onLoad = true → .completed .load ∈ l) := by
  have hs : .started .unload ∈ l := h.mem_of_fits hc fun _ hf => hf.2
  obtain ⟨l₁, l₂, rfl, hi, hl⟩ := h.mem hs
  refine ⟨fun hm => hi (h.failed_before (.inl rfl) hm), fun ho => ?_⟩
  exact List.mem_append_right _ (List.mem_cons_of_mem _ (hl ho))

/-- After a failed initialization the unload hook of a module completes only if its load hook
has. -/
theorem module_loaded (h : HookTrace conf l) (hc : .completed (.moduleUnload name) ∈ l)
    (hi : .initFailed ∈ l) (ho : (conf.modules name).onLoad = true) :
    .completed (.moduleLoad name) ∈ l := by
  have hs : .started (.moduleUnload name) ∈ l := h.mem_of_fits hc fun _ hf => hf.2
  obtain ⟨l₁, l₂, rfl, hl, _⟩ := h.mem hs
  have hloaded := hl (h.failed_before (.inr ⟨name, rfl⟩) hi)
  exact h.mem_of_fits (List.mem_append_right _ (List.mem_cons_of_mem _ hloaded))
    fun _ hf => hf.2 ho

theorem allRun_append (h : HookTrace conf (l₂ ++ l₁)) (ha : AllRun conf l₁) :
    AllRun conf (l₂ ++ l₁) := by
  have hone {hook : Hook} (hc : l₁.count (.completed hook) = 1)
      (hle : (l₂ ++ l₁).count (.completed hook) ≤ 1) :
      (l₂ ++ l₁).count (.completed hook) = 1 := by
    rw [List.count_append] at hle ⊢
    omega
  constructor
  · intro ⟨ho, hi⟩
    refine hone (ha.handler ⟨ho, fun hm => hi (List.mem_append_right _ hm)⟩) h.count_handler
  · intro name ⟨hn, ho, hl⟩
    refine hone (ha.modules name ⟨hn, ho, fun hi => ?_⟩) (h.count_module name)
    rcases List.mem_append.mp (hl (List.mem_append_right _ hi)) with hm | hm
    · obtain ⟨a, b, rfl⟩ := List.append_of_mem hm
      have h' : HookTrace conf (a ++ .loaded name :: (b ++ l₁)) := by
        simpa only [List.append_assoc, List.cons_append] using h
      exact absurd (List.mem_append_right b hi) h'.split.1
    · exact hm

theorem tail (h : HookTrace conf (l₂ ++ l₁)) : HookTrace conf l₁ := by
  induction l₂ with
  | nil => exact h
  | cons _ l₂ ih =>
    cases h with
    | cons h _ => exact ih h

/-- The lock is released after a recovery, or after every hook that applies has run. -/
theorem released (h : HookTrace conf (l₂ ++ .released :: l₁)) :
    .recovered ∈ l₁ ∨ AllRun conf l₁ := by
  rcases h.split with hp | hr
  · obtain ⟨a, b, rfl⟩ := List.append_of_mem hp
    cases h.tail with
    | cons ht _ =>
      have ha : AllRun conf b := ht.split
      rw [List.append_cons] at ht ⊢
      exact .inr (allRun_append ht ha)
  · exact .inl hr

end HookTrace

namespace HookedEntity

/-- No unload hook has been called. -/
def NoUnload (l : List HookEvent) : Prop :=
  .started .unload ∉ l ∧ ∀ name, .started (.moduleUnload name) ∉ l

/-- The initialization is under way. -/
structure Early (s : HookedEntity) : Prop where
  failed : s.initFailed = false
  none : NoUnload s.log

/-- A successful initialization has made every module and run the handler's hook. -/
def Settled (conf : HookConf) (s : HookedEntity) : Prop :=
  s.initFailed = false →
    s.modules.Perm conf.names ∧ (conf.onLoad = true → .completed .load ∈ s.log)

/-- The handler's unload hook has completed, if it applies. -/
def HandlerDone (conf : HookConf) (s : HookedEntity) : Prop :=
  s.initFailed = false → conf.onUnload = true → s.handlerUnloaded = true

/-- Of the unload hooks of modules that apply only those of `rest` have not completed. -/
def Remaining (conf : HookConf) (s : HookedEntity) (rest : List String) : Prop :=
  ∀ x ∈ s.modules, (conf.modules x).onUnload = true → (s.initFailed = true → x ∈ s.loadedModules) →
    x ∈ s.unloadedModules ∨ x ∈ rest

/-- The flags of the entity tell what has happened to it. -/
structure Core (conf : HookConf) (s : HookedEntity) : Prop where
  trace : HookTrace conf s.log
  failed : s.initFailed = true ↔ .initFailed ∈ s.log
  handler : s.handlerUnloaded = true ↔ .completed .unload ∈ s.log
  unloaded : ∀ x, x ∈ s.unloadedModules ↔ .completed (.moduleUnload x) ∈ s.log
  loaded : ∀ x, x ∈ s.loadedModules ↔ .loaded x ∈ s.log
  made : ∀ x ∈ s.loadedModules, x ∈ s.modules
  ran : s.unloadHooksRun = true → Settled conf s ∧ HandlerDone conf s ∧ Remaining conf s []
  persisted : s.persisted = true → .persisted ∈ s.log ∨ .recovered ∈ s.log
  lost : s.invalid = true ∨ s.valid = false → .leaseLost ∈ s.log ∨ s.persisted = true

/-- What holds where the coroutine is. -/
def Phase (conf : HookConf) (s : HookedEntity) : HookPc → Prop
  | .constructing => s.Early ∧ s.loadedModules = [] ∧ s.unloadHooksRun = false
  | .loadOrdering => s.Early ∧ s.modules.Perm conf.names
  | .loadingModule name rest =>
    s.Early ∧ s.modules.Perm conf.names ∧ ∀ x ∈ name :: rest, x ∈ s.modules
  | .loadingHandler => s.Early ∧ s.modules.Perm conf.names
  | .live => s.Settled conf
  | .unloadingHandler =>
    s.Settled conf ∧ s.handlerUnloaded = false ∧ .started .unload ∈ s.log
  | .unloadOrdering => s.Settled conf ∧ s.HandlerDone conf
  | .unloadingModule name rest =>
    s.Settled conf ∧ s.HandlerDone conf ∧ s.Remaining conf (name :: rest) ∧
      name ∉ s.unloadedModules ∧ .started (.moduleUnload name) ∈ s.log
  | .persisting => s.unloadHooksRun = true
  | .discarding => s.Settled conf ∧ .leaseLost ∈ s.log
  | .recovering => s.Settled conf ∧ .leaseLost ∈ s.log
  | .releasing => s.Settled conf ∧ s.persisted = true
  | .waiting => s.Settled conf
  | .gone => True

structure Inv (conf : HookConf) (s : HookedEntity) : Prop where
  core : s.Core conf
  phase : s.Phase conf s.pc

theorem Core.goTo (h : s.Core conf) (pc : HookPc) : (s.goTo pc).Core conf :=
  ⟨h.trace, h.failed, h.handler, h.unloaded, h.loaded, h.made, h.ran, h.persisted, h.lost⟩

theorem Settled.push (h : s.Settled conf) (e : HookEvent) : (s.push e).Settled conf :=
  fun hf => (h hf).imp_right fun hl ho => List.mem_cons_of_mem _ (hl ho)

/-- The events that a flag of the entity stands for. -/
def Marks : HookEvent → Bool
  | .initFailed | .loaded _ | .completed .unload | .completed (.moduleUnload _) => true
  | _ => false

theorem mem_push (h : Marks e = false) (h' : Marks e' = true) : e' ∈ e :: l ↔ e' ∈ l := by
  rw [List.mem_cons]
  refine or_iff_right fun he => ?_
  rw [he, h] at h'
  cases h'

theorem Core.push (h : s.Core conf) (hf : Fits conf s.log e) (hm : Marks e = false) :
    (s.push e).Core conf := by
  refine ⟨.cons h.trace hf, h.failed.trans (mem_push hm rfl).symm,
    h.handler.trans (mem_push hm rfl).symm, fun x => (h.unloaded x).trans (mem_push hm rfl).symm,
    fun x => (h.loaded x).trans (mem_push hm rfl).symm, h.made,
    fun hr => (h.ran hr).imp_left fun hs => hs.push e, fun hp => ?_, fun hv => ?_⟩
  · exact (h.persisted hp).imp (List.mem_cons_of_mem _) (List.mem_cons_of_mem _)
  · exact (h.lost hv).imp_left (List.mem_cons_of_mem _)

theorem Core.allRun (h : s.Core conf) (hr : s.unloadHooksRun = true) : AllRun conf s.log := by
  obtain ⟨hs, hd, hm⟩ := h.ran hr
  constructor
  · intro ⟨ho, hi⟩
    have hf : s.initFailed = false := Bool.eq_false_iff.mpr fun hf => hi (h.failed.mp hf)
    have hc := h.handler.mp (hd hf ho)
    exact Nat.le_antisymm h.trace.count_handler (List.count_pos_iff.mpr hc)
  · intro x ⟨hx, ho, hi⟩
    have hin : x ∈ s.modules := by
      cases hf : s.initFailed with
      | false => exact (hs hf).1.mem_iff.mpr hx
      | true => exact h.made x ((h.loaded x).mpr (hi (h.failed.mp hf)))
    have hdone := hm x hin ho fun hf => (h.loaded x).mpr (hi (h.failed.mp hf))
    have hc := (h.unloaded x).mp (hdone.resolve_right (List.not_mem_nil))
    exact Nat.le_antisymm (h.trace.count_module x) (List.count_pos_iff.mpr hc)

theorem Inv.releaseLock (h : s.Core conf) (hs : s.Settled conf) (hp : s.persisted = true) :
    Inv conf s.releaseLock := by
  rw [HookedEntity.releaseLock]
  split
  · exact ⟨h.goTo _, hs, hp⟩
  · exact ⟨h.goTo _, trivial⟩

theorem Inv.hooksDone (h : s.Core conf) (hs : s.Settled conf) (hd : s.HandlerDone conf)
    (hr : s.Remaining conf []) : Inv conf s.hooksDone :=
  ⟨⟨h.trace, h.failed, h.handler, h.unloaded, h.loaded, h.made, fun _ => ⟨hs, hd, hr⟩,
    h.persisted, h.lost⟩, rfl⟩

/-- The loop over the modules calls a hook only if it applies and has not completed, after the
handler's. -/
theorem Inv.nextUnload (h : s.Core conf) (hs : s.Settled conf) (hd : s.HandlerDone conf)
    (hr : s.Remaining conf rest) : Inv conf (s.nextUnload conf rest) := by
  induction rest with
  | nil => exact .hooksDone h hs hd hr
  | cons name rest ih =>
    rw [HookedEntity.nextUnload]
    split
    · next hn =>
      simp only [needUnload, Bool.and_eq_true, decide_eq_true_eq, Bool.or_eq_true,
        Bool.not_eq_true'] at hn
      obtain ⟨⟨ho, hu⟩, hl⟩ := hn
      have hfit : Fits conf s.log (.started (.moduleUnload name)) := by
        refine ⟨fun hi => ?_, fun hdue => ?_⟩
        · rcases hl with hl | hl
          · exact absurd (h.failed.mpr hi) (by rw [hl]; decide)
          · exact (h.loaded name).mp hl
        · have hf : s.initFailed = false :=
            Bool.eq_false_iff.mpr fun hf => hdue.2 (h.failed.mp hf)
          exact h.handler.mp (hd hf hdue.1)
      exact ⟨(h.push hfit rfl).goTo _, hs.push _, hd, hr, hu, List.mem_cons_self⟩
    · next hn =>
      refine ih fun x hx ho hl => ?_
      rcases hr x hx ho hl with hu | hm
      · exact .inl hu
      · rcases List.mem_cons.mp hm with rfl | hm
        · simp only [needUnload, ho, Bool.true_and, Bool.and_eq_true, decide_eq_true_eq,
            Bool.or_eq_true, Bool.not_eq_true', not_and_or, not_or, not_not,
            Bool.not_eq_false] at hn
          rcases hn with hu | ⟨hf, hnl⟩
          · exact .inl hu
          · exact absurd (hl hf) hnl
        · exact .inr hm

theorem Inv.unloadHooks (h : s.Core conf) (hs : s.Settled conf) :
    Inv conf (s.unloadHooks conf) := by
  rw [HookedEntity.unloadHooks]
  split
  · next hc =>
    simp only [Bool.and_eq_true, Bool.not_eq_true'] at hc
    obtain ⟨⟨hf, _⟩, hu⟩ := hc
    have hfit : Fits conf s.log (.started .unload) := by
      refine ⟨fun hi => ?_, (hs hf).2⟩
      rw [h.failed.mpr hi] at hf
      cases hf
    exact ⟨(h.push hfit rfl).goTo _, hs.push _, hu, List.mem_cons_self⟩
  · next hc =>
    refine ⟨h.goTo _, hs, fun hf ho => ?_⟩
    have hf : s.initFailed = false := hf
    by_contra hu
    have hu : s.handlerUnloaded = false := Bool.eq_false_iff.mpr hu
    exact hc (by simp only [hf, ho, hu, Bool.not_false, Bool.and_self])

theorem Inv.unloadEntity (h : s.Core conf) (hs : s.Settled conf) :
    Inv conf (s.unloadEntity conf) := by
  have hu : Core conf { s with unloading := true } :=
    ⟨h.trace, h.failed, h.handler, h.unloaded, h.loaded, h.made, h.ran, h.persisted, h.lost⟩
  simp only [HookedEntity.unloadEntity]
  split
  · next hp => exact .releaseLock hu hs hp
  · next hp =>
    split
    · next hv =>
      have hv' : s.invalid = true ∨ s.valid = false := by
        simpa only [Bool.or_eq_true, Bool.not_eq_true'] using hv
      have hl := (h.lost hv').resolve_right hp
      exact ⟨⟨h.trace, h.failed, h.handler, h.unloaded, h.loaded, h.made, h.ran, h.persisted,
        fun _ => .inl hl⟩, hs, hl⟩
    · split
      · next hr => exact ⟨hu.goTo _, hr⟩
      · exact .unloadHooks hu hs

theorem Inv.failInit (h : s.Core conf) (he : s.Early) : Inv conf (s.failInit conf) := by
  have hmem {e : HookEvent} (hne : e ≠ .initFailed) : e ∈ .initFailed :: s.log ↔ e ∈ s.log := by
    rw [List.mem_cons]
    exact or_iff_right hne
  refine .unloadEntity ⟨.cons h.trace he.none, ⟨fun _ => List.mem_cons_self, fun _ => rfl⟩,
    h.handler.trans (hmem (by simp)).symm, fun x => (h.unloaded x).trans (hmem (by simp)).symm,
    fun x => (h.loaded x).trans (hmem (by simp)).symm, h.made, fun hr => ?_, fun hp => ?_,
    fun hv => ?_⟩ fun hf => (by cases hf)
  · refine ⟨fun hf => (by cases hf), fun hf => (by cases hf), fun x hx ho hl => ?_⟩
    exact (h.ran hr).2.2 x hx ho fun _ => hl rfl
  · exact (h.persisted hp).imp (List.mem_cons_of_mem _) (List.mem_cons_of_mem _)
  · exact (h.lost hv).imp_left (List.mem_cons_of_mem _)

theorem Inv.initialized (h : s.Core conf) (he : s.Early) (hs : s.Settled conf) :
    Inv conf (s.initialized conf) := by
  rw [HookedEntity.initialized]
  split
  · exact ⟨h.goTo _, hs⟩
  · exact .failInit h he

/-- An event other than the call of an unload hook. -/
def Startless : HookEvent → Bool
  | .started .unload | .started (.moduleUnload _) => false
  | _ => true

theorem Early.push (he : s.Early) (h : Startless e = true) : (s.push e).Early := by
  refine ⟨he.failed, fun hm => ?_, fun x hm => ?_⟩
  · rcases List.mem_cons.mp hm with rfl | hm
    · cases h
    · exact he.none.1 hm
  · rcases List.mem_cons.mp hm with rfl | hm
    · cases h
    · exact he.none.2 x hm

theorem Early.goTo (he : s.Early) (pc : HookPc) : (s.goTo pc).Early := ⟨he.failed, he.none⟩

theorem Early.markLoaded (he : s.Early) (name : String) : (s.markLoaded name).Early :=
  ⟨he.failed, (he.push (e := .loaded name) rfl).none⟩

theorem Core.markLoaded (h : s.Core conf) (he : s.Early) (hx : name ∈ s.modules)
    (hl : (conf.modules name).onLoad = true → .completed (.moduleLoad name) ∈ s.log) :
    (s.markLoaded name).Core conf := by
  have hi : .initFailed ∉ s.log := fun hi => by
    cases he.failed.symm.trans (h.failed.mpr hi)
  have hmem {e : HookEvent} (hne : e ≠ .loaded name) : e ∈ .loaded name :: s.log ↔ e ∈ s.log := by
    rw [List.mem_cons]
    exact or_iff_right hne
  refine ⟨.cons h.trace ⟨hi, hl⟩, h.failed.trans (hmem (by simp)).symm,
    h.handler.trans (hmem (by simp)).symm, fun x => (h.unloaded x).trans (hmem (by simp)).symm,
    fun x => ?_, fun x hm => ?_, fun hr => ?_, fun hp => ?_, fun hv => ?_⟩
  · simp only [HookedEntity.markLoaded, HookedEntity.push, List.mem_cons, HookEvent.loaded.injEq,
      h.loaded x]
  · rcases List.mem_cons.mp hm with rfl | hm
    · exact hx
    · exact h.made x hm
  · obtain ⟨hs, hd, hm⟩ := h.ran hr
    refine ⟨hs.push _, hd, fun x hx ho _ => hm x hx ho fun hf => ?_⟩
    cases he.failed.symm.trans hf
  · exact (h.persisted hp).imp (List.mem_cons_of_mem _) (List.mem_cons_of_mem _)
  · exact (h.lost hv).imp_left (List.mem_cons_of_mem _)

theorem Inv.loadHandler (h : s.Core conf) (he : s.Early) (hm : s.modules.Perm conf.names) :
    Inv conf (s.loadHandler conf) := by
  rw [HookedEntity.loadHandler]
  split
  · have he' := he.push (e := .started .load) rfl
    exact ⟨(h.push (e := .started .load) trivial rfl).goTo _, he'.goTo _, hm⟩
  · next ho => exact .initialized h he fun _ => ⟨hm, fun ho' => absurd ho' ho⟩

theorem Inv.nextLoad (h : s.Core conf) (he : s.Early) (hm : s.modules.Perm conf.names)
    (hr : ∀ x ∈ rest, x ∈ s.modules) : Inv conf (s.nextLoad conf rest) := by
  induction rest generalizing s with
  | nil => exact .loadHandler h he hm
  | cons name rest ih =>
    rw [HookedEntity.nextLoad]
    split
    · have he' := he.push (e := .started (.moduleLoad name)) rfl
      exact ⟨(h.push (e := .started (.moduleLoad name)) trivial rfl).goTo _, he'.goTo _, hm, hr⟩
    · next ho =>
      exact ih (h.markLoaded he (hr name List.mem_cons_self) fun ho' => absurd ho' ho)
        (he.markLoaded name) hm fun x hx => hr x (List.mem_cons_of_mem _ hx)

theorem Core.handlerUnloaded (h : s.Core conf) (hu : s.handlerUnloaded = false)
    (hs : .started .unload ∈ s.log) :
    Core conf { s.push (.completed .unload) with handlerUnloaded := true } := by
  have hmem {e : HookEvent} (hne : e ≠ .completed .unload) :
      e ∈ .completed .unload :: s.log ↔ e ∈ s.log := by
    rw [List.mem_cons]
    exact or_iff_right hne
  have hn : .completed .unload ∉ s.log := fun hm => by
    rw [h.handler.mpr hm] at hu
    cases hu
  refine ⟨.cons h.trace ⟨hn, hs⟩, h.failed.trans (hmem (by simp)).symm,
    ⟨fun _ => List.mem_cons_self, fun _ => rfl⟩,
    fun x => (h.unloaded x).trans (hmem (by simp)).symm,
    fun x => (h.loaded x).trans (hmem (by simp)).symm, h.made, fun hr => ?_, fun hp => ?_,
    fun hv => ?_⟩
  · obtain ⟨hset, _, hm⟩ := h.ran hr
    exact ⟨hset.push _, fun _ _ => rfl, hm⟩
  · exact (h.persisted hp).imp (List.mem_cons_of_mem _) (List.mem_cons_of_mem _)
  · exact (h.lost hv).imp_left (List.mem_cons_of_mem _)

theorem Core.moduleUnloaded (h : s.Core conf) (hu : name ∉ s.unloadedModules)
    (hs : .started (.moduleUnload name) ∈ s.log) :
    Core conf { s.push (.completed (.moduleUnload name)) with
      unloadedModules := name :: s.unloadedModules } := by
  have hmem {e : HookEvent} (hne : e ≠ .completed (.moduleUnload name)) :
      e ∈ .completed (.moduleUnload name) :: s.log ↔ e ∈ s.log := by
    rw [List.mem_cons]
    exact or_iff_right hne
  have hn : .completed (.moduleUnload name) ∉ s.log := fun hm => hu ((h.unloaded name).mpr hm)
  refine ⟨.cons h.trace ⟨hn, hs⟩, h.failed.trans (hmem (by simp)).symm,
    h.handler.trans (hmem (by simp)).symm, fun x => ?_,
    fun x => (h.loaded x).trans (hmem (by simp)).symm, h.made, fun hr => ?_, fun hp => ?_,
    fun hv => ?_⟩
  · simp only [HookedEntity.push, List.mem_cons, HookEvent.completed.injEq,
      Hook.moduleUnload.injEq, h.unloaded x]
  · obtain ⟨hset, hd, hm⟩ := h.ran hr
    exact ⟨hset.push _, hd, fun x hx ho hl => (hm x hx ho hl).imp_left (List.mem_cons_of_mem _)⟩
  · exact (h.persisted hp).imp (List.mem_cons_of_mem _) (List.mem_cons_of_mem _)
  · exact (h.lost hv).imp_left (List.mem_cons_of_mem _)

theorem Inv.returned (h : s.Inv conf) (ht : s.returned conf = some t) : t.Inv conf := by
  have hc := h.core
  have hp := h.phase
  simp only [HookedEntity.returned] at ht
  split at ht
  · next name rest hpc =>
    cases ht
    rw [hpc] at hp
    obtain ⟨he, hm, hr⟩ := hp
    have he' := he.push (e := .completed (.moduleLoad name)) rfl
    have hc' := hc.push (e := .completed (.moduleLoad name)) trivial rfl
    exact .nextLoad (hc'.markLoaded he' (hr name List.mem_cons_self) fun _ => List.mem_cons_self)
      (he'.markLoaded name) hm fun x hx => hr x (List.mem_cons_of_mem _ hx)
  · next hpc =>
    cases ht
    rw [hpc] at hp
    exact .initialized (hc.push (e := .completed .load) trivial rfl)
      (hp.1.push (e := .completed .load) rfl) fun _ => ⟨hp.2, fun _ => List.mem_cons_self⟩
  · next hpc =>
    cases ht
    rw [hpc] at hp
    exact ⟨(hc.handlerUnloaded hp.2.1 hp.2.2).goTo _, hp.1.push _, fun _ _ => rfl⟩
  · next name rest hpc =>
    cases ht
    rw [hpc] at hp
    obtain ⟨hs, hd, hr, hu, hst⟩ := hp
    refine .nextUnload (hc.moduleUnloaded hu hst) (hs.push _) hd fun x hx ho hl => ?_
    rcases hr x hx ho hl with hx | hx
    · exact .inl (List.mem_cons_of_mem _ hx)
    · rcases List.mem_cons.mp hx with rfl | hx
      · exact .inl List.mem_cons_self
      · exact .inr hx
  · cases ht

theorem Inv.raised (h : s.Inv conf) (ht : s.raised conf = some t) : t.Inv conf := by
  have hp := h.phase
  simp only [HookedEntity.raised] at ht
  split at ht
  · next hpc =>
    cases ht
    rw [hpc] at hp
    exact .failInit h.core hp.1
  · next hpc =>
    cases ht
    rw [hpc] at hp
    exact .failInit h.core hp.1
  · next hpc =>
    cases ht
    rw [hpc] at hp
    exact ⟨h.core.goTo _, hp.1⟩
  · next hpc =>
    cases ht
    rw [hpc] at hp
    exact ⟨h.core.goTo _, hp.1⟩
  · cases ht

theorem Inv.released (h : s.Core conf) (hs : s.Settled conf) (hp : s.persisted = true) (ok : Bool) :
    Inv conf (if ok then (s.push .released).goTo .gone
      else { s with valid := false }.goTo .waiting) := by
  cases ok with
  | true => exact ⟨(h.push (e := .released) (h.persisted hp) rfl).goTo _, trivial⟩
  | false =>
    exact ⟨⟨h.trace, h.failed, h.handler, h.unloaded, h.loaded, h.made, h.ran, h.persisted,
      fun _ => .inr hp⟩, hs⟩

theorem Phase.push {pc : HookPc} (h : s.Phase conf pc) (he : Startless e = true) :
    (s.push e).Phase conf pc := by
  cases pc with
  | constructing => exact ⟨h.1.push he, h.2⟩
  | loadOrdering => exact ⟨h.1.push he, h.2⟩
  | loadingModule name rest => exact ⟨h.1.push he, h.2⟩
  | loadingHandler => exact ⟨h.1.push he, h.2⟩
  | live => exact Settled.push h e
  | unloadingHandler => exact ⟨h.1.push e, h.2.1, List.mem_cons_of_mem _ h.2.2⟩
  | unloadOrdering => exact ⟨h.1.push e, h.2⟩
  | unloadingModule name rest =>
    exact ⟨h.1.push e, h.2.1, h.2.2.1, h.2.2.2.1, List.mem_cons_of_mem _ h.2.2.2.2⟩
  | persisting => exact h
  | discarding => exact ⟨h.1.push e, List.mem_cons_of_mem _ h.2⟩
  | recovering => exact ⟨h.1.push e, List.mem_cons_of_mem _ h.2⟩
  | releasing => exact ⟨h.1.push e, h.2⟩
  | waiting => exact Settled.push h e
  | gone => trivial

theorem Phase.lease {pc : HookPc} (h : s.Phase conf pc) (valid invalid : Bool) :
    Phase conf { s with valid := valid, invalid := invalid } pc := by
  cases pc with
  | constructing => exact ⟨⟨h.1.failed, h.1.none⟩, h.2⟩
  | loadOrdering => exact ⟨⟨h.1.failed, h.1.none⟩, h.2⟩
  | loadingModule name rest => exact ⟨⟨h.1.failed, h.1.none⟩, h.2⟩
  | loadingHandler => exact ⟨⟨h.1.failed, h.1.none⟩, h.2⟩
  | _ => exact h

theorem Inv.loseLease (h : s.Inv conf) : Inv conf { s.push .leaseLost with valid := false } := by
  have hc := h.core.push (e := .leaseLost) trivial rfl
  refine ⟨⟨hc.trace, hc.failed, hc.handler, hc.unloaded, hc.loaded, hc.made, hc.ran, hc.persisted,
    fun _ => .inl List.mem_cons_self⟩, ?_⟩
  exact (h.phase.push (e := .leaseLost) rfl).lease false s.invalid

theorem Inv.lockExpired (h : s.Inv conf) (hv : s.valid = false) :
    Inv conf { s with invalid := true } := by
  have hc := h.core
  refine ⟨⟨hc.trace, hc.failed, hc.handler, hc.unloaded, hc.loaded, hc.made, hc.ran, hc.persisted,
    fun _ => hc.lost (.inr hv)⟩, ?_⟩
  exact h.phase.lease s.valid true

theorem Inv.construct (h : s.Core conf) (hp : s.Phase conf .constructing)
    (ho : order.Perm conf.names) (k : Nat) :
    Inv conf (if conf.names.length ≤ k then { s with modules := order, pc := .loadOrdering }
      else { s with modules := order.take k }.failInit conf) := by
  obtain ⟨he, hl, hr⟩ := hp
  have hmade (l : List String) : ∀ x ∈ s.loadedModules, x ∈ l := by
    intro x hx
    rw [hl] at hx
    cases hx
  have hran (P : Prop) : s.unloadHooksRun = true → P := by
    intro hrun
    cases hr.symm.trans hrun
  split
  · exact ⟨⟨h.trace, h.failed, h.handler, h.unloaded, h.loaded, hmade order, hran _, h.persisted,
      h.lost⟩, ⟨he.failed, he.none⟩, ho⟩
  · exact .failInit ⟨h.trace, h.failed, h.handler, h.unloaded, h.loaded, hmade _, hran _,
      h.persisted, h.lost⟩ ⟨he.failed, he.none⟩

/-- The document has been written, by the unload or by a recovery; the lock goes next. -/
theorem Inv.written (h : s.Core conf) (hs : s.Settled conf)
    (hw : .persisted ∈ s.log ∨ .recovered ∈ s.log) (valid invalid : Bool) :
    Inv conf { s with valid := valid, invalid := invalid, persisted := true }.releaseLock :=
  .releaseLock ⟨h.trace, h.failed, h.handler, h.unloaded, h.loaded, h.made, h.ran, fun _ => hw,
    fun _ => .inr rfl⟩ hs rfl

theorem Inv.step (h : s.Inv conf) (ht : s.step conf a = some t) : t.Inv conf := by
  have hc := h.core
  have hp := h.phase
  cases a with
  | construct order k =>
    obtain ⟨⟨hpc, ho⟩, ht⟩ := Option.ite_none_right_eq_some.mp ht
    rw [hpc] at hp
    have hi := Inv.construct hc hp ho k
    split at ht
    · next hk =>
      cases ht
      rwa [if_pos hk] at hi
    · next hk =>
      cases ht
      rwa [if_neg hk] at hi
  | loadModules order =>
    obtain ⟨⟨hpc, ho⟩, ht⟩ := Option.ite_none_right_eq_some.mp ht
    cases ht
    rw [hpc] at hp
    exact .nextLoad hc hp.1 hp.2 fun x hx => ho.mem_iff.mp hx
  | returned => exact h.returned ht
  | raised => exact h.raised ht
  | unloadModules order =>
    obtain ⟨⟨hpc, ho⟩, ht⟩ := Option.ite_none_right_eq_some.mp ht
    cases ht
    rw [hpc] at hp
    exact .nextUnload hc hp.1 hp.2 fun x hx _ _ => .inr (ho.mem_iff.mpr hx)
  | dbUnload ok =>
    obtain ⟨hpc, ht⟩ := Option.ite_none_right_eq_some.mp ht
    cases ht
    rw [hpc] at hp
    have hs := (hc.ran hp).1
    cases ok with
    | true =>
      exact .written (hc.push (e := .persisted) (hc.allRun hp) rfl) (hs.push _)
        (.inl List.mem_cons_self) s.valid s.invalid
    | false => exact ⟨hc.goTo _, hs⟩
  | discardClean ok =>
    obtain ⟨hpc, ht⟩ := Option.ite_none_right_eq_some.mp ht
    cases ht
    rw [hpc] at hp
    cases ok with
    | true => exact ⟨hc.goTo _, trivial⟩
    | false => exact ⟨hc.goTo _, hp⟩
  | recover recovered forget =>
    obtain ⟨hpc, ht⟩ := Option.ite_none_right_eq_some.mp ht
    cases ht
    rw [hpc] at hp
    cases recovered with
    | true =>
      exact .written (hc.push (e := .recovered) hp.2 rfl) (hp.1.push _)
        (.inr List.mem_cons_self) true false
    | false =>
      cases forget with
      | true => exact ⟨hc.goTo _, trivial⟩
      | false => exact ⟨hc.goTo _, hp.1⟩
  | unlocked ok =>
    obtain ⟨hpc, ht⟩ := Option.ite_none_right_eq_some.mp ht
    cases ht
    rw [hpc] at hp
    exact .released hc hp.1 hp.2 ok
  | loseLease =>
    cases ht
    exact h.loseLease
  | lockExpired =>
    obtain ⟨hv, ht⟩ := Option.ite_none_left_eq_some.mp ht
    cases ht
    exact h.lockExpired (Bool.eq_false_iff.mpr hv)
  | unload =>
    obtain ⟨hpc, ht⟩ := Option.ite_none_right_eq_some.mp ht
    cases ht
    rcases hpc with hpc | hpc
    · rw [hpc] at hp
      exact .unloadEntity hc hp
    · rw [hpc] at hp
      exact .unloadEntity hc hp

theorem inv_reaches (h : (system conf).Reaches anyStep s) : s.Inv conf := by
  refine h.invariant ?_ fun _ _ _ hi _ ht => hi.step ht
  rintro _ rfl
  refine ⟨⟨.nil, ?_, ?_, ?_, ?_, ?_, ?_, ?_, ?_⟩, ⟨rfl, ?_, ?_⟩, rfl, rfl⟩
  all_goals simp [Settled]

/-- The discipline the unload hooks keep: `log` is the history of the entity, latest first. -/
structure HookDiscipline (conf : HookConf) (log : List HookEvent) : Prop where
  handlerOnce : log.count (.completed .unload) ≤ 1
  handlerLoaded : .completed .unload ∈ log → conf.onLoad = true → .completed .load ∈ log
  moduleOnce : ∀ name, log.count (.completed (.moduleUnload name)) ≤ 1
  moduleLoaded : ∀ name, .completed (.moduleUnload name) ∈ log → .initFailed ∈ log →
    (conf.modules name).onLoad = true → .completed (.moduleLoad name) ∈ log
  handlerFirst : ∀ name l₁ l₂, log = l₂ ++ .started (.moduleUnload name) :: l₁ →
    HandlerDue conf l₁ → .completed .unload ∈ l₁
  persisted : ∀ l₁ l₂, log = l₂ ++ .persisted :: l₁ → AllRun conf l₁
  released : ∀ l₁ l₂, log = l₂ ++ .released :: l₁ → .recovered ∈ l₁ ∨ AllRun conf l₁
  recovered : ∀ l₁ l₂, log = l₂ ++ .recovered :: l₁ → .leaseLost ∈ l₁

theorem unload_hooks_once (h : (system conf).Reaches anyStep s) : HookDiscipline conf s.log := by
  have ht := (inv_reaches h).core.trace
  have hsplit {l₁ l₂ : List HookEvent} {e : HookEvent} (hl : s.log = l₂ ++ e :: l₁) :
      HookTrace conf (l₂ ++ e :: l₁) := hl ▸ ht
  refine ⟨ht.count_handler, fun hc => (ht.handler_loaded hc).2, ht.count_module,
    fun name hc hi ho => ht.module_loaded hc hi ho, fun name l₁ l₂ hl => (hsplit hl).split.2,
    fun l₁ l₂ hl => (hsplit hl).split, fun l₁ l₂ hl => (hsplit hl).released,
    fun l₁ l₂ hl => (hsplit hl).split⟩

/-- A handler with both hooks and one module with both. -/
def bagConf : HookConf := ⟨true, true, ["bag"], by decide, fun _ => ⟨true, true⟩⟩

/-- The module's unload hook raises once; the retry runs it and nothing else again. -/
def unloadedTwice : HookedEntity :=
  (system bagConf).run anyStep {}
    [.construct ["bag"] 1, .loadModules ["bag"], .returned, .returned, .unload, .returned,
      .unloadModules ["bag"], .raised, .unload, .unloadModules ["bag"], .returned, .dbUnload true,
      .unlocked true] (by decide +kernel)

theorem unload_hooks_once_unloadedTwice : HookDiscipline bagConf unloadedTwice.log ∧
    unloadedTwice.log.count (.started (.moduleUnload "bag")) = 2 ∧ unloadedTwice.pc = .gone :=
  ⟨unload_hooks_once ((system bagConf).run_reaches anyStep _ rfl (by decide +kernel)),
    by decide +kernel, by decide +kernel⟩

/-- The lease is lost, and the unsaved changes are recovered under a new lock. -/
def recoveredAfterLoss : HookedEntity :=
  (system bagConf).run anyStep {}
    [.construct ["bag"] 1, .loadModules ["bag"], .returned, .returned, .loseLease, .lockExpired,
      .unload, .discardClean false, .recover true false, .unlocked true] (by decide +kernel)

/-- A recovery writes the document and releases the lock, and no unload hook has run. -/
theorem recovery_skips_hooks : ∃ s, (system bagConf).Reaches anyStep s ∧
    ∃ l₁ l₂, s.log = l₂ ++ .released :: l₁ ∧ .recovered ∈ l₁ ∧ ¬ AllRun bagConf l₁ := by
  refine ⟨recoveredAfterLoss,
    (system bagConf).run_reaches anyStep _ rfl (by decide +kernel), recoveredAfterLoss.log.tail, [],
    by decide +kernel, by decide +kernel, fun h => ?_⟩
  have hc := h.handler ⟨rfl, by decide +kernel⟩
  exact absurd hc (by decide +kernel)

end HookedEntity

end Skyext
