import Skyext.Entity.Timers
import Skyext.Lib.Snoc

namespace Skyext
set_option autoImplicit true

open Machine Snoc

namespace EntityTimers

variable {s t : EntityTimers} {slot : TimerSlot} {obj : Nat} {name : String}

/-- The object is not in the table, or refuses to run anything for good. -/
def Dead (s : EntityTimers) (obj : Nat) : Prop :=
  s.entity = some obj → s.unloading = true ∨ s.valid = false

/-- A slot that has been retired belongs to an object that runs nothing any more. -/
def Spared (s : EntityTimers) (k : Nat) : Prop :=
  s.retired k = true → ∀ slot, s.slots[k]? = some slot → s.Dead slot.obj

def load (s : EntityTimers) (k : Nat) : Nat :=
  s.queue.count (.fire k) + (if s.running = some (.fire k) then 1 else 0) + (s.armed k).toNat

structure Inv (s : EntityTimers) : Prop where
  entity : ∀ obj, s.entity = some obj → obj < s.made
  objs : ∀ (k : Nat) slot, s.slots[k]? = some slot → slot.obj < s.made
  table : ∀ obj name k, s.timers obj name = some k → s.named obj name k = true
  armed : ∀ k slot, s.armed k = true → s.slots[k]? = some slot →
    s.timers slot.obj slot.name = some k
  unused : ∀ k, s.slots.length ≤ k → s.retired k = false ∧ s.armed k = false
  tabled : ∀ obj name k, s.timers obj name = some k → s.Spared k
  queued : ∀ k, .fire k ∈ s.queue → s.Spared k ∧ k < s.slots.length
  running : ∀ k, s.running = some (.fire k) → k < s.slots.length
  once : ∀ k, s.load k ≤ 1
  starts : ∀ r ∈ s.starts, r.retired = false ∧ r.valid = true ∧ s.ofObj r.active r.slot = true

theorem named_iff {k : Nat} : s.named obj name k = true ↔
    ∃ slot, s.slots[k]? = some slot ∧ slot.obj = obj ∧ slot.name = name := by
  cases hk : s.slots[k]? with
  | none => simp [named, hk]
  | some slot => simp [named, hk]

theorem ofObj_iff {k : Nat} : s.ofObj obj k = true ↔
    ∃ slot, s.slots[k]? = some slot ∧ slot.obj = obj := by
  cases hk : s.slots[k]? with
  | none => simp [ofObj, hk]
  | some slot => simp [ofObj, hk]

theorem setTimer_timers (s : EntityTimers) (obj : Nat) (name : String) (v : Option Nat) (o : Nat)
    (n : String) : (s.setTimer obj name v).timers o n =
      if o = obj ∧ n = name then v else s.timers o n := by
  by_cases ho : o = obj
  · subst ho
    simp only [setTimer, Function.update_self, true_and]
    by_cases hn : n = name
    · subst hn
      simp only [Function.update_self, if_true]
    · rw [Function.update_of_ne hn, if_neg hn]
  · simp only [setTimer, Function.update_of_ne ho, ho, false_and, if_false]

theorem load_armed {k : Nat} (hq : t.queue = s.queue) (hr : t.running = s.running)
    (ha : t.armed k = true → s.armed k = true) : t.load k ≤ s.load k := by
  rw [load, load, hq, hr]
  refine Nat.add_le_add_left ?_ _
  cases ht : t.armed k with
  | false => exact Nat.zero_le _
  | true => exact Nat.le_of_eq (congrArg Bool.toNat (ha ht).symm)

theorem Inv.shrink (h : s.Inv) (ht : ∀ o n k, t.timers o n = some k → s.timers o n = some k)
    (ha : ∀ k, t.armed k = true → s.armed k = true ∧ ∀ slot, s.slots[k]? = some slot →
      t.timers slot.obj slot.name = s.timers slot.obj slot.name)
    (he : t = { s with timers := t.timers, armed := t.armed }) : t.Inv := by
  have hload (k : Nat) : t.load k ≤ s.load k :=
    load_armed (by rw [he]) (by rw [he]) fun hk => (ha k hk).1
  rw [he] at hload ⊢
  refine ⟨h.entity, h.objs, fun o n k hk => h.table o n k (ht o n k hk), fun k slot hk hs => ?_,
    fun k hk => ⟨(h.unused k hk).1, ?_⟩, fun o n k hk => h.tabled o n k (ht o n k hk),
    h.queued, h.running, fun k => Nat.le_trans (hload k) (h.once k), h.starts⟩
  · obtain ⟨ha, ht⟩ := ha k hk
    exact (ht slot hs).trans (h.armed k slot ha hs)
  · by_contra hn
    have hs := (ha k (Bool.not_eq_false _ ▸ hn)).1
    rw [(h.unused k hk).2] at hs
    cases hs

theorem Inv.cancelTimer (h : s.Inv) (obj : Nat) (name : String) : (s.cancelTimer obj name).Inv := by
  rw [EntityTimers.cancelTimer]
  split
  · exact h
  · next k hk =>
    refine h.shrink (fun o n k' hk' => ?_) (fun k' hk' => ?_) rfl
    · have hk' : (s.setTimer obj name none).timers o n = some k' := hk'
      rw [setTimer_timers] at hk'
      exact (Option.ite_none_left_eq_some.mp hk').2
    · have ha : Function.update s.armed k false k' = true := hk'
      have hne : k' ≠ k := by
        rintro rfl
        rw [Function.update_self] at ha
        cases ha
      rw [Function.update_of_ne hne] at ha
      refine ⟨ha, fun slot hs => ?_⟩
      refine (s.setTimer_timers obj name none slot.obj slot.name).trans (if_neg ?_)
      rintro ⟨rfl, rfl⟩
      exact hne (Option.some.inj ((h.armed k' slot ha hs).symm.trans hk))

theorem cancelTimer_timers (s : EntityTimers) (obj : Nat) (name : String) :
    (s.cancelTimer obj name).timers obj name = none := by
  rw [cancelTimer]
  split
  · assumption
  · exact (s.setTimer_timers obj name none obj name).trans (if_pos ⟨rfl, rfl⟩)

theorem Inv.cancelAllTimers (h : s.Inv) (obj : Nat) : (s.cancelAllTimers obj).Inv := by
  refine h.shrink (fun o n k hk => ?_) (fun k hk => ?_) rfl
  · by_cases ho : o = obj
    · subst ho
      simp only [EntityTimers.cancelAllTimers, Function.update_self] at hk
      cases hk
    · simpa only [EntityTimers.cancelAllTimers, Function.update_of_ne ho] using hk
  · obtain ⟨ha, hn⟩ := Bool.and_eq_true_iff.mp hk
    refine ⟨ha, fun slot hs => ?_⟩
    have ho : slot.obj ≠ obj := fun ho => by
      simp [hs, ho, ← h.armed k slot ha hs] at hn
    exact congrFun (Function.update_of_ne ho ..) slot.name

theorem Dead.mono (h : s.Dead obj) (he : t.entity = s.entity)
    (hu : s.unloading = true → t.unloading = true)
    (hv : s.valid = false → t.valid = false ∨ t.unloading = true) : t.Dead obj := by
  intro hobj
  rcases h (he ▸ hobj) with h | h
  · exact .inl (hu h)
  · exact (hv h).symm

/-- Slots are retired; none of them is in the table or waits unless its object is dead. -/
theorem Inv.retire (h : s.Inv) (p : Nat → Bool) (hp : ∀ k, s.slots.length ≤ k → p k = false)
    (ht : ∀ obj name k, s.timers obj name = some k → p k = true →
      ∀ slot, s.slots[k]? = some slot → s.Dead slot.obj)
    (hq : ∀ k, .fire k ∈ s.queue → p k = true →
      ∀ slot, s.slots[k]? = some slot → s.Dead slot.obj) : (s.retire p).Inv := by
  have hspared {k : Nat} (hold : s.Spared k)
      (hnew : p k = true → ∀ slot, s.slots[k]? = some slot → s.Dead slot.obj) :
      (s.retire p).Spared k := by
    intro hr slot hs
    rcases Bool.or_eq_true_iff.mp hr with hr | hr
    · exact hold hr slot hs
    · exact hnew hr slot hs
  refine ⟨h.entity, h.objs, h.table, h.armed, fun k hk => ⟨?_, (h.unused k hk).2⟩,
    fun o n k hk => hspared (h.tabled o n k hk) (ht o n k hk),
    fun k hk => (h.queued k hk).imp_left fun hs => hspared hs (hq k hk), h.running, h.once,
    h.starts⟩
  simp only [EntityTimers.retire, (h.unused k hk).1, hp k hk, Bool.or_false]

theorem named_unused {k : Nat} (hk : s.slots.length ≤ k) (obj : Nat) (name : String) :
    s.named obj name k = false := by
  simp only [named, List.getElem?_eq_none hk, Option.any_none]

theorem ofObj_unused {k : Nat} (hk : s.slots.length ≤ k) (obj : Nat) : s.ofObj obj k = false := by
  simp only [ofObj, List.getElem?_eq_none hk, Option.any_none]

theorem retire_cancelTimer (s : EntityTimers) (p : Nat → Bool) (obj : Nat) (name : String) :
    (s.retire p).cancelTimer obj name = (s.cancelTimer obj name).retire p := by
  have ht : (s.retire p).timers obj name = s.timers obj name := rfl
  cases hk : s.timers obj name with
  | none => simp only [cancelTimer, ht, hk]
  | some k =>
    simp only [cancelTimer, ht, hk]
    rfl

theorem cancelTimer_frame (s : EntityTimers) (obj : Nat) (name : String) :
    (s.cancelTimer obj name).slots = s.slots ∧ (s.cancelTimer obj name).queue = s.queue ∧
    (s.cancelTimer obj name).made = s.made := by
  rw [cancelTimer]
  split <;> exact ⟨rfl, rfl, rfl⟩

theorem Inv.cancel (h : s.Inv) (hw : s.waits obj name = false) :
    ((s.retire (s.named obj name)).cancelTimer obj name).Inv := by
  obtain ⟨hslots, hqueue, _⟩ := s.cancelTimer_frame obj name
  have hc := h.cancelTimer obj name
  rw [retire_cancelTimer]
  refine hc.retire _ (fun k hk => named_unused (hslots ▸ hk) obj name)
    (fun o n k hk hp => ?_) fun k hk hp => ?_
  · obtain ⟨slot, hs, rfl, rfl⟩ := named_iff.mp hp
    obtain ⟨slot', hs', rfl, rfl⟩ := named_iff.mp (hc.table o n k hk)
    rw [hslots, hs] at hs'
    cases hs'
    rw [cancelTimer_timers] at hk
    cases hk
  · rw [hqueue] at hk
    have hwaits : s.waits obj name = true := List.any_eq_true.mpr ⟨.fire k, hk, hp⟩
    rw [hw] at hwaits
    cases hwaits

theorem Inv.arm (h : s.Inv) (ho : obj < s.made) (hw : s.waits obj name = false)
    (repeating : Bool) : ((s.retire (s.named obj name)).armTimer obj name repeating).Inv := by
  have hc := h.cancel hw
  have hnone := (s.retire (s.named obj name)).cancelTimer_timers obj name
  have hmade := ((s.retire (s.named obj name)).cancelTimer_frame obj name).2.2
  rw [armTimer]
  generalize (s.retire (s.named obj name)).cancelTimer obj name = u at hc hnone hmade
  have hretired : u.retired u.slots.length = false := (hc.unused _ (Nat.le_refl _)).1
  have hspared {k : Nat} (hs : u.Spared k) : ∀ slot', u.retired k = true →
      (u.slots ++ [⟨obj, name, repeating⟩])[k]? = some slot' → u.Dead slot'.obj := by
    intro slot' hr hk
    rcases getElem?_snoc.mp hk with hk | ⟨rfl, _⟩
    · exact hs hr slot' hk
    · cases hretired.symm.trans hr
  have hnamed {o : Nat} {n : String} {k : Nat} (hk : u.named o n k = true) :
      (u.slots ++ [⟨obj, name, repeating⟩])[k]?.any (fun slot => slot.obj = o && slot.name = n) =
        true := by
    obtain ⟨slot, hs, rfl, rfl⟩ := named_iff.mp hk
    simp [getElem?_snoc.mpr (.inl hs)]
  have hlen : u.slots.length < (u.slots ++ [(⟨obj, name, repeating⟩ : TimerSlot)]).length := by
    rw [List.length_append, List.length_singleton]
    exact Nat.lt_succ_self _
  refine ⟨hc.entity, fun k slot' hk => ?_, fun o n k hk => ?_, fun k slot' hk hs => ?_,
    fun k hk => ?_, fun o n k hk => ?_, fun k hk => ⟨fun hr slot' hs => ?_, ?_⟩,
    fun k hk => Nat.lt_trans (hc.running k hk) hlen, fun k => ?_, fun r hr => ?_⟩
  · rcases getElem?_snoc.mp hk with hk | ⟨_, rfl⟩
    · exact hc.objs k slot' hk
    · exact Nat.lt_of_lt_of_eq ho hmade.symm
  · have hk := (setTimer_timers ..).symm.trans hk
    split at hk
    · next hon =>
      cases hk
      obtain ⟨rfl, rfl⟩ := hon
      simp [named]
    · exact hnamed (hc.table o n k hk)
  · refine (setTimer_timers ..).trans ?_
    rcases getElem?_snoc.mp hs with hs | ⟨rfl, rfl⟩
    · have hne : k ≠ u.slots.length := Nat.ne_of_lt (List.getElem?_eq_some_iff.mp hs).1
      have hk := hc.armed k slot' ((Function.update_of_ne hne ..).symm.trans hk) hs
      rw [if_neg, hk]
      rintro ⟨ho', hn'⟩
      rw [ho', hn', hnone] at hk
      cases hk
    · rw [if_pos ⟨rfl, rfl⟩]
  · simp only [List.length_append, List.length_singleton] at hk
    have hu := hc.unused k (Nat.le_of_succ_le hk)
    exact ⟨hu.1, (Function.update_of_ne (Nat.ne_of_gt hk) ..).trans hu.2⟩
  · have hk := (setTimer_timers ..).symm.trans hk
    split at hk
    · cases hk
      intro hr
      cases hretired.symm.trans hr
    · exact fun hr slot' hs => hspared (hc.tabled o n k hk) slot' hr hs
  · exact hspared (hc.queued k hk).1 slot' hr hs
  · exact Nat.lt_trans (hc.queued k hk).2 hlen
  · change u.queue.count (.fire k) + (if u.running = some (.fire k) then 1 else 0) +
      (Function.update u.armed u.slots.length true k).toNat ≤ 1
    by_cases hk : k = u.slots.length
    · subst hk
      have hq : u.queue.count (.fire u.slots.length) = 0 :=
        List.count_eq_zero_of_not_mem fun hm => Nat.lt_irrefl _ (hc.queued _ hm).2
      have hr : u.running ≠ some (.fire u.slots.length) := fun hr =>
        Nat.lt_irrefl _ (hc.running _ hr)
      simp only [hq, hr, if_false, Nat.zero_add]
      exact Bool.toNat_le _
    · rw [Function.update_of_ne hk]
      exact hc.once k
  · obtain ⟨hr1, hr2, hr3⟩ := hc.starts r hr
    refine ⟨hr1, hr2, ?_⟩
    obtain ⟨slot, hs, ho⟩ := ofObj_iff.mp hr3
    exact ofObj_iff.mpr ⟨slot, getElem?_snoc.mpr (.inl hs), ho⟩

theorem Inv.object (h : s.Inv) (hd : ∀ o, o < s.made → s.Dead o → t.Dead o)
    (he : ∀ o, t.entity = some o → o < t.made) (hm : s.made ≤ t.made)
    (ht : t = { s with
      entity := t.entity, made := t.made, invalid := t.invalid, unloading := t.unloading
      valid := t.valid }) : t.Inv := by
  have hspared {k : Nat} (hs : s.Spared k) : s.retired k = true →
      ∀ slot, s.slots[k]? = some slot → t.Dead slot.obj :=
    fun hr slot hk => hd slot.obj (h.objs k slot hk) (hs hr slot hk)
  rw [ht] at hspared he ⊢
  exact ⟨he, fun k slot hk => Nat.lt_of_lt_of_le (h.objs k slot hk) hm, h.table, h.armed, h.unused,
    fun o n k hk => hspared (h.tabled o n k hk),
    fun k hk => (h.queued k hk).imp_left fun hs => hspared hs, h.running, h.once, h.starts⟩

theorem Inv.fired (h : s.Inv) {k : Nat} (hk : s.slots[k]? = some slot) (hfree : s.load k = 0)
    (ok ran : Bool) : (s.fired k slot ok ran).Inv := by
  have hoff : s.armed k = false := by
    cases ha : s.armed k with
    | false => rfl
    | true => simp [load, ha] at hfree
  rw [EntityTimers.fired]
  split
  · exact h
  · next ht =>
    have ht := not_not.mp ht
    split
    · refine h.shrink (fun o n k' hk' => ?_) (fun k' hk' => ⟨hk', fun slot' hs => ?_⟩) rfl
      · rw [setTimer_timers] at hk'
        exact (Option.ite_none_left_eq_some.mp hk').2
      · have hk' : s.armed k' = true := hk'
        refine (setTimer_timers ..).trans (if_neg ?_)
        rintro ⟨ho, hn⟩
        have htable := h.armed k' slot' hk' hs
        rw [ho, hn, ht] at htable
        cases htable
        cases hoff.symm.trans hk'
    · refine ⟨h.entity, h.objs, h.table, fun k' slot' hk' hs => ?_, fun k' hk' => ?_, h.tabled,
        h.queued, h.running, fun k' => ?_, h.starts⟩
      · by_cases hne : k' = k
        · subst hne
          cases hk.symm.trans hs
          exact ht
        · exact h.armed k' slot' ((Function.update_of_ne hne ..).symm.trans hk') hs
      · have hne : k' ≠ k := by
          rintro rfl
          exact absurd (List.getElem?_eq_some_iff.mp hk).1 (Nat.not_lt.mpr hk')
        exact ⟨(h.unused k' hk').1, (Function.update_of_ne hne ..).trans (h.unused k' hk').2⟩
      · change s.queue.count (.fire k') + (if s.running = some (.fire k') then 1 else 0) +
          (Function.update s.armed k true k').toNat ≤ 1
        by_cases hne : k' = k
        · subst hne
          rw [load, hoff] at hfree
          rw [Function.update_self]
          exact Nat.le_of_eq (congrArg (· + 1) hfree)
        · rw [Function.update_of_ne hne]
          exact h.once k'

theorem get_spec {active : Nat} (h : s.get = some active) :
    s.entity = some active ∧ s.unloading = false ∧ s.valid = true := by
  obtain ⟨hg, he⟩ := Option.ite_none_left_eq_some.mp h
  simp only [Bool.or_eq_true, Bool.not_eq_true', not_or, Bool.not_eq_true,
    Bool.not_eq_false] at hg
  exact ⟨he, hg.1.2, hg.2⟩

theorem Inv.enqueue (h : s.Inv) (j : TimerJob)
    (hj : ∀ k, j = .fire k → s.Spared k ∧ k < s.slots.length ∧ s.load k = 0) :
    Inv { s with queue := s.queue ++ [j] } := by
  refine ⟨h.entity, h.objs, h.table, h.armed, h.unused, h.tabled, fun k hk => ?_, h.running,
    fun k => ?_, h.starts⟩
  · rcases List.mem_append.mp hk with hk | hk
    · exact h.queued k hk
    · obtain ⟨hs, hl, _⟩ := hj k (List.mem_singleton.mp hk).symm
      exact ⟨hs, hl⟩
  · simp only [load, List.count_append]
    by_cases hk : j = .fire k
    · have hfree := (hj k hk).2.2
      rw [load] at hfree
      rw [hk, List.count_singleton_self]
      omega
    · have hone := h.once k
      rw [load] at hone
      rw [List.count_singleton, if_neg (by simpa using hk)]
      omega

theorem Inv.dequeue (h : s.Inv) {queue : List TimerJob} (hq : s.queue = j :: queue) :
    Inv { s with queue := queue } := by
  refine ⟨h.entity, h.objs, h.table, h.armed, h.unused, h.tabled, fun k hk => ?_, h.running,
    fun k => ?_, h.starts⟩
  · exact h.queued k (hq ▸ List.mem_cons_of_mem _ hk)
  · have hone := h.once k
    rw [load, hq, List.count_cons] at hone
    simp only [load]
    omega

theorem Inv.setRunning (h : s.Inv) (j : Option TimerJob)
    (hj : ∀ k, j = some (.fire k) → k < s.slots.length ∧ s.load k = 0) :
    Inv { s with running := j } := by
  refine ⟨h.entity, h.objs, h.table, h.armed, h.unused, h.tabled, h.queued,
    fun k hk => (hj k hk).1, fun k => ?_, h.starts⟩
  have hone := h.once k
  simp only [load] at hone ⊢
  split
  · next hk =>
    have hfree := (hj k hk).2
    rw [load] at hfree
    omega
  · omega

/-- A due timer gets the gate: a slot that has been retired finds its object dead. -/
theorem Inv.runFire (h : s.Inv) {k : Nat} (hk : s.slots[k]? = some slot) (hfree : s.load k = 0)
    (hspared : s.Spared k) : (s.runFire k slot).Inv := by
  rw [EntityTimers.runFire]
  split
  · exact h.fired hk hfree true false
  · next active hget =>
    obtain ⟨he, hu, hv⟩ := get_spec hget
    split
    · next ho =>
      have hlt : k < s.slots.length := (List.getElem?_eq_some_iff.mp hk).1
      have hr := h.setRunning (some (.fire k)) fun k' hk' => by
        cases hk'
        exact ⟨hlt, hfree⟩
      refine ⟨hr.entity, hr.objs, hr.table, hr.armed, hr.unused, hr.tabled, hr.queued, hr.running,
        hr.once, fun r hm => ?_⟩
      rcases List.mem_cons.mp hm with rfl | hm
      · refine ⟨Bool.eq_false_iff.mpr fun hret => ?_, hv, ofObj_iff.mpr ⟨slot, hk, ho.symm⟩⟩
        rcases hspared hret slot hk (ho ▸ he) with hd | hd
        · cases hu.symm.trans hd
        · cases hv.symm.trans hd
      · exact hr.starts r hm
    · exact h.fired hk hfree true true

theorem Inv.start (h : s.Inv) (ht : s.step .start = some t) : t.Inv := by
  simp only [EntityTimers.step] at ht
  split at ht
  · next queue hr hq =>
    cases ht
    exact (h.dequeue hq).setRunning _ fun k hk => by cases hk
  · next k queue hr hq =>
    obtain ⟨slot, hs, rfl⟩ := Option.map_eq_some_iff.mp ht
    refine (h.dequeue hq).runFire hs ?_ (h.queued k (hq ▸ List.mem_cons_self)).1
    have hone := h.once k
    rw [load, hq, List.count_cons_self] at hone
    simp only [load]
    omega
  · cases ht

theorem Inv.finish (h : s.Inv) (raised : Bool) (ht : s.step (.finish raised) = some t) :
    t.Inv := by
  simp only [EntityTimers.step] at ht
  split at ht
  · cases ht
    exact h.setRunning none fun k hk => by cases hk
  · next k hr =>
    obtain ⟨slot, hs, rfl⟩ := Option.map_eq_some_iff.mp ht
    have hn := h.setRunning none fun k hk => by cases hk
    have hfree : load { s with running := none } k = 0 := by
      have hone := h.once k
      rw [load, hr, if_pos rfl] at hone
      simp only [load, reduceCtorEq, if_false]
      omega
    rw [fireEnded]
    split
    · exact hn.fired hs hfree true false
    · split
      · exact hn.fired hs hfree false false
      · exact hn.fired hs hfree true true
  · cases ht

theorem Inv.due (h : s.Inv) {k : Nat} (ht : s.step (.due k) = some t) : t.Inv := by
  simp only [EntityTimers.step] at ht
  split at ht
  · next slot ha hs =>
    have hoff : Inv { s with armed := Function.update s.armed k false } := by
      refine h.shrink (fun _ _ _ hk => hk) (fun k' hk' => ⟨?_, fun _ _ => rfl⟩) rfl
      by_cases hne : k' = k
      · subst hne
        exact ha
      · exact (Function.update_of_ne hne ..).symm.trans hk'
    cases ht
    split
    · next htable =>
      refine hoff.enqueue (.fire k) fun k' hk' => ?_
      cases hk'
      refine ⟨h.tabled _ _ k htable, (List.getElem?_eq_some_iff.mp hs).1, ?_⟩
      have hone := h.once k
      rw [load, ha, Bool.toNat_true] at hone
      simp only [load, Function.update_self, Bool.toNat_false]
      omega
    · exact hoff
  · cases ht

/-- The entity begins to unload. -/
theorem Inv.beginUnload (h : s.Inv) (obj : Nat) :
    Inv { (s.retire (s.ofObj obj)).cancelAllTimers obj with unloading := true } := by
  have hu : Inv { s with unloading := true } :=
    h.object (fun o _ hd => hd.mono rfl (fun _ => rfl) .inl) h.entity (Nat.le_refl _) rfl
  refine (hu.retire (s.ofObj obj) (fun k hk => ofObj_unused hk obj) ?_ ?_).cancelAllTimers obj
  · exact fun _ _ _ _ _ _ _ _ => .inl rfl
  · exact fun _ _ _ _ _ _ => .inl rfl

theorem Inv.loseLease (h : s.Inv) (obj : Nat) :
    Inv { s.retire (s.ofObj obj) with valid := false } := by
  have hv : Inv { s with valid := false } :=
    h.object (fun o _ hd => hd.mono rfl id fun _ => .inl rfl) h.entity (Nat.le_refl _) rfl
  refine hv.retire (s.ofObj obj) (fun k hk => ofObj_unused hk obj) ?_ ?_
  · exact fun _ _ _ _ _ _ _ _ => .inr rfl
  · exact fun _ _ _ _ _ _ => .inr rfl

theorem Inv.step (h : s.Inv) (hok : s.Unhurried a) (ht : s.step a = some t) : t.Inv := by
  cases a with
  | load =>
    obtain ⟨he, ht⟩ := Option.ite_none_right_eq_some.mp ht
    cases ht
    refine h.object (fun o ho hd heq => ?_) (fun o heq => ?_) (Nat.le_succ _) rfl
    · cases heq
      exact absurd ho (Nat.lt_irrefl _)
    · cases heq
      exact Nat.lt_succ_self _
  | arm obj name repeating =>
    obtain ⟨ho, ht⟩ := Option.ite_none_right_eq_some.mp ht
    cases ht
    exact h.arm ho hok repeating
  | cancel obj name =>
    cases ht
    exact h.cancel hok
  | due k => exact h.due ht
  | request =>
    cases ht
    exact h.enqueue .other fun k hk => by cases hk
  | start => exact h.start ht
  | finish raised => exact h.finish raised ht
  | beginUnload =>
    obtain ⟨obj, _, rfl⟩ := Option.map_eq_some_iff.mp ht
    exact h.beginUnload obj
  | loseLease =>
    obtain ⟨obj, _, rfl⟩ := Option.map_eq_some_iff.mp ht
    exact h.loseLease obj
  | lockExpired =>
    obtain ⟨_, ht⟩ := Option.ite_none_left_eq_some.mp ht
    obtain ⟨obj, _, rfl⟩ := Option.map_eq_some_iff.mp ht
    have hc := h.cancelAllTimers obj
    exact hc.object (fun o _ hd => hd.mono rfl id .inl) hc.entity (Nat.le_refl _) rfl
  | recover =>
    obtain ⟨hu, ht⟩ := Option.ite_none_right_eq_some.mp ht
    cases ht
    exact h.object (fun o _ hd => hd.mono rfl id fun _ => .inr hu) h.entity (Nat.le_refl _) rfl
  | forget =>
    obtain ⟨_, ht⟩ := Option.ite_none_right_eq_some.mp ht
    obtain ⟨obj, _, rfl⟩ := Option.map_eq_some_iff.mp ht
    have hc := h.cancelAllTimers obj
    refine hc.object (fun o _ _ heq => ?_) (fun o heq => ?_) (Nat.le_refl _) rfl
    · cases heq
    · cases heq

theorem inv_reaches (h : system.Reaches Unhurried s) : s.Inv := by
  refine h.invariant ?_ fun _ _ _ hi hok ht => hi.step hok ht
  rintro _ rfl
  refine ⟨?_, ?_, ?_, ?_, fun _ _ => ⟨rfl, rfl⟩, ?_, ?_, ?_, fun _ => Nat.zero_le _, ?_⟩
  all_goals simp [fresh]

/-- No function is started after its timer was retired; those that start run on the entity they
were armed on, under a valid lease and one at a time; one timer of a name is armed. -/
structure Sound (s : EntityTimers) : Prop where
  starts : ∀ r ∈ s.starts, r.retired = false ∧ r.valid = true ∧ s.ofObj r.active r.slot = true
  once : ∀ k, s.load k ≤ 1
  single : ∀ obj name k k', s.armed k = true → s.armed k' = true → s.named obj name k = true →
    s.named obj name k' = true → k = k'

theorem cancelled_never_starts (h : system.Reaches Unhurried s) : s.Sound := by
  have hi := inv_reaches h
  refine ⟨hi.starts, hi.once, fun obj name k k' ha ha' hn hn' => ?_⟩
  obtain ⟨slot, hs, rfl, rfl⟩ := named_iff.mp hn
  obtain ⟨slot', hs', ho, hn⟩ := named_iff.mp hn'
  have hk' := hi.armed k' slot' ha' hs'
  rw [ho, hn] at hk'
  exact Option.some.inj ((hi.armed k slot ha hs).symm.trans hk')

/-- A repeating timer fires behind a request; then it is cancelled while nothing waits. -/
def firedOnce : EntityTimers :=
  system.run Unhurried fresh
    [.load, .arm 0 "tick" true, .request, .start, .due 0, .finish false, .start, .finish false,
      .cancel 0 "tick"] (by decide +kernel)

theorem cancelled_never_starts_firedOnce :
    firedOnce.Sound ∧ firedOnce.starts = [⟨0, false, 0, true⟩] :=
  ⟨cancelled_never_starts (system.run_reaches Unhurried _ rfl (by decide +kernel)),
    by decide +kernel⟩

/-- The request that holds the gate cancels a timer that has come due behind it. -/
def cancelledWaiting : EntityTimers :=
  system.run anyStep fresh
    [.load, .arm 0 "tick" false, .request, .start, .due 0, .cancel 0 "tick", .finish false, .start]
    (by decide +kernel)

theorem cancelled_starts : ∃ s, system.Reaches anyStep s ∧ ¬ s.Sound := by
  refine ⟨cancelledWaiting, system.run_reaches anyStep _ rfl (by decide +kernel), fun h => ?_⟩
  have hs := (h.starts ⟨0, true, 0, true⟩ (by decide +kernel)).1
  cases hs

end EntityTimers

end Skyext
