import Skyext.Timer.Heap
import Skyext.Timer.Sound

namespace Skyext
set_option autoImplicit true

namespace Timer
open BinaryHeap HeapOrder Machine

/-- The heap holds the times of the map. -/
inductive Stores : Option Heap → Option MinHeap → Prop
  | absent : Stores none none
  | present : heap.Keeps (WeakOrder.natural Rat) (fun id => mh.lookup id) →
    Stores (some heap) (some mh)

/-- The module with its heap is at the same point as the scheduler with a map for it. -/
structure Sim (m : Impl) (s : Scheduler) : Prop where
  base : s = { m.base with minheap := s.minheap }
  heap : Stores m.heap s.minheap

def implSystem : System Impl Action where
  init m := m = {}
  step m a := (m.step a).bind Except.toOption

/-- The same action, but for which of the timers of the least time is taken off the heap. -/
def SameTime : Action → Action → Prop
  | .pop k _ ms now, b => ∃ id, b = .pop k id ms now
  | a, b => b = a

variable {m : Impl} {s : Scheduler} {heap : Heap} {mh : MinHeap}

theorem Sim.eq (h : Sim m s) : ∃ mh, s = { m.base with minheap := mh } ∧ Stores m.heap mh :=
  ⟨s.minheap, h.base, h.heap⟩

theorem Sim.of (hs : Stores m.heap mh') : Sim m { m.base with minheap := mh' } := ⟨rfl, hs⟩

theorem update_insert (mh : MinHeap) (id : Nat) (ms : Rat) :
    Function.update (fun id => mh.lookup id) id (some ms) =
      fun i => (mh.insert id ms).lookup i := by
  funext i
  by_cases hi : i = id
  · subst hi
    rw [Function.update_self, AList.lookup_insert]
  · rw [Function.update_of_ne hi, AList.lookup_insert_ne hi]

theorem update_erase (mh : MinHeap) (id : Nat) :
    Function.update (fun id => mh.lookup id) id none = fun i => (mh.erase id).lookup i := by
  funext i
  by_cases hi : i = id
  · subst hi
    rw [Function.update_self, AList.lookup_erase]
  · rw [Function.update_of_ne hi, AList.lookup_erase_ne hi]

theorem Stores.keeps (h : Stores (some heap) (some mh)) :
    heap.Keeps (WeakOrder.natural Rat) fun id => mh.lookup id := by
  cases h with
  | present hk => exact hk

theorem Stores.inv (h : Stores (some heap) mh') : ∃ mh, mh' = some mh := by
  cases h with
  | present hk => exact ⟨_, rfl⟩

theorem Stores.new : Stores (some {}) (some ∅) :=
  .present (Unique.Keeps.new _)

theorem Stores.remove (h : Stores (some heap) (some mh)) (id : Nat) :
    ∃ r heap', heap.removeU less id = .ok (r, heap') ∧
      Stores (some heap') (some (mh.erase id)) := by
  cases hid : mh.lookup id with
  | none =>
    refine ⟨none, heap, h.keeps.removeU_absent hid, .present ?_⟩
    rw [← update_erase, Function.update_eq_self_iff.mpr hid.symm]
    exact h.keeps
  | some ms =>
    obtain ⟨heap', hr, hk⟩ := h.keeps.removeU hid
    rw [update_erase] at hk
    exact ⟨_, heap', hr, .present hk⟩

theorem Stores.update {id : Nat} (h : Stores (some heap) (some mh)) (hid : mh.lookup id = some old)
    (ms : Rat) : ∃ heap', heap.updateU less id ms = .ok heap' ∧
      Stores (some heap') (some (mh.insert id ms)) := by
  obtain ⟨heap', hu, hk⟩ := h.keeps.updateU hid ms
  rw [update_insert] at hk
  exact ⟨heap', hu, .present hk⟩

theorem Stores.insert {id : Nat} (h : Stores (some heap) (some mh)) (hid : mh.lookup id = none)
    (ms : Rat) : ∃ heap', heap.insertU less ms id = .ok heap' ∧
      Stores (some heap') (some (mh.insert id ms)) := by
  obtain ⟨heap', hi, hk⟩ := h.keeps.insertU hid ms
  rw [update_insert] at hk
  exact ⟨heap', hi, .present hk⟩

theorem Stores.lookup (h : Stores (some heap) (some mh)) (id : Nat) :
    heap.valueByPayload id = mh.lookup id := congrFun h.keeps.value id

namespace Sim

theorem ensureInit (h : Sim m s) : Sim m.ensureInit s.ensureInit := by
  obtain ⟨mh, rfl, hh⟩ := h.eq
  simp only [Impl.ensureInit, Scheduler.ensureInit]
  split
  · exact .of hh
  · exact .of .new

theorem cancel (h : Sim m s) (id : Nat) : ∃ m', m.cancel id = .ok m' ∧ Sim m' (s.cancel id) := by
  obtain ⟨mh, rfl, hh⟩ := h.eq
  rw [Impl.cancel]
  cases hm : m.heap with
  | none =>
    rw [hm] at hh
    cases hh
    exact ⟨_, rfl, rfl, hm ▸ .absent⟩
  | some heap =>
    rw [hm] at hh
    obtain ⟨mh, rfl⟩ := hh.inv
    obtain ⟨r, heap', hr, hs⟩ := hh.remove id
    simp only [hr, bind, Except.bind, pure, Except.pure]
    exact ⟨_, rfl, rfl, hs⟩

theorem doWakeup_heap (base : Scheduler) (mh : Option MinHeap) :
    { base with minheap := mh }.doWakeup = { base.doWakeup with minheap := mh } := by
  simp only [Scheduler.doWakeup]
  split <;> rfl

theorem doWakeup (h : Sim m s) : Sim { m with base := m.base.doWakeup } s.doWakeup := by
  obtain ⟨mh, rfl, hh⟩ := h.eq
  rw [doWakeup_heap m.base mh]
  exact .of hh

theorem log (h : Sim m s) (e : Event) : Sim { m with base := m.base.log e } (s.log e) := by
  obtain ⟨mh, rfl, hh⟩ := h.eq
  exact .of hh

theorem setLoop (h : Sim m s) (k : Nat) (l : Loop) :
    Sim { m with base := m.base.setLoop k l } (s.setLoop k l) := by
  obtain ⟨mh, rfl, hh⟩ := h.eq
  exact .of hh

theorem wakeup (h : Sim m s) (id : Nat) (now : Rat) :
    ∃ m', m.wakeup id now = .ok m' ∧ Sim m' (s.wakeup id now) := by
  obtain ⟨mh, rfl, hh⟩ := h.eq
  rw [Impl.wakeup]
  cases hm : m.heap with
  | none =>
    rw [hm] at hh
    cases hh
    exact ⟨m, rfl, rfl, hm ▸ .absent⟩
  | some heap =>
    rw [hm] at hh
    obtain ⟨mh, rfl⟩ := hh.inv
    simp only [Scheduler.wakeup, hh.lookup, doWakeup_heap]
    cases hid : mh.lookup id with
    | some old =>
      have hmem : id ∈ mh := AList.lookup_isSome.mp (by rw [hid]; rfl)
      obtain ⟨heap', hu, hs⟩ := hh.update hid now
      simp only [hu, hmem, true_or, if_true, ne_eq, reduceCtorEq, not_false_eq_true, bind,
        Except.bind, pure, Except.pure]
      exact ⟨_, rfl, rfl, hs⟩
    | none =>
      have hmem : id ∉ mh := AList.lookup_eq_none.mp hid
      simp only [hmem, false_or, ne_eq, not_true, if_false]
      by_cases ht : id ∈ m.base.timers
      · obtain ⟨heap', hi, hs⟩ := hh.insert hid now
        simp only [ht, if_true, hi, bind, Except.bind, pure, Except.pure]
        exact ⟨_, rfl, rfl, hs⟩
      · simp only [ht, if_false]
        exact ⟨m, rfl, rfl, hm ▸ hh⟩

theorem insertTimerExecTime (h : Sim m s) (hne : s.minheap ≠ none) (id : Nat) (obj : TimerObj)
    (next : Rat) : ∃ m', m.insertTimerExecTime id obj next = .ok m' ∧
      m'.base.timerIdx = m.base.timerIdx ∧ Sim m' (s.insertTimerExecTime id obj next) := by
  obtain ⟨mh, rfl, hh⟩ := h.eq
  rw [Impl.insertTimerExecTime]
  cases hm : m.heap with
  | none =>
    rw [hm] at hh
    cases hh
    exact absurd rfl hne
  | some heap =>
    rw [hm] at hh
    obtain ⟨mh, rfl⟩ := hh.inv
    simp only [Scheduler.insertTimerExecTime, hh.lookup, Option.map]
    cases hid : mh.lookup id with
    | some old =>
      simp only
      split
      · obtain ⟨heap', hu, hs⟩ := hh.update hid next
        simp only [hu, bind, Except.bind, pure, Except.pure]
        exact ⟨_, rfl, rfl, rfl, hs⟩
      · exact ⟨_, rfl, rfl, rfl, hh⟩
    | none =>
      obtain ⟨heap', hi, hs⟩ := hh.insert hid next
      simp only [hi, bind, Except.bind, pure, Except.pure]
      exact ⟨_, rfl, rfl, rfl, hs⟩

theorem newTimer (h : Sim m s) (hinv : Inv s) (sec first : Rat) (times : Int) (now : Rat) :
    ∃ m', m.newTimer sec first times now = .ok m' ∧ Sim m' (s.newTimer sec first times now) := by
  have hi := h.ensureInit
  have hne := hinv.ensureInit.1.heap.isSome hinv.ensureInit.2
  rw [Impl.newTimer, Scheduler.newTimer]
  by_cases hsec : sec < 0
  · rw [if_pos hsec, if_pos hsec]
    exact ⟨_, rfl, hi⟩
  · rw [if_neg hsec, if_neg hsec]
    obtain ⟨mh, hb, hh⟩ := hi.eq
    have hidx : s.ensureInit.timerIdx = m.ensureInit.base.timerIdx := by rw [hb]
    have hsim : Sim { m.ensureInit with base := { m.ensureInit.base with
        timerIdx := m.ensureInit.base.timerIdx + 1 } }
        { s.ensureInit with timerIdx := s.ensureInit.timerIdx + 1 } := by
      rw [hidx, hb]
      exact .of hh
    obtain ⟨m', hm', -, hs⟩ := hsim.insertTimerExecTime hne (m.ensureInit.base.timerIdx + 1)
      ⟨sec * 1000, times⟩ (first * 1000 + now)
    simp only [hm', bind, Except.bind, pure, Except.pure, hidx]
    rw [hidx] at hs
    exact ⟨_, rfl, hs.doWakeup.log _⟩

theorem updateTimer (h : Sim m s) (hinv : Inv s) (id : Nat) (now : Rat) :
    ∃ m', m.updateTimer id now = .ok m' ∧ Sim m' (s.updateTimer id now) := by
  have ht : s.timers = m.base.timers := by rw [h.base]
  rw [Impl.updateTimer, Scheduler.updateTimer, ht]
  cases ho : m.base.timers.lookup id with
  | none => exact ⟨m, rfl, h⟩
  | some obj =>
    have hid : id ∈ s.timers := ht ▸ AList.lookup_isSome.mp (by rw [ho]; rfl)
    have hne : s.minheap ≠ none := by
      cases hr : s.taskRunning with
      | true => exact hinv.heap.isSome hr
      | false => exact absurd hid (hinv.heap.stopped hr id)
    simp only
    split
    · obtain ⟨m', hm', -, hs⟩ := h.insertTimerExecTime hne id
        { obj with times := if obj.times > 0 then obj.times - 1 else obj.times }
        (now + obj.interval)
      exact ⟨m', hm', hs⟩
    · obtain ⟨mh, rfl, hh⟩ := h.eq
      exact ⟨_, rfl, .of hh⟩

theorem removeAll (hs : Stores (some heap) (some mh)) (ids : List Nat) :
    ∃ heap', Impl.removeAll ids heap = .ok heap' ∧
      Stores (some heap') (some (ids.foldl (fun mh id => mh.erase id) mh)) := by
  induction ids generalizing heap mh with
  | nil => exact ⟨heap, rfl, hs⟩
  | cons id ids ih =>
    obtain ⟨r, heap₁, hr, hs₁⟩ := hs.remove id
    obtain ⟨heap₂, hr₂, hs₂⟩ := ih hs₁
    refine ⟨heap₂, ?_, hs₂⟩
    simp only [Impl.removeAll, hr, hr₂, bind, Except.bind]

theorem shutdown_running (base : Scheduler) (mh : Option MinHeap) (hr : base.taskRunning = true) :
    { base with minheap := mh }.shutdown = { base.shutdown with
      minheap := (mh.map fun heap =>
        base.timers.keys.foldl (fun heap id => heap.erase id) heap) } := by
  simp only [Scheduler.shutdown, hr, if_true, Scheduler.doWakeup]
  split <;> rfl

theorem shutdown_stopped (base : Scheduler) (mh : Option MinHeap) (hr : base.taskRunning ≠ true) :
    { base with minheap := mh }.shutdown = { base.shutdown with minheap := mh } := by
  simp only [Scheduler.shutdown]
  rw [if_neg hr, if_neg hr]
  rfl

theorem shutdown (h : Sim m s) (hinv : Inv s) :
    ∃ m', m.shutdown = .ok m' ∧ Sim m' s.shutdown := by
  have hne := hinv.heap.isSome
  obtain ⟨mh, rfl, hh⟩ := h.eq
  rw [Impl.shutdown]
  by_cases hr : m.base.taskRunning = true
  · rw [if_pos hr, shutdown_running m.base mh hr]
    cases hm : m.heap with
    | none =>
      rw [hm] at hh
      cases hh
      exact absurd rfl (hne hr)
    | some heap =>
      rw [hm] at hh
      obtain ⟨mh, rfl⟩ := hh.inv
      obtain ⟨heap', hrem, hs⟩ := removeAll hh m.base.timers.keys
      simp only [hrem, bind, Except.bind, pure, Except.pure]
      exact ⟨_, rfl, .of hs⟩
  · rw [if_neg hr, shutdown_stopped m.base mh hr]
    exact ⟨_, rfl, .of hh⟩

/-- What the real heap has on top is something the map may answer. -/
theorem peeks {id : Nat} {ms : Rat} (hs : Stores (some heap) (some mh))
    (hp : heap.peekU = (some id, some ms)) : mh.Peeks id ms := by
  obtain ⟨hpe, -⟩ | ⟨p, v, hpe, hv, hleast⟩ := hs.keeps.peekU
  · rw [hpe] at hp
    cases hp
  · rw [hpe] at hp
    cases hp
    refine ⟨hv, ?_⟩
    intro e he
    have hle := hleast e.1 e.2 (AList.mem_lookup_iff.mpr he)
    exact not_lt.mp (of_decide_eq_false hle)

theorem peekU_of_peeks {id : Nat} {ms : Rat} (hs : Stores (some heap) (some mh))
    (hp : mh.Peeks id ms) : ∃ p, heap.peekU = (some p, some ms) := by
  obtain ⟨hpe, hnone⟩ | ⟨p, v, hpe, hv, hleast⟩ := hs.keeps.peekU
  · have hid : mh.lookup id = none := hnone id
    rw [hp.1] at hid
    cases hid
  · have hle := hp.2 ⟨p, v⟩ (AList.mem_lookup_iff.mp hv)
    have hge := not_lt.mp (of_decide_eq_false (hleast id ms hp.1))
    obtain rfl := le_antisymm hle hge
    exact ⟨p, hpe⟩

theorem waits_iff (hs : Stores (some heap) (some mh)) (now : Rat) :
    Impl.waits heap now = mh.entries.all fun e => decide (now < e.2) := by
  rw [Bool.eq_iff_iff, List.all_eq_true]
  obtain ⟨hpe, hnone⟩ | ⟨p, v, hpe, hv, hleast⟩ := hs.keeps.peekU
  · rw [Impl.waits, hpe]
    refine iff_of_true rfl fun e he => ?_
    have hsome := AList.mem_lookup_iff.mpr he
    rw [show mh.lookup e.1 = none from hnone e.1] at hsome
    cases hsome
  · rw [Impl.waits, hpe]
    simp only [decide_eq_true_eq]
    constructor
    · intro hlt e he
      have hle := hleast e.1 e.2 (AList.mem_lookup_iff.mpr he)
      exact lt_of_lt_of_le hlt (not_lt.mp (of_decide_eq_false hle))
    · intro hall
      exact hall ⟨p, v⟩ (AList.mem_lookup_iff.mp hv)

theorem pop {id : Nat} {ms : Rat} (hs : Stores (some heap) (some mh))
    (hp : heap.peekU = (some id, some ms)) (k : Nat) (l : Loop) (n : Nat) :
    ∃ m', m.pop heap k l n id = .ok m' ∧
      Sim m' ({ m.base with minheap := some mh }.pop k l n id) := by
  obtain ⟨heap', hpop, hk⟩ := hs.keeps.popU hp (show truth ms = true from rfl)
  rw [update_erase] at hk
  simp only [Impl.pop, show heap.popU less truth = _ from hpop, bind, Except.bind, pure,
    Except.pure]
  refine ⟨_, rfl, ?_⟩
  simp only [Scheduler.pop]
  split <;> exact .of (.present hk)

theorem doSleep_heap (base : Scheduler) (mh : Option MinHeap) (k : Nat) (l : Loop) :
    { base with minheap := mh }.doSleep k l = { base.doSleep k l with minheap := mh } := by
  simp only [Scheduler.doSleep]
  split <;> rfl

theorem resume_heap (h : s.step (.resume k) = some t) (mh : Option MinHeap) :
    { s with minheap := mh }.step (.resume k) = some { t with minheap := mh } := by
  simp only [Scheduler.step] at h ⊢
  cases hk : s.loops[k]? with
  | none =>
    rw [hk] at h
    cases h
  | some l =>
    rw [hk] at h
    cases hpc : l.pc with
    | sleeping =>
      simp only [hpc] at h ⊢
      cases h
      split <;> rfl
    | popping n => simp only [hpc, reduceCtorEq] at h
    | executing i n => simp only [hpc, reduceCtorEq] at h
    | exited => simp only [hpc, reduceCtorEq] at h

theorem present (h : Sim m s) (hinv : Inv s) {l : Loop} (hcur : m.base.current l = true) :
    ∃ heap mh, m.heap = some heap ∧ s.minheap = some mh ∧ Stores (some heap) (some mh) := by
  obtain ⟨mh, rfl, hh⟩ := h.eq
  have hne := hinv.heap.isSome (Bool.and_eq_true_iff.mp hcur).1
  cases hm : m.heap with
  | none =>
    rw [hm] at hh
    cases hh
    exact absurd rfl hne
  | some heap =>
    rw [hm] at hh
    obtain ⟨mh, rfl⟩ := hh.inv
    exact ⟨heap, mh, rfl, rfl, hh⟩

theorem repeatRandomDelayed (h : Sim m s) (hinv : Inv s) (sec first : Rat) (times : Int)
    (now : Rat) : ∃ m', m.repeatRandomDelayed sec first times now = .ok m' ∧
      Sim m' (s.repeatRandomDelayed sec first times now) := by
  rw [Impl.repeatRandomDelayed, Scheduler.repeatRandomDelayed]
  split
  · exact ⟨_, rfl, h.ensureInit⟩
  · exact h.newTimer hinv sec first times now

theorem step_pop {k id : Nat} {ms now : Rat} (h : Sim m s) (hinv : Inv s)
    (hstep : m.step (.pop k id ms now) = some r) :
    ∃ m' t, r = .ok m' ∧ s.step (.pop k id ms now) = some t ∧ Sim m' t := by
  have hl : s.loops = m.base.loops := by rw [h.base]
  simp only [Impl.step] at hstep
  simp only [Scheduler.step, hl]
  cases hk : m.base.loops[k]? with
  | none =>
    rw [hk] at hstep
    cases hstep
  | some l =>
    rw [hk] at hstep
    cases hpc : l.pc with
    | popping n =>
      simp only [hpc, Option.ite_none_right_eq_some] at hstep ⊢
      obtain ⟨⟨hcur, hn⟩, hstep⟩ := hstep
      obtain ⟨heap, mh, hm, hmh, hh⟩ := h.present hinv hcur
      simp only [hm, Option.ite_none_right_eq_some] at hstep
      obtain ⟨⟨hdue, hp⟩, hstep⟩ := hstep
      cases hstep
      obtain ⟨m', hm', hs⟩ := pop (m := m) hh hp k l n
      have hs' : s = { m.base with minheap := some mh } := hmh ▸ h.base
      rw [hs']
      exact ⟨m', _, hm', ⟨⟨hcur, hn, hdue, mh, rfl, peeks hh hp⟩, rfl⟩, hs⟩
    | executing i n => simp only [hpc, reduceCtorEq] at hstep
    | sleeping => simp only [hpc, reduceCtorEq] at hstep
    | exited => simp only [hpc, reduceCtorEq] at hstep

theorem step_finish {k : Nat} {now : Rat} (h : Sim m s) (hinv : Inv s)
    (hstep : m.step (.finish k now) = some r) :
    ∃ m' t, r = .ok m' ∧ s.step (.finish k now) = some t ∧ Sim m' t := by
  have hl : s.loops = m.base.loops := by rw [h.base]
  simp only [Impl.step] at hstep
  simp only [Scheduler.step, hl]
  cases hk : m.base.loops[k]? with
  | none =>
    rw [hk] at hstep
    cases hstep
  | some l =>
    rw [hk] at hstep
    cases hpc : l.pc with
    | executing id n =>
      simp only [hpc] at hstep ⊢
      cases hstep
      obtain ⟨m', hm', hs⟩ := h.updateTimer hinv id now
      simp only [Impl.finish, hm', bind, Except.bind, pure, Except.pure]
      exact ⟨_, _, rfl, rfl, (hs.setLoop k _).log _⟩
    | popping n => simp only [hpc, reduceCtorEq] at hstep
    | sleeping => simp only [hpc, reduceCtorEq] at hstep
    | exited => simp only [hpc, reduceCtorEq] at hstep

theorem step_rest {k : Nat} {now : Rat} (h : Sim m s) (hinv : Inv s)
    (hstep : m.step (.rest k now) = some r) :
    ∃ m' t, r = .ok m' ∧ s.step (.rest k now) = some t ∧ Sim m' t := by
  have hl : s.loops = m.base.loops := by rw [h.base]
  simp only [Impl.step] at hstep
  simp only [Scheduler.step, hl]
  cases hk : m.base.loops[k]? with
  | none =>
    rw [hk] at hstep
    cases hstep
  | some l =>
    rw [hk] at hstep
    have hcur' : s.current l = m.base.current l := by
      rw [h.base]
      rfl
    cases hpc : l.pc with
    | popping n =>
      simp only [hpc, hcur'] at hstep ⊢
      by_cases hcur : m.base.current l = false
      · rw [if_pos hcur] at hstep ⊢
        cases hstep
        exact ⟨_, _, rfl, rfl, h.setLoop k _⟩
      · rw [if_neg hcur] at hstep ⊢
        obtain ⟨heap, mh, hm, hmh, hh⟩ := h.present hinv (Bool.eq_true_of_not_eq_false hcur)
        simp only [hm, Option.ite_none_right_eq_some] at hstep
        obtain ⟨hdone, hstep⟩ := hstep
        cases hstep
        have hs' : s = { m.base with minheap := some mh } := hmh ▸ h.base
        refine ⟨_, _, rfl, if_pos ?_, ?_⟩
        · rw [waits_iff hh] at hdone
          simpa only [hs', Scheduler.batchDone, Option.all_some, Bool.or_eq_true,
            decide_eq_true_eq] using hdone
        · rw [hs', doSleep_heap m.base (some mh)]
          exact .of (hm ▸ hh)
    | executing i n => simp only [hpc, reduceCtorEq] at hstep
    | sleeping => simp only [hpc, reduceCtorEq] at hstep
    | exited => simp only [hpc, reduceCtorEq] at hstep

/-- Every step of one module, in one state, is a step of the other, and raises no error. -/
theorem step (h : Sim m s) (hinv : Inv s) (hstep : m.step a = some r) :
    ∃ m' t, r = .ok m' ∧ s.step a = some t ∧ Sim m' t := by
  cases a with
  | timeout sec now =>
    cases hstep
    obtain ⟨m', hm, hs⟩ := h.newTimer hinv sec sec 1 now
    exact ⟨m', _, hm, rfl, hs⟩
  | repeatImmediately sec times now =>
    cases hstep
    obtain ⟨m', hm, hs⟩ := h.newTimer hinv sec 0 times now
    exact ⟨m', _, hm, rfl, hs⟩
  | repeatDelayed sec times now =>
    cases hstep
    obtain ⟨m', hm, hs⟩ := h.newTimer hinv sec sec times now
    exact ⟨m', _, hm, rfl, hs⟩
  | repeatRandomDelayed sec first times now =>
    cases hstep
    obtain ⟨m', hm, hs⟩ := h.repeatRandomDelayed hinv sec first times now
    exact ⟨m', _, hm, rfl, hs⟩
  | cancel id =>
    simp only [Impl.step, Option.ite_none_right_eq_some] at hstep
    obtain ⟨hle, hstep⟩ := hstep
    cases hstep
    obtain ⟨m', hm, hs⟩ := h.cancel id
    refine ⟨m', _, hm, if_pos ?_, hs⟩
    rw [h.base]
    exact hle
  | wakeup id now =>
    simp only [Impl.step, Option.ite_none_right_eq_some] at hstep
    obtain ⟨hle, hstep⟩ := hstep
    cases hstep
    obtain ⟨m', hm, hs⟩ := h.wakeup id now
    refine ⟨m', _, hm, if_pos ?_, hs⟩
    rw [h.base]
    exact hle
  | shutdown =>
    cases hstep
    obtain ⟨m', hm, hs⟩ := h.shutdown hinv
    exact ⟨m', _, hm, rfl, hs⟩
  | pop k id ms now => exact h.step_pop hinv hstep
  | finish k now => exact h.step_finish hinv hstep
  | rest k now => exact h.step_rest hinv hstep
  | resume k =>
    obtain ⟨mh, rfl, hh⟩ := h.eq
    simp only [Impl.step] at hstep
    split at hstep
    · next base hb =>
      cases hstep
      exact ⟨_, _, rfl, resume_heap hb mh, .of hh⟩
    · cases hstep

/-- Whatever the module can do with a map for a heap it can do with the real heap. -/
theorem enabled (h : Sim m s) (hen : (s.step a).isSome) :
    ∃ b, SameTime a b ∧ (m.step b).isSome := by
  obtain ⟨mh, rfl, hh⟩ := h.eq
  cases a with
  | timeout sec now => exact ⟨_, rfl, rfl⟩
  | repeatImmediately sec times now => exact ⟨_, rfl, rfl⟩
  | repeatDelayed sec times now => exact ⟨_, rfl, rfl⟩
  | repeatRandomDelayed sec first times now => exact ⟨_, rfl, rfl⟩
  | cancel id =>
    simp only [Scheduler.step, Option.isSome_ite] at hen
    exact ⟨_, rfl, by simpa only [Impl.step, Option.isSome_ite] using hen⟩
  | wakeup id now =>
    simp only [Scheduler.step, Option.isSome_ite] at hen
    exact ⟨_, rfl, by simpa only [Impl.step, Option.isSome_ite] using hen⟩
  | shutdown => exact ⟨_, rfl, rfl⟩
  | pop k id ms now =>
    simp only [Scheduler.step] at hen
    cases hk : m.base.loops[k]? with
    | none => simp [hk] at hen
    | some l =>
      rw [hk] at hen
      cases hpc : l.pc with
      | popping n =>
        simp only [hpc, Option.isSome_ite] at hen
        obtain ⟨hcur, hn, hdue, heap', hmh, hpeeks⟩ := hen
        cases hmh
        cases hm : m.heap with
        | none =>
          rw [hm] at hh
          cases hh
        | some heap =>
          rw [hm] at hh
          obtain ⟨p, hp⟩ := peekU_of_peeks hh hpeeks
          refine ⟨.pop k p ms now, ⟨p, rfl⟩, ?_⟩
          have hcur' : m.base.current l = true := hcur
          simp [Impl.step, hk, hpc, hcur', hn, hm, hdue, hp]
      | executing i n => simp [hpc] at hen
      | sleeping => simp [hpc] at hen
      | exited => simp [hpc] at hen
  | finish k now =>
    refine ⟨_, rfl, ?_⟩
    simp only [Scheduler.step] at hen
    simp only [Impl.step]
    cases hk : m.base.loops[k]? with
    | none => simp [hk] at hen
    | some l =>
      rw [hk] at hen
      cases hpc : l.pc with
      | executing i n => simp [hpc]
      | popping n => simp [hpc] at hen
      | sleeping => simp [hpc] at hen
      | exited => simp [hpc] at hen
  | rest k now =>
    refine ⟨_, rfl, ?_⟩
    simp only [Scheduler.step] at hen
    simp only [Impl.step]
    cases hk : m.base.loops[k]? with
    | none => simp [hk] at hen
    | some l =>
      rw [hk] at hen
      cases hpc : l.pc with
      | popping n =>
        simp only [hpc] at hen ⊢
        have hcur' : { m.base with minheap := mh }.current l = m.base.current l := rfl
        rw [hcur'] at hen
        split
        · rfl
        · next hcur =>
          rw [if_neg hcur, Option.isSome_ite] at hen
          cases hm : m.heap with
          | none => rfl
          | some heap =>
            rw [hm] at hh
            obtain ⟨mh, rfl⟩ := hh.inv
            simp only [Option.isSome_ite, waits_iff hh]
            simpa only [Scheduler.batchDone, Option.all_some, Bool.or_eq_true, decide_eq_true_eq]
              using hen
      | executing i n => simp [hpc] at hen
      | sleeping => simp [hpc] at hen
      | exited => simp [hpc] at hen
  | resume k =>
    refine ⟨_, rfl, ?_⟩
    obtain ⟨t, ht⟩ := Option.isSome_iff_exists.mp hen
    have hb := resume_heap ht m.base.minheap
    simp only [Impl.step, show m.base.step (.resume k) = _ from hb, Option.isSome_some]

end Sim

theorem impl_reaches (h : implSystem.Reaches anyStep m) :
    ∃ s, system.Reaches anyStep s ∧ Sim m s := by
  induction h with
  | init hm => exact ⟨{}, .init rfl, by rw [show _ = _ from hm]; exact ⟨rfl, .absent⟩⟩
  | step _ _ hstep ih =>
    obtain ⟨s, hr, hs⟩ := ih
    obtain ⟨r, hm, hr'⟩ := Option.bind_eq_some_iff.mp hstep
    obtain ⟨m', t, rfl, ht, hs'⟩ := hs.step (reaches_inv hr) hm
    cases hr'
    exact ⟨t, .step hr trivial ht, hs'⟩

/-- The module with its heap is always where the scheduler with a map could be, none of its calls
of the heap raises an error, and it can go on whenever the scheduler can. -/
theorem impl_refines (h : implSystem.Reaches anyStep m) :
    ∃ s, system.Reaches anyStep s ∧ Sim m s ∧ Correct s ∧
      (∀ a e, m.step a ≠ some (.error e)) ∧
      ∀ a, (s.step a).isSome → ∃ b, SameTime a b ∧ (m.step b).isSome := by
  obtain ⟨s, hr, hs⟩ := impl_reaches h
  have hinv := reaches_inv hr
  refine ⟨s, hr, hs, hinv.correct, fun a e hstep => ?_, fun a => hs.enabled⟩
  obtain ⟨m', t, he, -⟩ := hs.step hinv hstep
  cases he

theorem impl_refines_timeout : ∃ m, implSystem.step {} (.timeout 1 0) = some m ∧
    ∃ s, system.Reaches anyStep s ∧ Sim m s ∧ Correct s ∧
      (∀ a e, m.step a ≠ some (.error e)) ∧
      ∀ a, (s.step a).isSome → ∃ b, SameTime a b ∧ (m.step b).isSome := by
  obtain ⟨m, hm, -⟩ := Sim.newTimer (m := {}) ⟨rfl, .absent⟩ Inv.initial 1 1 1 0
  have hstep : implSystem.step {} (.timeout 1 0) = some m := congrArg Except.toOption hm
  exact ⟨m, hstep, impl_refines (.step (.init rfl) trivial hstep)⟩

end Timer
end Skyext
