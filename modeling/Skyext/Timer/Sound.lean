import Skyext.Lib.Snoc
import Skyext.Timer.Scheduler

namespace Skyext
set_option autoImplicit true

namespace Timer
open Machine

/-- The coroutine at a position is suspended in the callback of a timer. -/
def RunsAt (loops : List Loop) (id j : Nat) : Prop :=
  ∃ (l : Loop) (executed : Nat), loops[j]? = some l ∧ l.pc = .executing id executed

def Runs (loops : List Loop) (id : Nat) : Prop := ∃ j, RunsAt loops id j

/-- Every generation has one coroutine at most, and the current one has its own. -/
structure Loops (s : Scheduler) : Prop where
  le : ∀ (j : Nat) (l : Loop), s.loops[j]? = some l → l.generation ≤ s.generation
  one : ∀ (i j : Nat) (l m : Loop), s.loops[i]? = some l → s.loops[j]? = some m →
    l.generation = m.generation → i = j
  present : s.taskRunning = true →
    ∃ (j : Nat) (l : Loop), s.loops[j]? = some l ∧ l.generation = s.generation ∧ l.pc ≠ .exited

/-- The callbacks under way: of one timer there is one at most, and that of a live timer is under
way in the current generation. -/
structure Execs (s : Scheduler) : Prop where
  le : ∀ j id, RunsAt s.loops id j → id ≤ s.timerIdx
  one : ∀ i j id, RunsAt s.loops id i → RunsAt s.loops id j → i = j
  live : ∀ (j : Nat) (l : Loop) id executed, s.loops[j]? = some l → l.pc = .executing id executed →
    id ∈ s.timers → s.current l = true

/-- A live timer is executing or in the heap. -/
structure Heaped (s : Scheduler) : Prop where
  isSome : s.taskRunning = true → s.minheap ≠ none
  stopped : s.taskRunning = false → ∀ id, id ∉ s.timers
  le : ∀ id ∈ s.timers, id ≤ s.timerIdx
  live : ∀ id ∈ s.timers, Runs s.loops id ∨ ∃ heap, s.minheap = some heap ∧ id ∈ heap

/-- The starts of a timer and the times it has left add up to the number it was created with. -/
structure Times (s : Scheduler) : Prop where
  created : ∀ id n, .created id n ∈ s.history → id ≤ s.timerIdx
  started : ∀ id, .started id ∈ s.history → id ≤ s.timerIdx
  bound : ∀ id n, .created id n ∈ s.history → 0 < n → (s.history.count (.started id) : Int) ≤ n
  left : ∀ id n (obj : TimerObj), .created id n ∈ s.history → 0 < n →
    s.timers.lookup id = some obj → 0 < obj.times ∧
      (Runs s.loops id → s.history.count (.started id) + obj.times = n + 1) ∧
      (¬ Runs s.loops id → s.history.count (.started id) + obj.times = n)

/-- What was cancelled or shut down is not live and has not started since. -/
structure Dead (s : Scheduler) : Prop where
  cancelled : ∀ id, .cancelled id ∈ s.history → id ≤ s.timerIdx ∧ id ∉ s.timers
  shutdown : ∀ idx, .shutdown idx ∈ s.history → idx ≤ s.timerIdx ∧ ∀ id ∈ s.timers, idx < id
  order : ∀ before rest id, s.history = before ++ .started id :: rest →
    .cancelled id ∉ before ∧ ∀ idx, .shutdown idx ∈ before → idx < id

structure Inv (s : Scheduler) : Prop where
  loops : Loops s
  execs : Execs s
  heap : Heaped s
  times : Times s
  dead : Dead s

variable {s t : Scheduler}

theorem Inv.flags (h : Inv s) (sleeping skipSleep taskCo : Bool) :
    Inv { s with sleeping := sleeping, skipSleep := skipSleep, taskCo := taskCo } :=
  ⟨{ h.loops with }, { h.execs with }, { h.heap with }, { h.times with }, { h.dead with }⟩

theorem Inv.doWakeup (h : Inv s) : Inv s.doWakeup := by
  rw [Scheduler.doWakeup]
  split
  · exact h.flags false s.skipSleep s.taskCo
  · exact h.flags s.sleeping true s.taskCo

theorem log_doWakeup (s : Scheduler) (e : Event) : (s.log e).doWakeup = s.doWakeup.log e := by
  by_cases h : s.sleeping = true ∧ s.taskCo = true <;> simp [Scheduler.doWakeup, Scheduler.log, h]

theorem Times.log (h : Times s) (hs : ∀ id, e ≠ .started id) (hc : ∀ id n, e ≠ .created id n) :
    Times (s.log e) := by
  have hmem : ∀ e', e' ≠ e → e' ∈ (s.log e).history → e' ∈ s.history := by
    intro e' hne hin
    rcases List.mem_append.mp hin with hin | hin
    · exact hin
    · exact absurd (List.mem_singleton.mp hin) hne
  have hcount : ∀ id, (s.log e).history.count (.started id) = s.history.count (.started id) := by
    intro id
    have hne := hs id
    simp [Scheduler.log, List.count_append, hne]
  constructor
  · intro id n hin
    exact h.created id n (hmem _ (hc id n).symm hin)
  · intro id hin
    exact h.started id (hmem _ (hs id).symm hin)
  · intro id n hin hn
    rw [hcount]
    exact h.bound id n (hmem _ (hc id n).symm hin) hn
  · intro id n obj hin hn hl
    rw [hcount]
    exact h.left id n obj (hmem _ (hc id n).symm hin) hn hl

theorem Dead.log (h : Dead s) (hs : ∀ id, e ≠ .started id)
    (hc : ∀ id, e = .cancelled id → id ≤ s.timerIdx ∧ id ∉ s.timers)
    (hd : ∀ idx, e = .shutdown idx → idx ≤ s.timerIdx ∧ ∀ id ∈ s.timers, idx < id) :
    Dead (s.log e) := by
  constructor
  · intro id hin
    rcases List.mem_append.mp hin with hin | hin
    · exact h.cancelled id hin
    · exact hc id (List.mem_singleton.mp hin).symm
  · intro idx hin
    rcases List.mem_append.mp hin with hin | hin
    · exact h.shutdown idx hin
    · exact hd idx (List.mem_singleton.mp hin).symm
  · intro before rest id he
    rcases List.eq_nil_or_concat rest with rfl | ⟨rest, e', rfl⟩
    · obtain ⟨_, he⟩ := List.append_inj' he rfl
      exact absurd (List.singleton_inj.mp he) (hs id)
    · have he' : s.history ++ [e] = (before ++ .started id :: rest) ++ [e'] := by
        simpa [Scheduler.log] using he
      exact h.order before rest id (List.append_inj' he' rfl).1

theorem runsAt_set_iff {loops : List Loop} {id : Nat} (hk : loops[k]? = some l) :
    RunsAt (loops.set k l') id j ↔
      j ≠ k ∧ RunsAt loops id j ∨ j = k ∧ ∃ e, l'.pc = .executing id e := by
  obtain ⟨hlt, _⟩ := List.getElem?_eq_some_iff.mp hk
  constructor
  · rintro ⟨m, e, hm, he⟩
    rcases Snoc.getElem?_set_cases hm with ⟨rfl, rfl⟩ | ⟨hne, hm⟩
    · exact .inr ⟨rfl, e, he⟩
    · exact .inl ⟨hne.symm, m, e, hm, he⟩
  · rintro (⟨hne, m, e, hm, he⟩ | ⟨rfl, e, he⟩)
    · exact ⟨m, e, (List.getElem?_set_ne hne.symm).trans hm, he⟩
    · exact ⟨l', e, List.getElem?_set_self hlt, he⟩

theorem runsAt_pc {loops : List Loop} {id : Nat} (hk : loops[k]? = some l) :
    RunsAt loops id k ↔ ∃ e, l.pc = .executing id e := by
  constructor
  · rintro ⟨m, e, hm, he⟩
    cases Option.some.inj (hk.symm.trans hm)
    exact ⟨e, he⟩
  · rintro ⟨e, he⟩
    exact ⟨l, e, hk, he⟩

theorem runsAt_set {loops : List Loop} {id : Nat} (hk : loops[k]? = some l)
    (hl : ∀ id e, l.pc ≠ .executing id e) (hl' : ∀ id e, l'.pc ≠ .executing id e) :
    RunsAt (loops.set k l') id j ↔ RunsAt loops id j := by
  rw [runsAt_set_iff hk]
  by_cases hj : j = k
  · subst hj
    simp [runsAt_pc hk, hl, hl']
  · simp [hj]

theorem runs_start {loops : List Loop} {id other : Nat} (hk : loops[k]? = some l)
    (hl : ∀ id e, l.pc ≠ .executing id e) (hl' : l'.pc = .executing id n) :
    Runs (loops.set k l') other ↔ other = id ∨ Runs loops other := by
  constructor
  · rintro ⟨j, hj⟩
    rcases (runsAt_set_iff hk).mp hj with ⟨_, hj⟩ | ⟨_, e, he⟩
    · exact .inr ⟨j, hj⟩
    · cases hl'.symm.trans he
      exact .inl rfl
  · rintro (rfl | ⟨j, hj⟩)
    · exact ⟨k, (runsAt_set_iff hk).mpr (.inr ⟨rfl, n, hl'⟩)⟩
    · refine ⟨j, (runsAt_set_iff hk).mpr (.inl ⟨?_, hj⟩)⟩
      rintro rfl
      obtain ⟨e, he⟩ := (runsAt_pc hk).mp hj
      exact hl other e he

theorem runs_finish {loops : List Loop} {id other : Nat} (hk : loops[k]? = some l)
    (hl : l.pc = .executing id n) (hl' : ∀ id e, l'.pc ≠ .executing id e)
    (hone : ∀ i j id, RunsAt loops id i → RunsAt loops id j → i = j) :
    Runs (loops.set k l') other ↔ other ≠ id ∧ Runs loops other := by
  have hrun : RunsAt loops id k := (runsAt_pc hk).mpr ⟨n, hl⟩
  constructor
  · rintro ⟨j, hj⟩
    rcases (runsAt_set_iff hk).mp hj with ⟨hne, hj⟩ | ⟨_, e, he⟩
    · refine ⟨?_, j, hj⟩
      rintro rfl
      exact hne (hone j k other hj hrun)
    · exact absurd he (hl' other e)
  · rintro ⟨hne, j, hj⟩
    refine ⟨j, (runsAt_set_iff hk).mpr (.inl ⟨?_, hj⟩)⟩
    rintro rfl
    obtain ⟨e, he⟩ := (runsAt_pc hk).mp hj
    cases hl.symm.trans he
    exact hne rfl

theorem Loops.setLoop (h : Loops s) (hk : s.loops[k]? = some l)
    (hgen : l'.generation = l.generation) (hpc : s.current l = true → l'.pc ≠ .exited) :
    Loops (s.setLoop k l') := by
  have hcases : ∀ (j : Nat) (m : Loop), (s.loops.set k l')[j]? = some m →
      ∃ m₀ : Loop, s.loops[j]? = some m₀ ∧ m.generation = m₀.generation := by
    intro j m hm
    rcases Snoc.getElem?_set_cases hm with ⟨rfl, rfl⟩ | ⟨_, hm⟩
    · exact ⟨l, hk, hgen⟩
    · exact ⟨m, hm, rfl⟩
  constructor
  · intro j m hm
    obtain ⟨m₀, hm₀, he⟩ := hcases j m hm
    rw [he]
    exact h.le j m₀ hm₀
  · intro i j m m' hm hm' he
    obtain ⟨m₀, hm₀, hg⟩ := hcases i m hm
    obtain ⟨m₁, hm₁, hg'⟩ := hcases j m' hm'
    exact h.one i j m₀ m₁ hm₀ hm₁ (hg ▸ hg' ▸ he)
  · intro hr
    obtain ⟨j, m, hm, hcur, hne⟩ := h.present hr
    by_cases hjk : k = j
    · subst hjk
      cases Option.some.inj (hk.symm.trans hm)
      obtain ⟨hlt, _⟩ := List.getElem?_eq_some_iff.mp hk
      have hrun : s.taskRunning = true := hr
      refine ⟨k, l', List.getElem?_set_self hlt, hgen.trans hcur, hpc ?_⟩
      simp [Scheduler.current, hrun, hcur]
    · exact ⟨j, m, (List.getElem?_set_ne hjk).trans hm, hcur, hne⟩

theorem Inv.setLoop (h : Inv s) (hk : s.loops[k]? = some l) (hl : ∀ id e, l.pc ≠ .executing id e)
    (hgen : l'.generation = l.generation) (hl' : ∀ id e, l'.pc ≠ .executing id e)
    (hpc : s.current l = true → l'.pc ≠ .exited) : Inv (s.setLoop k l') := by
  have hruns : ∀ id j, RunsAt (s.loops.set k l') id j ↔ RunsAt s.loops id j := fun id j =>
    runsAt_set hk hl hl'
  have hruns' : ∀ id, Runs (s.loops.set k l') id ↔ Runs s.loops id := fun id =>
    exists_congr (hruns id)
  refine ⟨h.loops.setLoop hk hgen hpc, ⟨?_, ?_, ?_⟩, { h.heap with live := ?_ },
    { h.times with left := ?_ }, { h.dead with }⟩
  · intro j id hr
    exact h.execs.le j id ((hruns id j).mp hr)
  · intro i j id hi hj
    exact h.execs.one i j id ((hruns id i).mp hi) ((hruns id j).mp hj)
  · intro j m id e hm he hid
    rcases Snoc.getElem?_set_cases hm with ⟨_, rfl⟩ | ⟨_, hm⟩
    · exact absurd he (hl' id e)
    · exact h.execs.live j m id e hm he hid
  · intro id hid
    exact (h.heap.live id hid).imp_left (hruns' id).mpr
  · intro id n obj hc hn ho
    obtain ⟨hne, hr, hnr⟩ := h.times.left id n obj hc hn ho
    exact ⟨hne, fun hx => hr ((hruns' id).mp hx), fun hx => hnr fun hy => hx ((hruns' id).mpr hy)⟩

/-- A stopped module starts a coroutine of a new generation. -/
theorem Inv.ensureInit (h : Inv s) : Inv s.ensureInit ∧ s.ensureInit.taskRunning = true := by
  rw [Scheduler.ensureInit]
  split
  · next hr => exact ⟨h, hr⟩
  · next hr =>
    have hstopped := h.heap.stopped (Bool.eq_false_of_not_eq_true hr)
    have hruns : ∀ id j, RunsAt (s.loops ++ [⟨s.generation + 1, .popping 0⟩]) id j →
        RunsAt s.loops id j := by
      rintro id j ⟨l, e, hl, he⟩
      rcases Snoc.getElem?_snoc.mp hl with hl | ⟨_, rfl⟩
      · exact ⟨l, e, hl, he⟩
      · cases he
    refine ⟨⟨⟨?_, ?_, ?_⟩, ⟨?_, ?_, ?_⟩, ⟨?_, ?_, ?_, ?_⟩, { h.times with left := ?_ },
      { h.dead with }⟩, rfl⟩
    · intro j l hl
      rcases Snoc.getElem?_snoc.mp hl with hl | ⟨_, rfl⟩
      · exact (h.loops.le j l hl).trans (Nat.le_succ _)
      · exact Nat.le_refl _
    · intro i j l m hl hm he
      rcases Snoc.getElem?_snoc.mp hl with hl | ⟨rfl, rfl⟩ <;>
        rcases Snoc.getElem?_snoc.mp hm with hm | ⟨rfl, rfl⟩
      · exact h.loops.one i j l m hl hm he
      · have hle := h.loops.le i l hl
        simp only at he
        omega
      · have hle := h.loops.le j m hm
        simp only at he
        omega
      · rfl
    · intro _
      exact ⟨s.loops.length, _, List.getElem?_concat_length, rfl, by rintro ⟨⟩⟩
    · intro j id hx
      exact h.execs.le j id (hruns id j hx)
    · intro i j id hx hy
      exact h.execs.one i j id (hruns id i hx) (hruns id j hy)
    · intro j l id e _ _ hid
      exact absurd hid (hstopped id)
    · rintro _ ⟨⟩
    · rintro ⟨⟩
    · exact h.heap.le
    · intro id hid
      exact absurd hid (hstopped id)
    · intro id n obj _ _ ho
      exact absurd (AList.lookup_isSome.mp (by rw [ho]; rfl)) (hstopped id)

theorem mem_insertTime (heap : MinHeap) (id : Nat) (next : Rat) (other : Nat) :
    other ∈ (match heap.lookup id with
      | some old => if old > next then heap.insert id next else heap
      | none => heap.insert id next) ↔ other = id ∨ other ∈ heap := by
  split
  · next old hold =>
    have hid : id ∈ heap := AList.lookup_isSome.mp (by rw [hold]; rfl)
    split
    · exact AList.mem_insert heap
    · constructor
      · exact .inr
      · rintro (rfl | ho)
        · exact hid
        · exact ho
  · exact AList.mem_insert heap

/-- A new timer of the running module. -/
abbrev Scheduler.inserted (s : Scheduler) (obj : TimerObj) (next : Rat) : Scheduler :=
  ({ s with timerIdx := s.timerIdx + 1 }.insertTimerExecTime (s.timerIdx + 1) obj next).log
    (.created (s.timerIdx + 1) obj.times)

theorem mem_inserted {id : Nat} (h : id ∈ (s.inserted obj next).timers) :
    id = s.timerIdx + 1 ∨ id ∈ s.timers := (AList.mem_insert s.timers).mp h

theorem Execs.inserted (h : Execs s) (obj : TimerObj) (next : Rat) :
    Execs (s.inserted obj next) := by
  refine ⟨fun j id hx => (h.le j id hx).trans (Nat.le_succ _), h.one, fun j l id e hl he hid => ?_⟩
  rcases mem_inserted hid with rfl | hid
  · have hle := h.le j _ ⟨l, e, hl, he⟩
    omega
  · exact h.live j l id e hl he hid

theorem Heaped.inserted (h : Heaped s) (hr : s.taskRunning = true) (obj : TimerObj) (next : Rat) :
    Heaped (s.inserted obj next) := by
  obtain ⟨heap, hheap⟩ := Option.ne_none_iff_exists'.mp (h.isSome hr)
  refine ⟨fun _ hnil => ?_, fun hstop => ?_, fun id hid => ?_, fun id hid => ?_⟩
  · simp [Scheduler.insertTimerExecTime, Scheduler.log, hheap] at hnil
  · cases hr.symm.trans hstop
  · rcases mem_inserted hid with rfl | hid
    · exact Nat.le_refl _
    · exact (h.le id hid).trans (Nat.le_succ _)
  · simp only [Scheduler.insertTimerExecTime, Scheduler.log, hheap, Option.map_some]
    rcases mem_inserted hid with rfl | hid
    · exact .inr ⟨_, rfl, (mem_insertTime _ _ _ _).mpr (.inl rfl)⟩
    · refine (h.live id hid).imp_right ?_
      rintro ⟨heap', hh', hin⟩
      cases hheap.symm.trans hh'
      exact ⟨_, rfl, (mem_insertTime _ _ _ _).mpr (.inr hin)⟩

theorem Times.inserted (h : Times s) (he : Execs s) (obj : TimerObj) (next : Rat) :
    Times (s.inserted obj next) := by
  have hzero : s.history.count (.started (s.timerIdx + 1)) = 0 := by
    refine List.count_eq_zero.mpr fun hin => ?_
    have hle := h.started _ hin
    omega
  have hcount : ∀ id, (s.inserted obj next).history.count (Event.started id) =
      s.history.count (.started id) := by
    intro id
    simp [Scheduler.insertTimerExecTime, Scheduler.log, List.count_append]
  refine ⟨fun id n hin => ?_, fun id hin => ?_, fun id n hin hn => ?_, fun id n o hin hn ho => ?_⟩
  · rcases List.mem_append.mp hin with hin | hin
    · exact (h.created id n hin).trans (Nat.le_succ _)
    · cases List.mem_singleton.mp hin
      exact Nat.le_refl _
  · rcases List.mem_append.mp hin with hin | hin
    · exact (h.started id hin).trans (Nat.le_succ _)
    · cases List.mem_singleton.mp hin
  · rw [hcount]
    rcases List.mem_append.mp hin with hin | hin
    · exact h.bound id n hin hn
    · cases List.mem_singleton.mp hin
      rw [hzero]
      exact Int.le_of_lt hn
  · rw [hcount]
    by_cases hid : id = s.timerIdx + 1
    · subst hid
      have hobj : o = obj := by
        simpa [Scheduler.insertTimerExecTime, Scheduler.log, eq_comm] using ho
      subst hobj
      have hnorun : ¬ Runs s.loops (s.timerIdx + 1) := by
        rintro ⟨j, hj⟩
        have hle := he.le j _ hj
        omega
      rcases List.mem_append.mp hin with hin | hin
      · have hle := h.created _ _ hin
        omega
      · cases List.mem_singleton.mp hin
        exact ⟨hn, fun hx => absurd hx hnorun,
          fun _ => by rw [hzero, Int.natCast_zero, Int.zero_add]⟩
    · have ho' : s.timers.lookup id = some o := by
        simpa [Scheduler.insertTimerExecTime, Scheduler.log, AList.lookup_insert_ne hid] using ho
      rcases List.mem_append.mp hin with hin | hin
      · exact h.left id n o hin hn ho'
      · cases List.mem_singleton.mp hin
        exact absurd rfl hid

theorem Dead.inserted (h : Dead s) (obj : TimerObj) (next : Rat) : Dead (s.inserted obj next) := by
  have hdead : Dead ({ s with timerIdx := s.timerIdx + 1 }.insertTimerExecTime
      (s.timerIdx + 1) obj next) := by
    refine ⟨fun id hin => ?_, fun idx hin => ?_, h.order⟩
    · obtain ⟨hle, hnot⟩ := h.cancelled id hin
      refine ⟨hle.trans (Nat.le_succ _), fun hid => ?_⟩
      rcases (AList.mem_insert s.timers).mp hid with rfl | hid
      · omega
      · exact hnot hid
    · obtain ⟨hle, hall⟩ := h.shutdown idx hin
      refine ⟨hle.trans (Nat.le_succ _), fun id hid => ?_⟩
      rcases (AList.mem_insert s.timers).mp hid with rfl | hid
      · omega
      · exact hall id hid
  exact hdead.log (by rintro _ ⟨⟩) (by rintro _ ⟨⟩) (by rintro _ ⟨⟩)

theorem Inv.insertNew (h : Inv s) (hr : s.taskRunning = true) (obj : TimerObj) (next : Rat) :
    Inv (s.inserted obj next) :=
  ⟨{ h.loops with }, h.execs.inserted obj next, h.heap.inserted hr obj next,
    h.times.inserted h.execs obj next, h.dead.inserted obj next⟩

theorem Inv.newTimer (h : Inv s) (sec first : Rat) (times : Int) (now : Rat) :
    Inv (s.newTimer sec first times now) := by
  obtain ⟨hinit, hr⟩ := h.ensureInit
  rw [Scheduler.newTimer]
  split
  · exact hinit
  · rw [← log_doWakeup]
    exact (hinit.insertNew hr ⟨sec * 1000, times⟩ (first * 1000 + now)).doWakeup

theorem Inv.cancel {id : Nat} (h : Inv s) (hle : id ≤ s.timerIdx) : Inv (s.cancel id) := by
  have hlive : ∀ other, other ∈ s.timers.erase id → other ≠ id ∧ other ∈ s.timers :=
    fun other => AList.mem_erase.mp
  have htimes : Times { s with
      minheap := s.minheap.map (AList.erase id), timers := s.timers.erase id } := by
    refine { h.times with left := ?_ }
    intro other n obj hc hn ho
    have hne : other ≠ id := by
      rintro rfl
      rw [AList.lookup_erase] at ho
      cases ho
    exact h.times.left other n obj hc hn ((AList.lookup_erase_ne hne).symm.trans ho)
  have hdead : Dead { s with
      minheap := s.minheap.map (AList.erase id), timers := s.timers.erase id } := by
    refine ⟨?_, ?_, h.dead.order⟩
    · intro other hin
      obtain ⟨hle, hnot⟩ := h.dead.cancelled other hin
      exact ⟨hle, fun hid => hnot (hlive other hid).2⟩
    · intro idx hin
      obtain ⟨hle, hall⟩ := h.dead.shutdown idx hin
      exact ⟨hle, fun other hid => hall other (hlive other hid).2⟩
  refine ⟨{ h.loops with }, ⟨h.execs.le, h.execs.one, ?_⟩, ⟨?_, ?_, ?_, ?_⟩,
    htimes.log (by rintro _ ⟨⟩) (by rintro _ _ ⟨⟩), hdead.log (by rintro _ ⟨⟩) ?_ (by rintro _ ⟨⟩)⟩
  · intro j l other e hl he hid
    exact h.execs.live j l other e hl he (hlive other hid).2
  · intro hr hnone
    exact h.heap.isSome hr (Option.map_eq_none_iff.mp hnone)
  · intro hr other hid
    exact h.heap.stopped hr other (hlive other hid).2
  · intro other hid
    exact h.heap.le other (hlive other hid).2
  · intro other hid
    obtain ⟨hne, hid⟩ := hlive other hid
    refine (h.heap.live other hid).imp_right ?_
    rintro ⟨heap, hheap, hin⟩
    refine ⟨heap.erase id, ?_, AList.mem_erase.mpr ⟨hne, hin⟩⟩
    simp only [Scheduler.cancel, Scheduler.log, hheap, Option.map_some]
  · rintro _ ⟨⟩
    exact ⟨hle, fun hid => (hlive id hid).1 rfl⟩

theorem Inv.wakeup {id : Nat} (h : Inv s) (now : Rat) : Inv (s.wakeup id now) := by
  rw [Scheduler.wakeup]
  split
  · exact h
  · next heap hheap =>
    split
    · apply Inv.doWakeup
      refine ⟨{ h.loops with }, { h.execs with }, { h.heap with isSome := ?_, live := ?_ },
        { h.times with }, { h.dead with }⟩
      · rintro _ ⟨⟩
      · intro other hid
        refine (h.heap.live other hid).imp_right ?_
        rintro ⟨heap', hh', hin⟩
        cases hheap.symm.trans hh'
        exact ⟨_, rfl, (AList.mem_insert heap).mpr (.inr hin)⟩
    · exact h

/-- No timer is left and the running coroutine is of an old generation. -/
theorem Inv.stop (h : Inv s) (minheap : Option MinHeap) :
    Inv ({ s with
      taskRunning := false, generation := s.generation + 1, minheap := minheap, timers := ∅ }.log
        (.shutdown s.timerIdx)) := by
  have hnot : ∀ id, id ∉ (∅ : AList fun _ : Nat => TimerObj) := fun id => AList.notMem_empty id
  have hdead : Dead { s with
      taskRunning := false, generation := s.generation + 1, minheap := minheap, timers := ∅ } := by
    refine ⟨?_, ?_, h.dead.order⟩
    · intro id hin
      exact ⟨(h.dead.cancelled id hin).1, hnot id⟩
    · intro idx hin
      exact ⟨(h.dead.shutdown idx hin).1, fun id hid => absurd hid (hnot id)⟩
  have htimes : Times { s with
      taskRunning := false, generation := s.generation + 1, minheap := minheap, timers := ∅ } := by
    refine { h.times with left := ?_ }
    intro id n obj _ _ ho
    cases ho
  refine ⟨⟨?_, h.loops.one, ?_⟩, ⟨h.execs.le, h.execs.one, ?_⟩, ⟨?_, ?_, ?_, ?_⟩,
    htimes.log (by rintro _ ⟨⟩) (by rintro _ _ ⟨⟩),
    hdead.log (by rintro _ ⟨⟩) (by rintro _ ⟨⟩) ?_⟩
  · intro j l hl
    exact (h.loops.le j l hl).trans (Nat.le_succ _)
  · rintro ⟨⟩
  · intro j l id e _ _ hid
    exact absurd hid (hnot id)
  · rintro ⟨⟩
  · intro _ id hid
    exact hnot id hid
  · intro id hid
    exact absurd hid (hnot id)
  · intro id hid
    exact absurd hid (hnot id)
  · rintro _ ⟨⟩
    exact ⟨Nat.le_refl _, fun id hid => absurd hid (hnot id)⟩

theorem Inv.shutdown (h : Inv s) : Inv s.shutdown := by
  rw [Scheduler.shutdown]
  split
  · have hstop := (h.stop (s.minheap.map fun heap =>
      s.timers.keys.foldl (fun heap id => heap.erase id) heap)).doWakeup
    rw [log_doWakeup] at hstop
    exact hstop.flags _ false false
  · next hr =>
    have hstopped := h.heap.stopped (Bool.eq_false_of_not_eq_true hr)
    refine ⟨{ h.loops with }, { h.execs with }, { h.heap with },
      h.times.log (by rintro _ ⟨⟩) (by rintro _ _ ⟨⟩),
      h.dead.log (by rintro _ ⟨⟩) (by rintro _ ⟨⟩) ?_⟩
    rintro _ ⟨⟩
    exact ⟨Nat.le_refl _, fun id hid => absurd hid (hstopped id)⟩

abbrev Scheduler.entered (s : Scheduler) (k : Nat) (l : Loop) (n id : Nat) : Scheduler :=
  ({ s with minheap := s.minheap.map (AList.erase id) }.setLoop k
    { l with pc := .executing id (n + 1) }).log (.started id)

theorem mem_entered {id : Nat} (hne : e ≠ .started id) (h : e ∈ (s.entered k l n id).history) :
    e ∈ s.history := by
  rcases List.mem_append.mp h with hin | hin
  · exact hin
  · exact absurd (List.mem_singleton.mp hin) hne

/-- No coroutine is in the callback of a live timer that the current one takes off the heap. -/
theorem Inv.not_runs {id k : Nat} {l : Loop} (h : Inv s) (hk : s.loops[k]? = some l)
    (hpc : l.pc = .popping n) (hcur : s.current l = true) (hid : id ∈ s.timers) :
    ¬ Runs s.loops id := by
  have hcurrent : ∀ m : Loop, s.current m = true → m.generation = l.generation := by
    intro m hm
    simp only [Scheduler.current, Bool.and_eq_true, decide_eq_true_eq] at hm hcur
    exact hm.2.trans hcur.2.symm
  rintro ⟨j, m, e, hm, he⟩
  have hcm := h.execs.live j m id e hm he hid
  cases h.loops.one j k m l hm hk (hcurrent m hcm)
  cases Option.some.inj (hk.symm.trans hm)
  cases hpc.symm.trans he

theorem runs_entered {id other : Nat} {l : Loop} (hk : s.loops[k]? = some l)
    (hpc : l.pc = .popping n) :
    Runs (s.entered k l n id).loops other ↔ other = id ∨ Runs s.loops other := by
  refine runs_start hk (fun i e he => ?_) rfl
  cases hpc.symm.trans he

theorem Execs.entered {id : Nat} (h : Execs s) (hk : s.loops[k]? = some l)
    (hpc : l.pc = .popping n) (hcur : s.current l = true) (hid : id ≤ s.timerIdx)
    (hidle : ¬ Runs s.loops id) : Execs (s.entered k l n id) := by
  refine ⟨fun j other hr => ?_, fun i j other hi hj => ?_, fun j m other e hm he hother => ?_⟩
  · rcases (runs_entered hk hpc).mp ⟨j, hr⟩ with rfl | ⟨i, hi⟩
    · exact hid
    · exact h.le i other hi
  · rcases (runsAt_set_iff hk).mp hi with ⟨_, hri⟩ | ⟨rfl, e, he⟩
    · rcases (runsAt_set_iff hk).mp hj with ⟨_, hrj⟩ | ⟨_, e, he⟩
      · exact h.one i j other hri hrj
      · cases he
        exact absurd ⟨i, hri⟩ hidle
    · cases he
      rcases (runsAt_set_iff hk).mp hj with ⟨_, hrj⟩ | ⟨hjk, _⟩
      · exact absurd ⟨j, hrj⟩ hidle
      · exact hjk.symm
  · rcases Snoc.getElem?_set_cases hm with ⟨_, rfl⟩ | ⟨_, hm⟩
    · exact hcur
    · exact h.live j m other e hm he hother

theorem Heaped.entered {id : Nat} (h : Heaped s) (hk : s.loops[k]? = some l)
    (hpc : l.pc = .popping n) : Heaped (s.entered k l n id) := by
  refine ⟨fun hr hnone => h.isSome hr (Option.map_eq_none_iff.mp hnone), h.stopped, h.le,
    fun other hother => ?_⟩
  by_cases ho : other = id
  · exact .inl ((runs_entered hk hpc).mpr (.inl ho))
  · rcases h.live other hother with hr | ⟨heap, hheap, hin⟩
    · exact .inl ((runs_entered hk hpc).mpr (.inr hr))
    · refine .inr ⟨heap.erase id, ?_, AList.mem_erase.mpr ⟨ho, hin⟩⟩
      simp only [Scheduler.setLoop, Scheduler.log, hheap, Option.map_some]

theorem Times.entered {id : Nat} (h : Times s) (hk : s.loops[k]? = some l) (hpc : l.pc = .popping n)
    (hle : id ≤ s.timerIdx) (hid : id ∈ s.timers) (hidle : ¬ Runs s.loops id) :
    Times (s.entered k l n id) := by
  have hcount : ∀ other, (s.entered k l n id).history.count (Event.started other) =
      s.history.count (.started other) + if other = id then 1 else 0 := by
    intro other
    by_cases ho : other = id
    · simp [Scheduler.setLoop, Scheduler.log, List.count_append, ho]
    · simp [Scheduler.setLoop, Scheduler.log, List.count_append, ho, Ne.symm ho]
  refine ⟨fun other m hin => h.created other m (mem_entered (by rintro ⟨⟩) hin),
    fun other hin => ?_, fun other m hin hm => ?_, fun other m obj hin hm hobj => ?_⟩
  · by_cases ho : other = id
    · exact ho ▸ hle
    · exact h.started other (mem_entered (fun he => ho (Event.started.inj he)) hin)
  · have hc := mem_entered (by rintro ⟨⟩) hin
    rw [hcount]
    by_cases ho : other = id
    · obtain ⟨obj, hobj⟩ := Option.isSome_iff_exists.mp (AList.lookup_isSome.mpr hid)
      obtain ⟨hpos, _, hleft⟩ := h.left other m obj hc hm (ho ▸ hobj)
      have hsum := hleft (ho ▸ hidle)
      rw [if_pos ho]
      omega
    · have hbound := h.bound other m hc hm
      rw [if_neg ho]
      omega
  · obtain ⟨hpos, hrun, hleft⟩ := h.left other m obj (mem_entered (by rintro ⟨⟩) hin) hm hobj
    rw [hcount, runs_entered hk hpc]
    refine ⟨hpos, ?_⟩
    by_cases ho : other = id
    · have hsum := hleft (ho ▸ hidle)
      rw [if_pos ho]
      refine ⟨fun _ => ?_, fun hx => absurd (.inl ho) hx⟩
      omega
    · rw [if_neg ho]
      exact ⟨fun hx => hrun (hx.resolve_left ho), fun hx => hleft fun hr => hx (.inr hr)⟩

theorem Dead.entered {id : Nat} (h : Dead s) (hid : id ∈ s.timers) : Dead (s.entered k l n id) := by
  refine ⟨fun other hin => h.cancelled other (mem_entered (by rintro ⟨⟩) hin),
    fun idx hin => h.shutdown idx (mem_entered (by rintro ⟨⟩) hin), fun before rest other he => ?_⟩
  rcases List.eq_nil_or_concat rest with rfl | ⟨rest, e', rfl⟩
  · obtain ⟨hbefore, hlast⟩ := List.append_inj' he rfl
    subst hbefore
    cases List.singleton_inj.mp hlast
    exact ⟨fun hin => (h.cancelled id hin).2 hid, fun idx hin => (h.shutdown idx hin).2 id hid⟩
  · have he' : s.history ++ [Event.started id] = (before ++ .started other :: rest) ++ [e'] := by
      simpa [Scheduler.setLoop, Scheduler.log] using he
    exact h.order before rest other (List.append_inj' he' rfl).1

/-- A coroutine enters the callback of a live timer, which no other is in. -/
theorem Inv.start {id : Nat} (h : Inv s) (hk : s.loops[k]? = some l) (hpc : l.pc = .popping n)
    (hcur : s.current l = true) (hid : id ∈ s.timers) : Inv (s.entered k l n id) := by
  have hloops : Loops (s.setLoop k { l with pc := .executing id (n + 1) }) :=
    h.loops.setLoop hk rfl (by rintro _ ⟨⟩)
  have hle := h.heap.le id hid
  have hidle := h.not_runs hk hpc hcur hid
  exact ⟨{ hloops with }, h.execs.entered hk hpc hcur hle hidle, h.heap.entered hk hpc,
    h.times.entered hk hpc hle hid hidle, h.dead.entered hid⟩

/-- A payload on top of the heap that is no live timer is dropped. -/
theorem Inv.drop {id : Nat} (h : Inv s) (hid : id ∉ s.timers) :
    Inv { s with minheap := s.minheap.map (AList.erase id) } := by
  refine ⟨{ h.loops with }, { h.execs with }, { h.heap with isSome := ?_, live := ?_ },
    { h.times with }, { h.dead with }⟩
  · intro hr hnone
    exact h.heap.isSome hr (Option.map_eq_none_iff.mp hnone)
  · intro other hother
    have hne : other ≠ id := by
      rintro rfl
      exact hid hother
    refine (h.heap.live other hother).imp_right ?_
    rintro ⟨heap, hheap, hin⟩
    exact ⟨heap.erase id, by rw [hheap, Option.map_some], AList.mem_erase.mpr ⟨hne, hin⟩⟩

theorem Inv.pop {id : Nat} (h : Inv s) (hk : s.loops[k]? = some l) (hpc : l.pc = .popping n)
    (hcur : s.current l = true) : Inv (s.pop k l n id) := by
  rw [Scheduler.pop]
  split
  · next hid => exact h.start hk hpc hcur hid
  · next hid => exact h.drop hid

/-- A coroutine leaves a callback; its timer is no longer live, or back in the heap with one
time less. -/
theorem Inv.leave {id k : Nat} {l : Loop} (h : Inv s) (hk : s.loops[k]? = some l)
    (hpc : l.pc = .executing id n) (timers : AList fun _ : Nat => TimerObj)
    (minheap : Option MinHeap)
    (hlive : ∀ other ∈ timers, other ∈ s.timers)
    (hsome : minheap = none → s.minheap = none)
    (hother : ∀ other, other ≠ id → timers.lookup other = s.timers.lookup other)
    (hheap : ∀ heap, s.minheap = some heap → ∃ heap', minheap = some heap' ∧
      ∀ other ∈ heap, other ∈ heap')
    (hback : id ∈ timers → ∃ heap', minheap = some heap' ∧ id ∈ heap')
    (hself : ∀ obj', timers.lookup id = some obj' → ∃ obj, s.timers.lookup id = some obj ∧
      obj.times ≠ 1 ∧ obj'.times = if obj.times > 0 then obj.times - 1 else obj.times) :
    Inv ({ s with timers := timers, minheap := minheap }.setLoop k
      { l with pc := .popping n } |>.log (.ended id)) := by
  have hl' : ∀ other e, ({ l with pc := .popping n } : Loop).pc ≠ .executing other e := by
    rintro _ _ ⟨⟩
  have hruns : ∀ other, Runs (s.loops.set k { l with pc := .popping n }) other ↔
      other ≠ id ∧ Runs s.loops other := fun other => runs_finish hk hpc hl' h.execs.one
  have hloops : Loops (s.setLoop k { l with pc := .popping n }) :=
    h.loops.setLoop hk rfl (by rintro _ ⟨⟩)
  have hrun : Runs s.loops id := ⟨k, (runsAt_pc hk).mpr ⟨n, hpc⟩⟩
  have htimes : Times ({ s with timers := timers, minheap := minheap }.setLoop k
      { l with pc := .popping n }) := by
    refine { h.times with left := ?_ }
    intro other m obj hc hm hobj
    change 0 < obj.times ∧ (Runs (s.loops.set k _) other →
      (s.history.count (Event.started other) : Int) + obj.times = m + 1) ∧
      (¬ Runs (s.loops.set k _) other →
      (s.history.count (Event.started other) : Int) + obj.times = m)
    rw [hruns]
    by_cases ho : other = id
    · subst ho
      obtain ⟨old, hold, hne, htimes⟩ := hself obj hobj
      obtain ⟨hpos, hsum, _⟩ := h.times.left other m old hc hm hold
      have hsum := hsum hrun
      rw [if_pos hpos] at htimes
      refine ⟨by omega, fun hx => absurd rfl hx.1, fun _ => by omega⟩
    · obtain ⟨hpos, hsum, hleft⟩ :=
        h.times.left other m obj hc hm ((hother other ho).symm.trans hobj)
      exact ⟨hpos, fun hx => hsum hx.2, fun hx => hleft fun hr => hx ⟨ho, hr⟩⟩
  have hdead : Dead ({ s with timers := timers, minheap := minheap }.setLoop k
      { l with pc := .popping n }) := by
    refine ⟨?_, ?_, h.dead.order⟩
    · intro other hin
      obtain ⟨hle, hnot⟩ := h.dead.cancelled other hin
      exact ⟨hle, fun hid => hnot (hlive other hid)⟩
    · intro idx hin
      obtain ⟨hle, hall⟩ := h.dead.shutdown idx hin
      exact ⟨hle, fun other hid => hall other (hlive other hid)⟩
  refine ⟨{ hloops with }, ⟨?_, ?_, ?_⟩, ⟨?_, ?_, ?_, ?_⟩,
    htimes.log (by rintro _ ⟨⟩) (by rintro _ _ ⟨⟩),
    hdead.log (by rintro _ ⟨⟩) (by rintro _ ⟨⟩) (by rintro _ ⟨⟩)⟩
  · intro j other hr
    obtain ⟨_, i, hi⟩ := (hruns other).mp ⟨j, hr⟩
    exact h.execs.le i other hi
  · intro i j other hi hj
    rcases (runsAt_set_iff hk).mp hi with ⟨_, hri⟩ | ⟨_, e, he⟩
    · rcases (runsAt_set_iff hk).mp hj with ⟨_, hrj⟩ | ⟨_, e, he⟩
      · exact h.execs.one i j other hri hrj
      · cases he
    · cases he
  · intro j m other e hm he hin
    rcases Snoc.getElem?_set_cases hm with ⟨_, rfl⟩ | ⟨_, hm⟩
    · cases he
    · exact h.execs.live j m other e hm he (hlive other hin)
  · intro hr hnone
    exact h.heap.isSome hr (hsome hnone)
  · intro hr other hin
    exact h.heap.stopped hr other (hlive other hin)
  · intro other hin
    exact h.heap.le other (hlive other hin)
  · intro other hin
    by_cases ho : other = id
    · subst ho
      exact .inr (hback hin)
    · rcases h.heap.live other (hlive other hin) with hr | ⟨heap, hsome, hmem⟩
      · exact .inl ((hruns other).mpr ⟨ho, hr⟩)
      · obtain ⟨heap', hheap', hsub⟩ := hheap heap hsome
        exact .inr ⟨heap', hheap', hsub other hmem⟩

theorem Inv.finish {id k : Nat} {l : Loop} (h : Inv s) (hk : s.loops[k]? = some l)
    (hpc : l.pc = .executing id n) (now : Rat) :
    Inv ((s.updateTimer id now).setLoop k { l with pc := .popping n } |>.log (.ended id)) := by
  rw [Scheduler.updateTimer]
  split
  · next hnone =>
    have hid : id ∉ s.timers := AList.lookup_eq_none.mp hnone
    apply h.leave hk hpc s.timers s.minheap
    · exact fun _ hin => hin
    · exact fun hn => hn
    · exact fun _ _ => rfl
    · exact fun heap hheap => ⟨heap, hheap, fun _ hin => hin⟩
    · exact fun hin => absurd hin hid
    · intro obj' hobj
      cases hnone.symm.trans hobj
  · next obj hobj =>
    have hid : id ∈ s.timers := AList.lookup_isSome.mp (by rw [hobj]; rfl)
    have hrunning : s.taskRunning = true := by
      by_contra hr
      exact h.heap.stopped (Bool.eq_false_of_not_eq_true hr) id hid
    obtain ⟨heap, hheap⟩ := Option.ne_none_iff_exists'.mp (h.heap.isSome hrunning)
    split
    · next hone =>
      apply h.leave hk hpc
      · intro other hin
        rcases (AList.mem_insert s.timers).mp hin with rfl | hin
        · exact hid
        · exact hin
      · exact Option.map_eq_none_iff.mp
      · exact fun other hne => AList.lookup_insert_ne hne
      · intro heap' hheap'
        refine ⟨_, by rw [hheap', Option.map_some], fun other hin => ?_⟩
        exact (mem_insertTime _ _ _ _).mpr (.inr hin)
      · intro _
        refine ⟨_, by rw [hheap, Option.map_some], ?_⟩
        exact (mem_insertTime _ _ _ _).mpr (.inl rfl)
      · intro obj' hobj'
        rw [AList.lookup_insert] at hobj'
        cases hobj'
        exact ⟨obj, hobj, hone, rfl⟩
    · apply h.leave hk hpc (s.timers.erase id) s.minheap
      · exact fun other hin => (AList.mem_erase.mp hin).2
      · exact fun hn => hn
      · exact fun other hne => AList.lookup_erase_ne hne
      · exact fun heap hheap => ⟨heap, hheap, fun _ hin => hin⟩
      · exact fun hin => absurd rfl (AList.mem_erase.mp hin).1
      · intro obj' hobj'
        rw [AList.lookup_erase] at hobj'
        cases hobj'

theorem Inv.rest {k : Nat} {l : Loop} (h : Inv s) (hk : s.loops[k]? = some l)
    (hpc : l.pc = .popping n) : Inv (s.doSleep k l) := by
  have hl : ∀ id e, l.pc ≠ .executing id e := by
    intro id e he
    cases hpc.symm.trans he
  rw [Scheduler.doSleep]
  split
  · exact (h.flags s.sleeping false s.taskCo).setLoop hk hl rfl (by rintro _ _ ⟨⟩) (by rintro _ ⟨⟩)
  · exact (h.flags true s.skipSleep s.taskCo).setLoop hk hl rfl (by rintro _ _ ⟨⟩) (by rintro _ ⟨⟩)

theorem Inv.exit {k : Nat} {l : Loop} (h : Inv s) (hk : s.loops[k]? = some l)
    (hpc : l.pc = .popping n) (hcur : s.current l = false) :
    Inv (s.setLoop k { l with pc := .exited }) := by
  apply h.setLoop hk
  · intro id e he
    cases hpc.symm.trans he
  · rfl
  · rintro _ _ ⟨⟩
  · intro hc
    cases hcur.symm.trans hc

theorem Inv.resume {k : Nat} {l : Loop} (h : Inv s) (hk : s.loops[k]? = some l)
    (hpc : l.pc = .sleeping) :
    Inv ((if l.generation = s.generation then { s with sleeping := false } else s).setLoop k
      { l with pc := .popping 0 }) := by
  have hl : ∀ id e, l.pc ≠ .executing id e := by
    intro id e he
    cases hpc.symm.trans he
  split
  · exact (h.flags false s.skipSleep s.taskCo).setLoop hk hl rfl (by rintro _ _ ⟨⟩) (by rintro _ ⟨⟩)
  · exact h.setLoop hk hl rfl (by rintro _ _ ⟨⟩) (by rintro _ ⟨⟩)

theorem Inv.step (h : Inv s) (hstep : s.step a = some t) : Inv t := by
  cases a with
  | timeout sec now =>
    cases hstep
    exact h.newTimer sec sec 1 now
  | repeatImmediately sec times now =>
    cases hstep
    exact h.newTimer sec 0 times now
  | repeatDelayed sec times now =>
    cases hstep
    exact h.newTimer sec sec times now
  | repeatRandomDelayed sec first times now =>
    cases hstep
    rw [Scheduler.repeatRandomDelayed]
    split
    · exact h.ensureInit.1
    · exact h.newTimer sec first times now
  | cancel id =>
    simp only [Scheduler.step, Option.ite_none_right_eq_some] at hstep
    obtain ⟨hle, hstep⟩ := hstep
    cases hstep
    exact h.cancel hle
  | wakeup id now =>
    simp only [Scheduler.step, Option.ite_none_right_eq_some] at hstep
    cases hstep.2
    exact h.wakeup now
  | shutdown =>
    cases hstep
    exact h.shutdown
  | pop k id ms now =>
    rw [Scheduler.step] at hstep
    split at hstep
    · next l hk =>
      split at hstep
      · next n hpc =>
        obtain ⟨hcur, hstep⟩ := Option.ite_none_right_eq_some.mp hstep
        cases hstep
        exact h.pop hk hpc hcur.1
      · cases hstep
    · cases hstep
  | finish k now =>
    rw [Scheduler.step] at hstep
    split at hstep
    · next l hk =>
      split at hstep
      · next id n hpc =>
        cases hstep
        exact h.finish hk hpc now
      · cases hstep
    · cases hstep
  | rest k now =>
    rw [Scheduler.step] at hstep
    split at hstep
    · next l hk =>
      split at hstep
      · next n hpc =>
        split at hstep
        · next hcur =>
          cases hstep
          exact h.exit hk hpc hcur
        · obtain ⟨_, hstep⟩ := Option.ite_none_right_eq_some.mp hstep
          cases hstep
          exact h.rest hk hpc
      · cases hstep
    · cases hstep
  | resume k =>
    rw [Scheduler.step] at hstep
    split at hstep
    · next l hk =>
      split at hstep
      · next hpc =>
        cases hstep
        exact h.resume hk hpc
      · cases hstep
    · cases hstep

theorem Inv.initial : Inv {} := by
  refine ⟨⟨?_, ?_, ?_⟩, ⟨?_, ?_, ?_⟩, ⟨?_, ?_, ?_, ?_⟩, ⟨?_, ?_, ?_, ?_⟩, ⟨?_, ?_, ?_⟩⟩ <;>
    simp [RunsAt]

theorem reaches_inv (h : system.Reaches anyStep s) : Inv s :=
  h.invariant (by rintro _ rfl; exact Inv.initial) fun _ _ _ hs _ hstep => hs.step hstep

/-- What the users of the module rely on, in one state and its history: a timer created with a
number of times starts no more often, none starts after it was cancelled or shut down, no two
coroutines are in one callback, a live timer is in the heap or executing in the coroutine of this
generation, and of a running module exactly one coroutine, which has not exited,
can start timers. -/
structure Correct (s : Scheduler) : Prop where
  times : ∀ id n, .created id n ∈ s.history → 0 < n → (s.history.count (.started id) : Int) ≤ n
  cancelled : ∀ before rest id, s.history = before ++ .started id :: rest → .cancelled id ∉ before
  shutdown : ∀ before rest id, s.history = before ++ .started id :: rest →
    ∀ idx, .shutdown idx ∈ before → idx < id
  overlap : ∀ i j id, RunsAt s.loops id i → RunsAt s.loops id j → i = j
  live : ∀ id ∈ s.timers, (∃ heap, s.minheap = some heap ∧ id ∈ heap) ∨
    ∃ (j : Nat) (l : Loop) (n : Nat), s.loops[j]? = some l ∧ l.pc = .executing id n ∧
      s.current l = true
  running : s.taskRunning = true → ∃ (j : Nat) (l : Loop), s.loops[j]? = some l ∧
    s.current l = true ∧ l.pc ≠ .exited ∧
      ∀ k id ms now, (s.step (.pop k id ms now)).isSome → k = j
  stopped : s.taskRunning = false → ∀ k id ms now, s.step (.pop k id ms now) = none

theorem pop_current {id : Nat} (h : (s.step (.pop k id ms now)).isSome) :
    ∃ l, s.loops[k]? = some l ∧ s.current l = true := by
  rw [Scheduler.step] at h
  split at h
  · next l hk =>
    split at h
    · split at h
      · next hcond => exact ⟨l, hk, hcond.1⟩
      · cases h
    · cases h
  · cases h

theorem Inv.correct (h : Inv s) : Correct s := by
  refine ⟨h.times.bound, fun before rest id he => (h.dead.order before rest id he).1,
    fun before rest id he => (h.dead.order before rest id he).2, h.execs.one, ?_, ?_, ?_⟩
  · intro id hid
    rcases h.heap.live id hid with ⟨j, l, n, hl, hpc⟩ | hheap
    · exact .inr ⟨j, l, n, hl, hpc, h.execs.live j l id n hl hpc hid⟩
    · exact .inl hheap
  · intro hr
    obtain ⟨j, l, hl, hgen, hne⟩ := h.loops.present hr
    refine ⟨j, l, hl, ?_, hne, fun k id ms now hpop => ?_⟩
    · simp [Scheduler.current, hr, hgen]
    · obtain ⟨m, hm, hcur⟩ := pop_current hpop
      simp only [Scheduler.current, Bool.and_eq_true, decide_eq_true_eq] at hcur
      exact h.loops.one k j m l hm hl (hcur.2.trans hgen.symm)
  · intro hr k id ms now
    by_contra hne
    obtain ⟨l, _, hcur⟩ := pop_current (Option.isSome_iff_ne_none.mpr hne)
    simp [Scheduler.current, hr] at hcur

/-- Every interleaving of calls and coroutines keeps the scheduler correct. -/
theorem scheduler_correct (h : system.Reaches anyStep s) : Correct s := (reaches_inv h).correct

/-- A timer is woken up and another cancelled inside callbacks; the module is shut down while a
callback is suspended, restarted, and the old coroutine exits. -/
def interrupted : List Action :=
  [.timeout 1 0, .repeatDelayed 2 3 0, .repeatImmediately 5 0 0, .pop 0 3 0 0, .wakeup 2 10,
    .cancel 1, .finish 0 20, .pop 0 2 10 30, .wakeup 2 40, .finish 0 50, .pop 0 2 40 60, .shutdown,
    .timeout 0 70, .wakeup 2 80, .pop 1 4 70 90, .finish 0 100, .rest 0 110, .finish 1 120,
    .rest 1 130, .rest 1 140, .repeatDelayed 1 1 150, .resume 1]

theorem scheduler_correct_interrupted :
    Correct (system.run anyStep {} interrupted (by decide +kernel)) :=
  scheduler_correct (system.run_reaches anyStep _ rfl (by decide +kernel))

/-- The number of times 0 is no limit. -/
theorem zero_times_starts : ¬ ∀ s, system.Reaches anyStep s → ∀ id n, .created id n ∈ s.history →
    (s.history.count (.started id) : Int) ≤ n := by
  intro h
  have hrun := h _ (system.run_reaches anyStep
    [.repeatDelayed 1 0 0, .pop 0 1 1000 1000] rfl (by decide +kernel)) 1 0 (by decide +kernel)
  revert hrun
  decide +kernel

end Timer
end Skyext
