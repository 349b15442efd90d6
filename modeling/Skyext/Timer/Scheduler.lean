import Mathlib.Data.List.AList
import Mathlib.Data.Rat.Defs
import Mathlib.Algebra.Order.Ring.Rat
import Skyext.Lib.Machine

namespace Skyext
set_option autoImplicit true

namespace Timer

/-- The fields of a timer object that change or are read again. -/
structure TimerObj where
  interval : Rat
  times : Int
  deriving DecidableEq

/-- A min-heap of execution times in milliseconds, keyed by the ids of the timers. -/
abbrev MinHeap := AList fun _ : Nat => Rat

/-- `peek` may answer any payload of the least value. -/
def MinHeap.Peeks (heap : MinHeap) (id : Nat) (ms : Rat) : Prop :=
  heap.lookup id = some ms ∧ ∀ e ∈ heap.entries, ms ≤ e.2

instance (heap : MinHeap) (id : Nat) (ms : Rat) : Decidable (heap.Peeks id ms) :=
  inferInstanceAs (Decidable (_ ∧ _))

/-- Where a scheduler coroutine is: in `minheap_pop_exec`, suspended in a callback, or asleep;
the numbers count the callbacks of this batch. -/
inductive Pc
  | popping (executed : Nat)
  | executing (id executed : Nat)
  | sleeping
  | exited
  deriving DecidableEq

structure Loop where
  generation : Nat
  pc : Pc
  deriving DecidableEq

/-- What an observer sees: a timer is created with its number of times, its callback starts or
ends, `cancel` returns, `shutdown` returns with so many ids given out. -/
inductive Event
  | created (id : Nat) (times : Int)
  | started (id : Nat)
  | ended (id : Nat)
  | cancelled (id : Nat)
  | shutdown (idx : Nat)
  deriving DecidableEq

/-- The state of the module with its scheduler coroutines and a record of what happened. -/
structure Scheduler where
  timers : AList (fun _ : Nat => TimerObj) := ∅
  minheap : Option MinHeap := none
  taskCo : Bool := false
  taskRunning : Bool := false
  timerIdx : Nat := 0
  sleeping : Bool := false
  skipSleep : Bool := false
  generation : Nat := 0
  loops : List Loop := []
  history : List Event := []

def maxBatchExec : Nat := 64

namespace Scheduler

def log (s : Scheduler) (e : Event) : Scheduler := { s with history := s.history ++ [e] }

/-- `skynet.wakeup` only makes the sleeping coroutine go on earlier. -/
def doWakeup (s : Scheduler) : Scheduler :=
  if s.sleeping ∧ s.taskCo then { s with sleeping := false } else { s with skipSleep := true }

def cancel (s : Scheduler) (id : Nat) : Scheduler :=
  { s with
    minheap := s.minheap.map (AList.erase id)
    timers := s.timers.erase id }.log (.cancelled id)

def wakeup (s : Scheduler) (id : Nat) (now : Rat) : Scheduler :=
  match s.minheap with
  | none => s
  | some heap =>
    if id ∈ heap ∨ id ∈ s.timers then
      { s with minheap := some (heap.insert id now) }.doWakeup
    else s

/-- A time that is already in the heap only becomes earlier. -/
def insertTimerExecTime (s : Scheduler) (id : Nat) (obj : TimerObj) (next : Rat) : Scheduler :=
  { s with
    timers := s.timers.insert id obj
    minheap := s.minheap.map fun heap =>
      match heap.lookup id with
      | some old => if old > next then heap.insert id next else heap
      | none => heap.insert id next }

def ensureInit (s : Scheduler) : Scheduler :=
  if s.taskRunning then s
  else
    { s with
      taskRunning := true
      generation := s.generation + 1
      minheap := some ∅
      skipSleep := false
      sleeping := false
      taskCo := true
      loops := s.loops ++ [⟨s.generation + 1, .popping 0⟩] }

/-- `new_timer_obj` and `insert_timer`; no number of times is the number 0. -/
def newTimer (s : Scheduler) (sec first : Rat) (times : Int) (now : Rat) : Scheduler :=
  let t := s.ensureInit
  if sec < 0 then t
  else
    ({ t with timerIdx := t.timerIdx + 1 }.insertTimerExecTime (t.timerIdx + 1)
      ⟨sec * 1000, times⟩ (first * 1000 + now)).doWakeup.log (.created (t.timerIdx + 1) times)

def timeout (s : Scheduler) (sec now : Rat) : Scheduler := s.newTimer sec sec 1 now

def repeatImmediately (s : Scheduler) (sec : Rat) (times : Int) (now : Rat) : Scheduler :=
  s.newTimer sec 0 times now

def repeatDelayed (s : Scheduler) (sec : Rat) (times : Int) (now : Rat) : Scheduler :=
  s.newTimer sec sec times now

/-- `first` is what the random source made of the interval, which must be positive. -/
def repeatRandomDelayed (s : Scheduler) (sec first : Rat) (times : Int) (now : Rat) : Scheduler :=
  if sec ≤ 0 then s.ensureInit else s.newTimer sec first times now

def updateTimer (s : Scheduler) (id : Nat) (now : Rat) : Scheduler :=
  match s.timers.lookup id with
  | none => s
  | some obj =>
    if obj.times ≠ 1 then
      let times := if obj.times > 0 then obj.times - 1 else obj.times
      s.insertTimerExecTime id { obj with times := times } (now + obj.interval)
    else { s with timers := s.timers.erase id }

def setLoop (s : Scheduler) (k : Nat) (l : Loop) : Scheduler := { s with loops := s.loops.set k l }

/-- The condition of both loops of a coroutine. -/
def current (s : Scheduler) (l : Loop) : Bool :=
  s.taskRunning && decide (l.generation = s.generation)

/-- One pass of the loop of `minheap_pop_exec` with the timer `id` on top of the heap. -/
def pop (s : Scheduler) (k : Nat) (l : Loop) (executed id : Nat) : Scheduler :=
  let t := { s with minheap := s.minheap.map (AList.erase id) }
  if id ∈ s.timers then
    (t.setLoop k { l with pc := .executing id (executed + 1) }).log (.started id)
  else t

def batchDone (s : Scheduler) (executed : Nat) (now : Rat) : Bool :=
  decide (executed ≥ maxBatchExec) ||
    s.minheap.all fun heap => heap.entries.all fun e => decide (now < e.2)

/-- `do_sleep` up to its `skynet.sleep`. -/
def doSleep (s : Scheduler) (k : Nat) (l : Loop) : Scheduler :=
  if s.skipSleep then { s with skipSleep := false }.setLoop k { l with pc := .popping 0 }
  else { s with sleeping := true }.setLoop k { l with pc := .sleeping }

def shutdown (s : Scheduler) : Scheduler :=
  if s.taskRunning then
    let t := { s with
      taskRunning := false
      generation := s.generation + 1
      minheap := s.minheap.map fun heap => s.timers.keys.foldl (fun heap id => heap.erase id) heap
      timers := ∅ }
    { t.doWakeup with skipSleep := false, taskCo := false }.log (.shutdown s.timerIdx)
  else s.log (.shutdown s.timerIdx)

end Scheduler

/-- The steps of a run, with the clock where it is read: the calls of the module's functions from
anywhere, and for a coroutine the next pop with the payload it peeks, the end of a callback
(returned or raised), the end of a batch, and the end of its sleep. -/
inductive Action
  | timeout (sec now : Rat)
  | repeatImmediately (sec : Rat) (times : Int) (now : Rat)
  | repeatDelayed (sec : Rat) (times : Int) (now : Rat)
  | repeatRandomDelayed (sec first : Rat) (times : Int) (now : Rat)
  | cancel (id : Nat)
  | wakeup (id : Nat) (now : Rat)
  | shutdown
  | pop (k id : Nat) (ms now : Rat)
  | finish (k : Nat) (now : Rat)
  | rest (k : Nat) (now : Rat)
  | resume (k : Nat)

namespace Scheduler

def step (s : Scheduler) : Action → Option Scheduler
  | .timeout sec now => some (s.timeout sec now)
  | .repeatImmediately sec times now => some (s.repeatImmediately sec times now)
  | .repeatDelayed sec times now => some (s.repeatDelayed sec times now)
  | .repeatRandomDelayed sec first times now => some (s.repeatRandomDelayed sec first times now)
  | .cancel id => if id ≤ s.timerIdx then some (s.cancel id) else none
  | .wakeup id now => if id ≤ s.timerIdx then some (s.wakeup id now) else none
  | .shutdown => some s.shutdown
  | .pop k id ms now =>
    match s.loops[k]? with
    | some l =>
      match l.pc with
      | .popping executed =>
        if s.current l ∧ executed < maxBatchExec ∧ ms ≤ now ∧
            (∃ heap ∈ s.minheap, heap.Peeks id ms) then
          some (s.pop k l executed id)
        else none
      | _ => none
    | none => none
  | .finish k now =>
    match s.loops[k]? with
    | some l =>
      match l.pc with
      | .executing id executed =>
        some ((s.updateTimer id now).setLoop k { l with pc := .popping executed }
          |>.log (.ended id))
      | _ => none
    | none => none
  | .rest k now =>
    match s.loops[k]? with
    | some l =>
      match l.pc with
      | .popping executed =>
        if s.current l = false then some (s.setLoop k { l with pc := .exited })
        else if s.batchDone executed now then some (s.doSleep k l)
        else none
      | _ => none
    | none => none
  | .resume k =>
    match s.loops[k]? with
    | some l =>
      match l.pc with
      | .sleeping =>
        let t := if l.generation = s.generation then { s with sleeping := false } else s
        some (t.setLoop k { l with pc := .popping 0 })
      | _ => none
    | none => none

end Scheduler

def system : Machine.System Scheduler Action := ⟨fun s => s = {}, Scheduler.step⟩

end Timer
end Skyext
