import Skyext.BinaryHeap.Refines
import Skyext.Timer.Scheduler

namespace Skyext
set_option autoImplicit true

namespace Timer
open BinaryHeap HeapOrder

abbrev Heap := Unique Rat Nat

/-- The order of `minUnique` when it is given none. -/
def less : Rat → Rat → Bool := (WeakOrder.natural Rat).lt

/-- Every number is true. -/
def truth : Rat → Bool := fun _ => true

/-- The module with the heap it uses; the `minheap` of `base` stands for nothing here. -/
structure Impl where
  base : Scheduler := {}
  heap : Option Heap := none

def noHeap : String := "attempt to index a nil value (upvalue 'g_minheap')"

namespace Impl

def ensureInit (m : Impl) : Impl :=
  if m.base.taskRunning then m else ⟨m.base.ensureInit, some {}⟩

def cancel (m : Impl) (id : Nat) : Except String Impl :=
  match m.heap with
  | none => .ok { m with base := m.base.cancel id }
  | some heap => do
    let (_, heap) ← heap.removeU less id
    pure ⟨m.base.cancel id, some heap⟩

def wakeup (m : Impl) (id : Nat) (now : Rat) : Except String Impl :=
  match m.heap with
  | none => .ok m
  | some heap =>
    if heap.valueByPayload id ≠ none then do
      let heap ← heap.updateU less id now
      pure ⟨m.base.doWakeup, some heap⟩
    else if id ∈ m.base.timers then do
      let heap ← heap.insertU less now id
      pure ⟨m.base.doWakeup, some heap⟩
    else .ok m

def insertTimerExecTime (m : Impl) (id : Nat) (obj : TimerObj) (next : Rat) :
    Except String Impl :=
  match m.heap with
  | none => .error noHeap
  | some heap =>
    let base := { m.base with timers := m.base.timers.insert id obj }
    match heap.valueByPayload id with
    | some old =>
      if old > next then do
        let heap ← heap.updateU less id next
        pure ⟨base, some heap⟩
      else .ok ⟨base, some heap⟩
    | none => do
      let heap ← heap.insertU less next id
      pure ⟨base, some heap⟩

def newTimer (m : Impl) (sec first : Rat) (times : Int) (now : Rat) : Except String Impl :=
  let t := m.ensureInit
  if sec < 0 then .ok t
  else do
    let id := t.base.timerIdx + 1
    let t := { t with base := { t.base with timerIdx := id } }
    let t ← t.insertTimerExecTime id ⟨sec * 1000, times⟩ (first * 1000 + now)
    pure { t with base := t.base.doWakeup.log (.created id times) }

def repeatRandomDelayed (m : Impl) (sec first : Rat) (times : Int) (now : Rat) :
    Except String Impl :=
  if sec ≤ 0 then .ok m.ensureInit else m.newTimer sec first times now

def updateTimer (m : Impl) (id : Nat) (now : Rat) : Except String Impl :=
  match m.base.timers.lookup id with
  | none => .ok m
  | some obj =>
    if obj.times ≠ 1 then
      let times := if obj.times > 0 then obj.times - 1 else obj.times
      m.insertTimerExecTime id { obj with times := times } (now + obj.interval)
    else .ok { m with base := { m.base with timers := m.base.timers.erase id } }

def removeAll : List Nat → Heap → Except String Heap
  | [], heap => .ok heap
  | id :: ids, heap => do
    let (_, heap) ← heap.removeU less id
    removeAll ids heap

def shutdown (m : Impl) : Except String Impl :=
  if m.base.taskRunning then
    match m.heap with
    | none =>
      if m.base.timers.keys = [] then .ok { m with base := m.base.shutdown } else .error noHeap
    | some heap => do
      let heap ← removeAll m.base.timers.keys heap
      pure ⟨m.base.shutdown, some heap⟩
  else .ok { m with base := m.base.shutdown }

/-- One pass of the loop of `minheap_pop_exec` with a timer on top of the heap that is due. -/
def pop (m : Impl) (heap : Heap) (k : Nat) (l : Loop) (executed id : Nat) :
    Except String Impl := do
  let (_, heap) ← heap.popU less truth
  pure ⟨m.base.pop k l executed id, some heap⟩

/-- The time on top of the heap, if there is one, has not come. -/
def waits (heap : Heap) (now : Rat) : Bool :=
  match heap.peekU.2 with
  | some ms => decide (now < ms)
  | none => true

def finish (m : Impl) (k : Nat) (l : Loop) (id executed : Nat) (now : Rat) :
    Except String Impl := do
  let m ← m.updateTimer id now
  pure { m with base := (m.base.setLoop k { l with pc := .popping executed }).log (.ended id) }

/-- The steps of the scheduler with this heap; a step that raises an error in its use of the heap
is not the same as one that is not enabled. -/
def step (m : Impl) : Action → Option (Except String Impl)
  | .timeout sec now => some (m.newTimer sec sec 1 now)
  | .repeatImmediately sec times now => some (m.newTimer sec 0 times now)
  | .repeatDelayed sec times now => some (m.newTimer sec sec times now)
  | .repeatRandomDelayed sec first times now => some (m.repeatRandomDelayed sec first times now)
  | .cancel id => if id ≤ m.base.timerIdx then some (m.cancel id) else none
  | .wakeup id now => if id ≤ m.base.timerIdx then some (m.wakeup id now) else none
  | .shutdown => some m.shutdown
  | .pop k id ms now =>
    match m.base.loops[k]? with
    | some l =>
      match l.pc with
      | .popping executed =>
        if m.base.current l ∧ executed < maxBatchExec then
          match m.heap with
          | none => some (.error noHeap)
          | some heap =>
            if ms ≤ now ∧ heap.peekU = (some id, some ms) then some (m.pop heap k l executed id)
            else none
        else none
      | _ => none
    | none => none
  | .finish k now =>
    match m.base.loops[k]? with
    | some l =>
      match l.pc with
      | .executing id executed => some (m.finish k l id executed now)
      | _ => none
    | none => none
  | .rest k now =>
    match m.base.loops[k]? with
    | some l =>
      match l.pc with
      | .popping executed =>
        if m.base.current l = false then
          some (.ok { m with base := m.base.setLoop k { l with pc := .exited } })
        else
          match m.heap with
          | none => some (.error noHeap)
          | some heap =>
            if executed ≥ maxBatchExec ∨ waits heap now then
              some (.ok { m with base := m.base.doSleep k l })
            else none
      | _ => none
    | none => none
  | .resume k =>
    match m.base.step (.resume k) with
    | some base => some (.ok { m with base := base })
    | none => none

end Impl

end Timer
end Skyext
