import Mathlib.Data.List.Basic
import Mathlib.Logic.Function.Basic
import Skyext.Lib.Machine

namespace Skyext
set_option autoImplicit true

/-- A named timer of an entity object. The position of a slot stands for its identity and for the
function it was armed with. -/
structure TimerSlot where
  obj : Nat
  name : String
  repeating : Bool
  deriving DecidableEq

/-- What waits for the gate of the entity id: the callback of a due timer, or anything else. -/
inductive TimerJob
  | fire (k : Nat)
  | other
  deriving DecidableEq

/-- The function of a slot is started: whether the slot had been retired by then, the entity it
runs on, and whether the lock of that was still held. -/
structure TimerStart where
  slot : Nat
  retired : Bool
  active : Nat
  valid : Bool
  deriving DecidableEq

/-- The timers of the entity objects of one id. `retired` marks the slots armed before a
`cancel_timer` or another timer of their name, an unload or a loss of the lease. -/
structure EntityTimers where
  entity : Option Nat
  made : Nat
  invalid : Bool
  unloading : Bool
  valid : Bool
  timers : Nat → String → Option Nat
  slots : List TimerSlot
  armed : Nat → Bool
  retired : Nat → Bool
  queue : List TimerJob
  running : Option TimerJob
  starts : List TimerStart

inductive TimerAction
  | load
  | arm (obj : Nat) (name : String) (repeating : Bool)
  | cancel (obj : Nat) (name : String)
  | due (k : Nat)
  | request
  | start
  | finish (raised : Bool)
  | beginUnload
  | loseLease
  | lockExpired
  | recover
  | forget
  deriving DecidableEq

namespace EntityTimers

def named (s : EntityTimers) (obj : Nat) (name : String) (k : Nat) : Bool :=
  s.slots[k]?.any fun slot => slot.obj = obj && slot.name = name

def ofObj (s : EntityTimers) (obj k : Nat) : Bool := s.slots[k]?.any fun slot => slot.obj = obj

def retire (s : EntityTimers) (p : Nat → Bool) : EntityTimers :=
  { s with retired := fun k => s.retired k || p k }

def setTimer (s : EntityTimers) (obj : Nat) (name : String) (slot : Option Nat) : EntityTimers :=
  { s with timers := Function.update s.timers obj (Function.update (s.timers obj) name slot) }

def cancelTimer (s : EntityTimers) (obj : Nat) (name : String) : EntityTimers :=
  match s.timers obj name with
  | none => s
  | some k => { s.setTimer obj name none with armed := Function.update s.armed k false }

def cancelAllTimers (s : EntityTimers) (obj : Nat) : EntityTimers :=
  { s with
    timers := Function.update s.timers obj fun _ => none
    armed := fun k =>
      s.armed k && !(s.slots[k]?.any fun slot =>
        slot.obj = obj && s.timers obj slot.name = some k) }

def armTimer (s : EntityTimers) (obj : Nat) (name : String) (repeating : Bool) : EntityTimers :=
  let s := s.cancelTimer obj name
  { s.setTimer obj name (some s.slots.length) with
    slots := s.slots ++ [⟨obj, name, repeating⟩]
    armed := Function.update s.armed s.slots.length true }

def get (s : EntityTimers) : Option Nat :=
  if s.invalid || s.unloading || !s.valid then none else s.entity

/-- The rest of `fire` once `with_loaded_entity` has returned `ran`, or raised. -/
def fired (s : EntityTimers) (k : Nat) (slot : TimerSlot) (ok ran : Bool) : EntityTimers :=
  if s.timers slot.obj slot.name ≠ some k then s
  else if (ok && !ran) || !slot.repeating then s.setTimer slot.obj slot.name none
  else { s with armed := Function.update s.armed k true }

def runFire (s : EntityTimers) (k : Nat) (slot : TimerSlot) : EntityTimers :=
  match s.get with
  | none => s.fired k slot true false
  | some active =>
    if active = slot.obj then
      { s with
        running := some (.fire k)
        starts := ⟨k, s.retired k, active, s.valid⟩ :: s.starts }
    else s.fired k slot true true

def fireEnded (s : EntityTimers) (k : Nat) (slot : TimerSlot) (raised : Bool) : EntityTimers :=
  if !s.valid then s.fired k slot true false
  else if raised then s.fired k slot false false
  else s.fired k slot true true

def step (s : EntityTimers) : TimerAction → Option EntityTimers
  | .load =>
    if s.entity = none then
      some { s with
        entity := some s.made, made := s.made + 1
        invalid := false, unloading := false, valid := true }
    else none
  | .arm obj name repeating =>
    if obj < s.made then some ((s.retire (s.named obj name)).armTimer obj name repeating) else none
  | .cancel obj name => some ((s.retire (s.named obj name)).cancelTimer obj name)
  | .due k =>
    match s.armed k, s.slots[k]? with
    | true, some slot =>
      let t := { s with armed := Function.update s.armed k false }
      some (if s.timers slot.obj slot.name = some k then { t with queue := s.queue ++ [.fire k] }
        else t)
    | _, _ => none
  | .request => some { s with queue := s.queue ++ [.other] }
  | .start =>
    match s.running, s.queue with
    | none, .other :: queue => some { s with queue := queue, running := some .other }
    | none, .fire k :: queue => (s.slots[k]?).map fun slot =>
        { s with queue := queue }.runFire k slot
    | _, _ => none
  | .finish raised =>
    match s.running with
    | some .other => some { s with running := none }
    | some (.fire k) =>
      (s.slots[k]?).map fun slot => { s with running := none }.fireEnded k slot raised
    | none => none
  | .beginUnload =>
    s.entity.map fun obj => { (s.retire (s.ofObj obj)).cancelAllTimers obj with unloading := true }
  | .loseLease => s.entity.map fun obj => { s.retire (s.ofObj obj) with valid := false }
  | .lockExpired =>
    if s.valid then none
    else s.entity.map fun obj => { s.cancelAllTimers obj with invalid := true }
  | .recover => if s.unloading then some { s with valid := true, invalid := false } else none
  | .forget =>
    if s.unloading then s.entity.map fun obj => { s.cancelAllTimers obj with entity := none }
    else none

def fresh : EntityTimers :=
  ⟨none, 0, false, false, false, fun _ _ => none, [], fun _ => false, fun _ => false, [], none, []⟩

def system : Machine.System EntityTimers TimerAction := ⟨fun s => s = fresh, step⟩

def waits (s : EntityTimers) (obj : Nat) (name : String) : Bool :=
  s.queue.any fun
    | .fire k => s.named obj name k
    | .other => false

/-- No timer is cancelled or armed again while a due one of its name waits for the gate. -/
def Unhurried (s : EntityTimers) : TimerAction → Prop
  | .arm obj name _ => s.waits obj name = false
  | .cancel obj name => s.waits obj name = false
  | _ => True

instance (s : EntityTimers) (a : TimerAction) : Decidable (s.Unhurried a) := by
  cases a <;> unfold Unhurried <;> infer_instance

end EntityTimers

end Skyext
