import Mathlib.Data.List.Perm.Basic
import Skyext.Lib.Machine

namespace Skyext
set_option autoImplicit true

/-- Which of its two hooks a data module has. -/
structure ModuleHooks where
  onLoad : Bool
  onUnload : Bool
  deriving DecidableEq

/-- The hooks of an entity type: those of its handler and those of its data modules, by name. -/
structure HookConf where
  onLoad : Bool
  onUnload : Bool
  names : List String
  nodup : names.Nodup
  modules : String → ModuleHooks

inductive Hook
  | load
  | unload
  | moduleLoad (name : String)
  | moduleUnload (name : String)
  deriving DecidableEq

/-- What happens to an entity; `loaded` is the mark a module gets in `loaded_modules`, `persisted`
a `dbmgr.unload` that returned true, `recovered` a `dbmgr.recover` that did. -/
inductive HookEvent
  | started (h : Hook)
  | completed (h : Hook)
  | loaded (name : String)
  | initFailed
  | leaseLost
  | persisted
  | recovered
  | released
  deriving DecidableEq

/-- Where the coroutine that holds the gate of the entity is, or that none does. -/
inductive HookPc
  | constructing
  | loadOrdering
  | loadingModule (name : String) (rest : List String)
  | loadingHandler
  | live
  | unloadingHandler
  | unloadOrdering
  | unloadingModule (name : String) (rest : List String)
  | persisting
  | discarding
  | recovering
  | releasing
  | waiting
  | gone
  deriving DecidableEq

/-- One entity object from its creation: the fields that its initialization and its unloads use,
and what has happened to it, the latest first. -/
structure HookedEntity where
  modules : List String := []
  loadedModules : List String := []
  initFailed : Bool := false
  handlerUnloaded : Bool := false
  unloadedModules : List String := []
  unloadHooksRun : Bool := false
  persisted : Bool := false
  unloading : Bool := false
  invalid : Bool := false
  valid : Bool := true
  pc : HookPc := .constructing
  log : List HookEvent := []
  deriving DecidableEq

/-- The coroutine goes on with its next call. The order of a loop over the modules is chosen as
the loop begins; a construction that raises has made the first `k` modules of its order. -/
inductive HookAction
  | construct (order : List String) (k : Nat)
  | loadModules (order : List String)
  | returned
  | raised
  | unloadModules (order : List String)
  | dbUnload (ok : Bool)
  | discardClean (ok : Bool)
  | recover (recovered forget : Bool)
  | unlocked (ok : Bool)
  | loseLease
  | lockExpired
  | unload
  deriving DecidableEq

namespace HookedEntity

def push (s : HookedEntity) (e : HookEvent) : HookedEntity := { s with log := e :: s.log }

def call (s : HookedEntity) (h : Hook) (pc : HookPc) : HookedEntity :=
  { s.push (.started h) with pc := pc }

def goTo (s : HookedEntity) (pc : HookPc) : HookedEntity := { s with pc := pc }

/-- `_release_lock` up to its unlock. -/
def releaseLock (s : HookedEntity) : HookedEntity :=
  if s.valid then s.goTo .releasing else s.goTo .gone

def hooksDone (s : HookedEntity) : HookedEntity :=
  { s with unloadHooksRun := true, pc := .persisting }

/-- Whether `_call_modules_on_unload` calls the hook of a module. -/
def needUnload (conf : HookConf) (s : HookedEntity) (name : String) : Bool :=
  (conf.modules name).onUnload && decide (name ∉ s.unloadedModules) &&
    (!s.initFailed || decide (name ∈ s.loadedModules))

/-- The loop of `_call_modules_on_unload` up to its next call. -/
def nextUnload (conf : HookConf) (s : HookedEntity) : List String → HookedEntity
  | [] => s.hooksDone
  | name :: rest =>
    if s.needUnload conf name then s.call (.moduleUnload name) (.unloadingModule name rest)
    else s.nextUnload conf rest

def unloadHooks (conf : HookConf) (s : HookedEntity) : HookedEntity :=
  if !s.initFailed && conf.onUnload && !s.handlerUnloaded then s.call .unload .unloadingHandler
  else s.goTo .unloadOrdering

def unloadEntity (conf : HookConf) (s : HookedEntity) : HookedEntity :=
  let s := { s with unloading := true }
  if s.persisted then s.releaseLock
  else if s.invalid || !s.valid then { s with invalid := true, pc := .discarding }
  else if s.unloadHooksRun then s.goTo .persisting
  else s.unloadHooks conf

def failInit (conf : HookConf) (s : HookedEntity) : HookedEntity :=
  { s.push .initFailed with initFailed := true }.unloadEntity conf

def initialized (conf : HookConf) (s : HookedEntity) : HookedEntity :=
  if s.valid then s.goTo .live else s.failInit conf

def loadHandler (conf : HookConf) (s : HookedEntity) : HookedEntity :=
  if conf.onLoad then s.call .load .loadingHandler else s.initialized conf

def markLoaded (s : HookedEntity) (name : String) : HookedEntity :=
  { s.push (.loaded name) with loadedModules := name :: s.loadedModules }

/-- The loop of `_call_modules_on_load` up to its next call. -/
def nextLoad (conf : HookConf) (s : HookedEntity) : List String → HookedEntity
  | [] => s.loadHandler conf
  | name :: rest =>
    if (conf.modules name).onLoad then s.call (.moduleLoad name) (.loadingModule name rest)
    else (s.markLoaded name).nextLoad conf rest

def returned (conf : HookConf) (s : HookedEntity) : Option HookedEntity :=
  match s.pc with
  | .loadingModule name rest =>
    some (((s.push (.completed (.moduleLoad name))).markLoaded name).nextLoad conf rest)
  | .loadingHandler => some ((s.push (.completed .load)).initialized conf)
  | .unloadingHandler =>
    some ({ s.push (.completed .unload) with handlerUnloaded := true }.goTo .unloadOrdering)
  | .unloadingModule name rest =>
    some ({ s.push (.completed (.moduleUnload name)) with
      unloadedModules := name :: s.unloadedModules }.nextUnload conf rest)
  | _ => none

/-- The hook that runs raises; a failed unload is tried again. -/
def raised (conf : HookConf) (s : HookedEntity) : Option HookedEntity :=
  match s.pc with
  | .loadingModule .. => some (s.failInit conf)
  | .loadingHandler => some (s.failInit conf)
  | .unloadingHandler => some (s.goTo .waiting)
  | .unloadingModule .. => some (s.goTo .waiting)
  | _ => none

def step (conf : HookConf) (s : HookedEntity) : HookAction → Option HookedEntity
  | .construct order k =>
    if s.pc = .constructing ∧ order.Perm conf.names then
      if conf.names.length ≤ k then some { s with modules := order, pc := .loadOrdering }
      else some ({ s with modules := order.take k }.failInit conf)
    else none
  | .loadModules order =>
    if s.pc = .loadOrdering ∧ order.Perm s.modules then some (s.nextLoad conf order) else none
  | .returned => s.returned conf
  | .raised => s.raised conf
  | .unloadModules order =>
    if s.pc = .unloadOrdering ∧ order.Perm s.modules then some (s.nextUnload conf order)
    else none
  | .dbUnload ok =>
    if s.pc = .persisting then
      some (if ok then { s.push .persisted with persisted := true }.releaseLock
        else s.goTo .waiting)
    else none
  | .discardClean ok =>
    if s.pc = .discarding then some (s.goTo (if ok then .gone else .recovering)) else none
  | .recover recovered forget =>
    if s.pc = .recovering then
      some (if recovered then
        { s.push .recovered with valid := true, invalid := false, persisted := true }.releaseLock
      else s.goTo (if forget then .gone else .waiting))
    else none
  | .unlocked ok =>
    if s.pc = .releasing then
      some (if ok then (s.push .released).goTo .gone
        else { s with valid := false }.goTo .waiting)
    else none
  | .loseLease => some { s.push .leaseLost with valid := false }
  | .lockExpired => if s.valid then none else some { s with invalid := true }
  | .unload =>
    if s.pc = .live ∨ s.pc = .waiting then some (s.unloadEntity conf) else none

def system (conf : HookConf) : Machine.System HookedEntity HookAction :=
  ⟨fun s => s = {}, step conf⟩

end HookedEntity

end Skyext
