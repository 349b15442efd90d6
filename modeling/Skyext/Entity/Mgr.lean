import Skyext.Lib.Machine
import Skyext.Lock.DistributedLock

namespace Skyext
set_option autoImplicit true

open LockModule (TryLockCall LockResult)

/-- Why `ensure_loaded` and the calls built on it refuse. -/
inductive Refusal
  | leaseExpired
  | unloading
  | shuttingDown
  | lock (reason : String)
  | load (reason : String)
  | leaseExpiredDuringLoad
  | initialization (reason : String)
  | leaseExpiredDuringHandler
  | notLoaded
  deriving DecidableEq

def Refusal.text : Refusal → String
  | .leaseExpired => "entity lease expired"
  | .unloading => "entity unloading"
  | .shuttingDown => "node shutting down"
  | .lock reason => reason
  | .load reason => reason
  | .leaseExpiredDuringLoad => "lease expired during load"
  | .initialization reason => reason
  | .leaseExpiredDuringHandler => "entity lease expired during handler"
  | .notLoaded => "entity not loaded or lease expired"

/-- An entity in memory; the timers are armed or not. -/
structure MgrEntity where
  handle : Nat
  invalid : Bool := false
  unloading : Bool := false
  persisted : Bool := false
  hooksRun : Bool := false
  initFailed : Bool := false
  session : Bool := false
  unloadTimer : Bool := false
  deliveryRetry : Bool := false
  unloadRetry : Bool := false
  unloadRetries : Nat := 0
  recoveryAttempts : Nat := 0
  deriving DecidableEq

/-- What runs under the gate of the entity. -/
inductive GateJob
  | ensureLoaded
  | withEntity
  | withLoaded
  | unload
  deriving DecidableEq

/-- A forked coroutine that has not started yet. -/
inductive Forked
  | gate (job : GateJob)
  | kick (reason : String)
  deriving DecidableEq

inductive RecoverResult
  | recovered
  | superseded
  | cacheReplaced
  | failed (reason : String)
  deriving DecidableEq

/-- Where the coroutine that holds the gate is suspended. An unload that ends a failed
initialization carries the call it refuses. -/
inductive GatePc
  | locking (job : GateJob) (c : TryLockCall)
  | loading (job : GateJob) (h : Nat)
  | discardingLoaded (job : GateJob) (h : Nat)
  | unlockingLoad (job : GateJob) (h fence : Nat) (reason : Refusal)
  | initializing (job : GateJob) (h : Nat)
  | handling (job : GateJob)
  | unloadHooks (init : Option (GateJob × Refusal))
  | saving (init : Option (GateJob × Refusal))
  | discardingClean (init : Option (GateJob × Refusal))
  | quarantining (init : Option (GateJob × Refusal))
  | relocking (init : Option (GateJob × Refusal)) (c : TryLockCall)
  | recovering (init : Option (GateJob × Refusal)) (h : Nat)
  | unlockingRecovery (init : Option (GateJob × Refusal)) (h fence : Nat) (r : RecoverResult)
  | givingUp (init : Option (GateJob × Refusal))
  | releasing (init : Option (GateJob × Refusal)) (fence : Nat)
  deriving DecidableEq

/-- The cache entry of dbmgr: the handle it was loaded under and whether the save wheel has it. -/
structure MgrCache where
  handle : Nat
  onWheel : Bool
  deriving DecidableEq

inductive EvictionCause
  | released
  | leaseLost
  | clean
  | superseded
  | cacheReplaced
  | gaveUp
  deriving DecidableEq

/-- An entity leaving memory: why, how many changes its document had seen, how many of them Mongo
had, and the handle and cache entry at that time. -/
structure Eviction where
  cause : EvictionCause
  changes : Nat
  stored : Nat
  handle : Nat
  cache : Option MgrCache
  deriving DecidableEq

/-- An unlock transaction sent for a fence while changes made under `docFence` were unsaved. -/
structure UnlockSent where
  fence : Nat
  docFence : Nat
  unsaved : Bool
  deriving DecidableEq

/-- What one `entitymgr` has of one entity id. Beside the table entry, the gate and the lock
module, a cached document is known by the number of `changes` made to it, of those `saved` with an
acknowledgement, of those `stored` in Mongo, and the fence it was loaded under. -/
structure Entitymgr where
  lock : LockModule
  entity : Option MgrEntity
  queue : List GateJob
  running : Option GatePc
  forked : List Forked
  closing : Bool
  down : Bool
  resident : Bool
  cache : Option MgrCache
  changes : Nat
  saved : Nat
  stored : Nat
  docFence : Nat
  answers : List (GateJob × Option Refusal)
  evicted : List Eviction
  unlocks : List UnlockSent

def dirtyRecoveryMaxAttempts : Nat := 8

namespace Entitymgr

def setEntity (s : Entitymgr) (f : MgrEntity → MgrEntity) : Entitymgr :=
  { s with entity := s.entity.map f }

def fork (s : Entitymgr) (j : Forked) : Entitymgr := { s with forked := s.forked ++ [j] }

def dirty (s : Entitymgr) : Bool := decide (s.saved < s.changes)

def kickClient (s : Entitymgr) (reason : String) : Entitymgr :=
  if s.entity.any MgrEntity.session then s.fork (.kick reason) else s

def scheduleUnloadRetry (s : Entitymgr) : Entitymgr :=
  s.setEntity fun e =>
    if e.unloadRetry then e
    else { e with unloadRetry := true, unloadRetries := e.unloadRetries + 1 }

def MgrEntity.cancelTimers (e : MgrEntity) : MgrEntity :=
  { e with unloadTimer := false, deliveryRetry := false, unloadRetry := false }

/-- `_on_lock_expired`, the callback of every handle of this id. -/
def onLockExpired (s : Entitymgr) (h : Nat) : Entitymgr :=
  if s.entity.any fun e => e.handle = h ∧ e.invalid = false then
    let s := s.setEntity fun e => { MgrEntity.cancelTimers e with invalid := true }
    (s.kickClient "lease lost").fork (.gate .unload)
  else s

/-- The lock module moves on; a handle that falls out of its table is reported as expired. -/
def lockMoved (s : Entitymgr) (m : LockModule) : Entitymgr :=
  let t := { s with lock := m }
  match s.lock.gLocks with
  | some h => if m.gLocks = none then t.onLockExpired h else t
  | none => t

/-- The state after `is_valid`, and its answer. -/
def isValid (s : Entitymgr) (h : Nat) : Entitymgr × Bool :=
  (s.lockMoved (s.lock.checkHandle h), s.lock.isValid h)

/-- Whether an entity is not marked invalid and its lock still held, and the state after that. -/
def usable (s : Entitymgr) (e : MgrEntity) : Entitymgr × Bool :=
  if e.invalid then (s, false) else s.isValid e.handle

/-- The call that holds the gate returns. -/
def answer (s : Entitymgr) (job : GateJob) (r : Option Refusal) : Entitymgr :=
  { s with running := none, answers := (job, r) :: s.answers }

/-- An unload returns, or the failed initialization that it ends. -/
def finish (s : Entitymgr) (init : Option (GateJob × Refusal)) : Entitymgr :=
  match init with
  | none => { s with running := none }
  | some (job, r) => s.answer job (some r)

def suspend (s : Entitymgr) (pc : GatePc) : Entitymgr := { s with running := some pc }

def forget (s : Entitymgr) (cause : EvictionCause) : Entitymgr :=
  match s.entity with
  | some e =>
    { s with
      entity := none
      evicted := ⟨cause, s.changes, s.stored, e.handle, s.cache⟩ :: s.evicted }
  | none => s

def abortUnload (s : Entitymgr) (init : Option (GateJob × Refusal)) (reason : String) :
    Entitymgr :=
  ((s.kickClient reason).scheduleUnloadRetry).finish init

/-- `unlock` sends its transaction, or refuses at once. -/
def unlockSend (s : Entitymgr) (fence : Nat) (pc : GatePc) : Entitymgr :=
  { s with running := some pc, unlocks := ⟨fence, s.docFence, s.dirty⟩ :: s.unlocks }

def unlockReply (s : Entitymgr) (h : Nat) (ret : Option TxnReply) : Entitymgr × Bool :=
  let (m, ok) := s.lock.unlockReply h ret
  (if ok then { s with lock := m } else s.lockMoved m, ok)

def releaseLock (s : Entitymgr) (init : Option (GateJob × Refusal)) : Entitymgr :=
  match s.entity with
  | none => s.finish init
  | some e =>
    let (s, ok) := (s.kickClient "entity unloaded").isValid e.handle
    if !ok then (s.forget .leaseLost).finish init
    else
      match s.lock.unlockStart e.handle with
      | (m, .inl _) => ((s.lockMoved m).scheduleUnloadRetry).finish init
      | (m, .inr fence) => (s.lockMoved m).unlockSend fence (.releasing init fence)

def released (s : Entitymgr) (init : Option (GateJob × Refusal)) (ret : Option TxnReply) :
    Entitymgr :=
  match s.entity with
  | none => s.finish init
  | some e =>
    let (s, ok) := s.unlockReply e.handle ret
    if ok then (s.forget .released).finish init else s.scheduleUnloadRetry.finish init

/-- The lock could not be had in `_recover_dirty`. -/
def recoveryRefused (s : Entitymgr) (init : Option (GateJob × Refusal)) : Entitymgr :=
  match s.entity with
  | none => s.finish init
  | some e =>
    if dirtyRecoveryMaxAttempts ≤ e.recoveryAttempts then s.suspend (.givingUp init)
    else s.abortUnload init "recovery lock unavailable"

/-- `_recover_dirty` once the entry is off the save wheel. -/
def recoverDirty (s : Entitymgr) (init : Option (GateJob × Refusal)) (value : String) :
    Entitymgr :=
  let s := s.setEntity fun e => { e with recoveryAttempts := e.recoveryAttempts + 1 }
  match s.lock.tryLockStart value with
  | (m, .inl (.locked h)) => (s.lockMoved m).suspend (.recovering init h)
  | (m, .inl (.refused ..)) => (s.lockMoved m).recoveryRefused init
  | (m, .inr c) => (s.lockMoved m).suspend (.relocking init c)

/-- `try_lock` of `_recover_dirty` after its transaction. -/
def relocked (s : Entitymgr) (init : Option (GateJob × Refusal)) (c : TryLockCall)
    (ret : Option TxnReply) : Entitymgr :=
  match s.lock.tryLockReply c ret with
  | (m, .locked h) => (s.lockMoved m).suspend (.recovering init h)
  | (m, .refused ..) => (s.lockMoved m).recoveryRefused init

/-- `_recover_dirty` after a recovery that did not succeed, the new lock given back. -/
def recoveryFailed (s : Entitymgr) (init : Option (GateJob × Refusal)) : RecoverResult → Entitymgr
  | .superseded => (s.forget .superseded).finish init
  | .cacheReplaced => (s.forget .cacheReplaced).finish init
  | _ =>
    match s.entity with
    | none => s.finish init
    | some e =>
      if dirtyRecoveryMaxAttempts ≤ e.recoveryAttempts then s.suspend (.givingUp init)
      else s.abortUnload init "recovery failed"

def recovered (s : Entitymgr) (init : Option (GateJob × Refusal)) (h : Nat) (r : RecoverResult) :
    Entitymgr :=
  match r with
  | .recovered =>
    (s.setEntity fun e => { e with handle := h, invalid := false, persisted := true }).releaseLock
      init
  | r =>
    match s.lock.unlockStart h with
    | (m, .inl _) => (s.lockMoved m).recoveryFailed init r
    | (m, .inr fence) => (s.lockMoved m).unlockSend fence (.unlockingRecovery init h fence r)

def unloadEntity (s : Entitymgr) (init : Option (GateJob × Refusal)) : Entitymgr :=
  match s.entity with
  | none => s.finish init
  | some e =>
    let s := s.setEntity fun e => { MgrEntity.cancelTimers e with unloading := true }
    if e.persisted then s.releaseLock init
    else
      let (t, ok) := s.usable e
      if !ok then
        let t := t.setEntity fun e => { e with invalid := true }
        (t.kickClient "lease lost").suspend (.discardingClean init)
      else if e.hooksRun then t.suspend (.saving init)
      else t.suspend (.unloadHooks init)

def loadFailed (s : Entitymgr) (job : GateJob) (h : Nat) (r : Refusal) : Entitymgr :=
  let (s, ok) := s.isValid h
  if !ok then s.answer job (some r)
  else
    match s.lock.unlockStart h with
    | (m, .inl _) => (s.lockMoved m).answer job (some r)
    | (m, .inr fence) => (s.lockMoved m).unlockSend fence (.unlockingLoad job h fence r)

/-- `_start_unload_timer`, unless the entity is resident. -/
def startUnloadTimer (s : Entitymgr) : Entitymgr :=
  if s.resident then s else s.setEntity fun e => { e with unloadTimer := true }

/-- What a call does with the loaded entity: return, or run its handler. -/
def loaded (s : Entitymgr) (job : GateJob) : Entitymgr :=
  match job with
  | .ensureLoaded => s.answer job none
  | _ => s.suspend (.handling job)

/-- The entity is put into the table and initialized. -/
def install (s : Entitymgr) (job : GateJob) (h : Nat) : Entitymgr :=
  { s with entity := some { handle := h } }.suspend (.initializing job h)

/-- `_ensure_loaded` up to its first call. -/
def ensureLoaded (s : Entitymgr) (job : GateJob) (value : String) : Entitymgr :=
  match s.entity with
  | some e =>
    let (t, ok) := s.usable e
    if !ok then (t.onLockExpired e.handle).answer job (some .leaseExpired)
    else if e.unloading then t.answer job (some .unloading)
    else if e.session then t.loaded job
    else t.startUnloadTimer.loaded job
  | none =>
    if s.closing then s.answer job (some .shuttingDown)
    else
      match s.lock.tryLockStart value with
      | (m, .inl (.locked h)) => (s.lockMoved m).suspend (.loading job h)
      | (m, .inl (.refused r _)) => (s.lockMoved m).answer job (some (.lock r))
      | (m, .inr c) => (s.lockMoved m).suspend (.locking job c)

def locked (s : Entitymgr) (job : GateJob) (c : TryLockCall) (ret : Option TxnReply) :
    Entitymgr :=
  match s.lock.tryLockReply c ret with
  | (m, .locked h) => (s.lockMoved m).suspend (.loading job h)
  | (m, .refused r _) => (s.lockMoved m).answer job (some (.lock r))

def dbLoaded (s : Entitymgr) (job : GateJob) (h : Nat) (err : Option String) : Entitymgr :=
  match err with
  | some r => s.loadFailed job h (.load r)
  | none =>
    let (t, ok) := s.isValid h
    if ok then t.install job h else t.suspend (.discardingLoaded job h)

def initialized (s : Entitymgr) (job : GateJob) (h : Nat) (err : Option String) : Entitymgr :=
  let (t, ok) := s.isValid h
  match err with
  | some r =>
    (s.setEntity fun e => { e with initFailed := true }).unloadEntity
      (some (job, .initialization r))
  | none =>
    if ok then (t.startUnloadTimer.fork (.gate .withEntity)).loaded job
    else
      (t.setEntity fun e => { e with initFailed := true }).unloadEntity
        (some (job, .initialization "lease expired during initialization"))

def handled (s : Entitymgr) (job : GateJob) : Entitymgr :=
  match s.entity with
  | none => s.answer job none
  | some e =>
    let (t, ok) := if job = .withEntity then s.usable e else s.isValid e.handle
    if ok then t.answer job none
    else (t.onLockExpired e.handle).answer job (some .leaseExpiredDuringHandler)

/-- A job gets the gate. -/
def start (s : Entitymgr) (value : String) : GateJob → Entitymgr
  | .unload => s.unloadEntity none
  | .withLoaded =>
    match s.entity with
    | some e =>
      if e.invalid || e.unloading then s.answer .withLoaded (some .notLoaded)
      else
        let (t, ok) := s.isValid e.handle
        if ok then t.suspend (.handling .withLoaded)
        else t.answer .withLoaded (some .notLoaded)
    | none => s.answer .withLoaded (some .notLoaded)
  | job => s.ensureLoaded job value

def fenceOf (s : Entitymgr) (h : Nat) : Nat := (s.lock.handles[h]?.map LockHandle.fence).getD 0

/-- `dbmgr.load` succeeds: the entry of the handle is returned as it is, a clean one of another
handle gives way to the document that has just been claimed. -/
def cacheLoad (s : Entitymgr) (h : Nat) : Option Entitymgr :=
  let fresh := { s with
    cache := some ⟨h, true⟩, changes := 0, saved := 0, stored := 0, docFence := s.fenceOf h }
  match s.cache with
  | none => some fresh
  | some c => if c.handle = h then some s else if s.dirty then none else some fresh

/-- A save under a handle ends: its snapshot had so many changes, it was applied or not, and it
is acknowledged only under a valid lease. -/
def saveDoc (s : Entitymgr) (h snapshot : Nat) (applied ok : Bool) : Option Entitymgr :=
  if s.saved ≤ snapshot ∧ snapshot ≤ s.changes ∧ (ok → applied ∧ s.lock.isValid h) then
    some { s with
      stored := if applied then max s.stored snapshot else s.stored
      saved := if ok then max s.saved snapshot else s.saved }
  else none

def dropCache (s : Entitymgr) : Entitymgr := { s with cache := none }

/-- The cache entry belongs to the handle. -/
def caches (s : Entitymgr) (h : Nat) : Bool := s.cache.any fun c => c.handle = h

def discardClean (s : Entitymgr) (h : Nat) : Entitymgr × Bool :=
  if s.caches h && !s.dirty then (s.dropCache, true) else (s, false)

def quarantine (s : Entitymgr) (h : Nat) : Entitymgr :=
  if s.caches h then { s with cache := s.cache.map fun c => { c with onWheel := false } } else s

def discard (s : Entitymgr) (h : Nat) : Entitymgr := if s.caches h then s.dropCache else s

/-- `dbmgr.unload` ends, with the outcome of its save. -/
def cacheUnload (s : Entitymgr) (snapshot : Nat) (applied ok : Bool) : Option (Entitymgr × Bool) :=
  match s.cache with
  | none => some (s, false)
  | some c =>
    (s.saveDoc c.handle snapshot applied ok).map fun t =>
      if ok && !t.dirty then (t.dropCache, true) else (t, false)

/-- `dbmgr.recover` ends; `applied` says that its update has taken effect. -/
def cacheRecover (s : Entitymgr) (old new : Nat) (r : RecoverResult) (applied : Bool) :
    Option (Entitymgr × RecoverResult) :=
  if !s.caches old then some (s, .cacheReplaced)
  else if !s.dirty then some (s.dropCache, .recovered)
  else
    match r with
    | .recovered =>
      if s.lock.isValid new then
        some ({ s with saved := s.changes, stored := s.changes }.dropCache, .recovered)
      else none
    | .superseded => some (s.dropCache, .superseded)
    | .failed reason =>
      some ({ s with stored := if applied then s.changes else s.stored }, .failed reason)
    | .cacheReplaced => none

end Entitymgr

inductive MgrAction
  | call (job : GateJob)
  | start (value : String)
  | runForked (i : Nat)
  | retryTimer
  | unloadTimer
  | deliveryTimer
  | scheduleDelivery
  | bind
  | change
  | save (snapshot : Nat) (applied ok : Bool)
  | reply (ret : Option TxnReply)
  | dbLoad (err : Option String)
  | discarded (value : String)
  | hooks (err : Option String)
  | handler
  | dbUnload (snapshot : Nat) (applied ok : Bool)
  | dbRecover (r : RecoverResult) (applied : Bool)
  | deadline
  | leaseAlive (leaseid : LeaseId) (epoch : Nat) (late : Bool)
  | leaseLost (epoch : Nat)
  | leaseCheck
  | shutdown
  | shutdownDone

namespace Entitymgr

/-- An entity timer fires; its flag falls and a job asks for the gate. -/
def fire (s : Entitymgr) (f : MgrEntity → MgrEntity) (job : GateJob) : Entitymgr :=
  { s.setEntity f with queue := s.queue ++ [job] }

def step (s : Entitymgr) : MgrAction → Option Entitymgr
  | .call job => some { s with queue := s.queue ++ [job] }
  | .start value =>
    match s.running, s.queue with
    | none, job :: queue => some ({ s with queue := queue }.start value job)
    | _, _ => none
  | .runForked i =>
    let t := { s with forked := s.forked.eraseIdx i }
    match s.forked[i]? with
    | some (.gate job) => some { t with queue := s.queue ++ [job] }
    | some (.kick _) => some (t.setEntity fun e => { e with session := false })
    | none => none
  | .retryTimer =>
    if s.entity.any MgrEntity.unloadRetry then
      some (s.fire (fun e => { e with unloadRetry := false }) .unload)
    else none
  | .unloadTimer =>
    if s.entity.any MgrEntity.unloadTimer then
      some (s.fire (fun e => { e with unloadTimer := false }) .unload)
    else none
  | .deliveryTimer =>
    if s.entity.any MgrEntity.deliveryRetry then
      some (s.fire (fun e => { e with deliveryRetry := false }) .withEntity)
    else none
  | .scheduleDelivery =>
    if s.entity.any fun e =>
      !e.deliveryRetry && !e.invalid && !e.unloading && s.lock.isValid e.handle
    then some (s.setEntity fun e => { e with deliveryRetry := true })
    else none
  | .bind =>
    match s.running with
    | some (.handling _) => some (s.setEntity fun e => { e with session := true })
    | _ => none
  | .change =>
    match s.running, s.cache with
    | some (.handling _), some _ => some { s with changes := s.changes + 1 }
    | some (.initializing ..), some _ => some { s with changes := s.changes + 1 }
    | some (.unloadHooks _), some _ => some { s with changes := s.changes + 1 }
    | _, _ => none
  | .save snapshot applied ok =>
    match s.cache with
    | some c => s.saveDoc c.handle snapshot applied ok
    | none => none
  | .reply ret =>
    match s.running with
    | some (.locking job c) => some (s.locked job c ret)
    | some (.unlockingLoad job h _ r) => some ((s.unlockReply h ret).1.answer job (some r))
    | some (.relocking init c) => some (s.relocked init c ret)
    | some (.unlockingRecovery init h _ r) =>
      some ((s.unlockReply h ret).1.recoveryFailed init r)
    | some (.releasing init _) => some (s.released init ret)
    | _ => none
  | .dbLoad err =>
    match s.running with
    | some (.loading job h) =>
      match err with
      | none => (s.cacheLoad h).map fun t => t.dbLoaded job h none
      | some _ => some (s.dbLoaded job h err)
    | _ => none
  | .discarded value =>
    match s.running, s.entity with
    | some (.discardingLoaded job h), _ =>
      some ((s.discardClean h).1.loadFailed job h .leaseExpiredDuringLoad)
    | some (.discardingClean init), some e =>
      let (t, ok) := s.discardClean e.handle
      if ok then some ((t.forget .clean).finish init)
      else some (t.suspend (.quarantining init))
    | some (.quarantining init), some e =>
      some ((s.quarantine e.handle).recoverDirty init value)
    | some (.givingUp init), some e =>
      some (((s.discard e.handle).forget .gaveUp).finish init)
    | _, _ => none
  | .hooks err =>
    match s.running with
    | some (.initializing job h) => some (s.initialized job h err)
    | some (.unloadHooks init) =>
      match err with
      | some _ => some (s.abortUnload init "unload hook failed")
      | none => some ((s.setEntity fun e => { e with hooksRun := true }).suspend (.saving init))
    | _ => none
  | .handler =>
    match s.running with
    | some (.handling job) => some (s.handled job)
    | _ => none
  | .dbUnload snapshot applied ok =>
    match s.running with
    | some (.saving init) =>
      (s.cacheUnload snapshot applied ok).map fun r =>
        if r.2 then (r.1.setEntity fun e => { e with persisted := true }).releaseLock init
        else r.1.abortUnload init "persistence failed"
    | _ => none
  | .dbRecover r applied =>
    match s.running, s.entity with
    | some (.recovering init h), some e =>
      (s.cacheRecover e.handle h r applied).map fun p => p.1.recovered init h p.2
    | _, _ => none
  | .deadline => some { s with lock :=
      { s.lock with lease := { s.lock.lease with elapsed := true } } }
  | .leaseAlive leaseid epoch late => some (s.lockMoved (s.lock.onLeaseAlive leaseid epoch late))
  | .leaseLost epoch => some (s.lockMoved (s.lock.onLeaseLost epoch))
  | .leaseCheck => some (s.lockMoved s.lock.checkLease)
  | .shutdown =>
    let t := { s with closing := true }
    some (if s.entity.isSome then t.fork (.gate .unload) else t)
  | .shutdownDone =>
    if s.closing ∧ s.entity = none then some { s with lock := s.lock.shutdown, down := true }
    else none

def fresh (resident : Bool) : Entitymgr :=
  ⟨.fresh, none, [], none, [], false, false, resident, none, 0, 0, 0, 0, [], [], []⟩

def system : Machine.System Entitymgr MgrAction := ⟨fun s => ∃ resident, s = fresh resident, step⟩

end Entitymgr

end Skyext
