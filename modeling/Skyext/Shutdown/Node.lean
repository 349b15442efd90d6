import Skyext.Lib.Machine

namespace Skyext
set_option autoImplicit true

/-- An `entity_agent` service. Once its shutdown has answered 0 it is closed and loads nothing. -/
structure EntityAgent where
  mgr : Nat
  held : Nat := 0
  closed : Bool := false
  deriving DecidableEq

/-- Where `CMD.start` of an `entity_agentmgr` is suspended. -/
inductive StartPc
  | newservice (agents : List Nat)
  | agentStart (agents : List Nat)
  | dlq
  | register
  deriving DecidableEq

/-- Where a `CMD.shutdown` of an `entity_agentmgr` is suspended: a round has agents that have
not answered yet and a count of what the others still hold. -/
inductive ShutdownPc
  | unregister
  | round (pending : List Nat) (remaining : Nat)
  | sleep
  deriving DecidableEq

/-- A running `CMD.shutdown`; `node` says that `node_shutdown` waits for its answer. -/
structure ShutdownRun where
  pc : ShutdownPc
  node : Bool
  deriving DecidableEq

/-- An `entity_agentmgr` service; agents are known by their addresses. `received` says that it
has been told to shut down. -/
structure EntityAgentmgr where
  agentCount : Nat
  agents : List Nat := []
  ready : Bool := false
  starting : Bool := false
  startError : Bool := false
  waiters : Nat := 0
  start : Option StartPc := none
  runs : List ShutdownRun := []
  received : Bool := false
  deriving DecidableEq

structure ShutdownHook where
  addr : Nat
  cmd : String
  deriving DecidableEq

/-- Where `shutdown` of `node_shutdown` is suspended. Of the managers it looked up, `sent` have
not got its call yet and `pending` not answered it. -/
inductive NodePc
  | idle
  | stopAccepting (i : Nat)
  | unload (sent pending : List Nat) (remaining : Nat)
  | release (i : Nat)
  | discovery
  | revoke
  | logger
  | aborted
  deriving DecidableEq

/-- Everything the end of a process depends on: `node_shutdown`, the managers in the order they
registered their names, and all agents by address. `late` lists the managers announced to
discovery after the release hooks began. -/
structure ShutdownNode where
  stopHooks : List ShutdownHook
  releaseHooks : List ShutdownHook
  running : Bool
  pc : NodePc
  mgrs : List EntityAgentmgr
  agents : List EntityAgent
  late : List Nat

/-- The entities have been declared gone. -/
def NodePc.exiting : NodePc → Bool
  | .release _ => true
  | .discovery => true
  | .revoke => true
  | .logger => true
  | .aborted => true
  | _ => false

inductive HookPhase
  | stopAccepting
  | release
  deriving DecidableEq

inductive ShutdownAction
  | addHook (phase : HookPhase) (hook : ShutdownHook)
  | register (agentCount : Nat)
  | start (n : Nat)
  | started (n : Nat) (applied ok : Bool)
  | load (a : Nat)
  | unload (a : Nat)
  | shutdownMgr (n : Nat)
  | unregistered (n j : Nat) (ok : Bool)
  | answer (n j a : Nat) (ok : Bool)
  | round (n j : Nat) (late : Bool)
  | wake (n j : Nat)
  | shutdownNode
  | next (known : Bool)
  | deliver (n : Nat) (ok : Bool)

namespace EntityAgentmgr

def create (m : EntityAgentmgr) (agents : List Nat) : EntityAgentmgr :=
  if agents.length < m.agentCount then { m with start := some (.newservice agents) }
  else { m with agents := agents, start := some .dlq }

def startFailed (m : EntityAgentmgr) (partialAgents : List Nat) : EntityAgentmgr :=
  { m with
    agents := partialAgents, starting := false, startError := true, waiters := 0, start := none }

def callStart (m : EntityAgentmgr) : EntityAgentmgr :=
  if m.startError then m
  else if m.starting then { m with waiters := m.waiters + 1 }
  else if m.ready then m
  else { m with starting := true }.create []

def announced (m : EntityAgentmgr) : EntityAgentmgr :=
  { m with ready := true, starting := false, waiters := 0, start := none }

def newRound (m : EntityAgentmgr) : ShutdownPc := .round m.agents 0

def callShutdown (m : EntityAgentmgr) (node : Bool) : EntityAgentmgr :=
  { m with
    received := true
    runs := m.runs ++ [⟨if m.ready then .unregister else m.newRound, node⟩] }

def setRun (m : EntityAgentmgr) (j : Nat) (r : ShutdownRun) : EntityAgentmgr :=
  { m with runs := m.runs.set j r }

def endRun (m : EntityAgentmgr) (j : Nat) : EntityAgentmgr :=
  { m with runs := m.runs.eraseIdx j }

end EntityAgentmgr

namespace ShutdownNode

def setMgr (s : ShutdownNode) (n : Nat) (m : EntityAgentmgr) : ShutdownNode :=
  { s with mgrs := s.mgrs.set n m }

def count (s : ShutdownNode) (n c : Nat) : ShutdownNode :=
  match s.pc with
  | .unload sent pending remaining =>
    { s with pc := .unload (sent.erase n) (pending.erase n) (remaining + c) }
  | _ => s

def returned (s : ShutdownNode) (n j : Nat) (m : EntityAgentmgr) (r : ShutdownRun) (c : Nat) :
    ShutdownNode :=
  let t := s.setMgr n (m.endRun j)
  if r.node then t.count n c else t

def started (s : ShutdownNode) (n : Nat) (m : EntityAgentmgr) (applied ok : Bool) :
    Option ShutdownNode :=
  match m.start with
  | none => none
  | some (.newservice agents) =>
    if ok then
      some { s.setMgr n { m with start := some (.agentStart (agents ++ [s.agents.length])) } with
        agents := s.agents ++ [{ mgr := n }] }
    else some (s.setMgr n (m.startFailed agents))
  | some (.agentStart agents) =>
    some (s.setMgr n (if ok then m.create agents else m.startFailed agents))
  | some .dlq => some (s.setMgr n { m with start := some .register })
  | some .register =>
    let t := s.setMgr n (if ok then m.announced else { m with start := none })
    some (if (applied || ok) && s.pc.exiting then { t with late := n :: s.late } else t)

/-- `entity_managers`: without the configuration of the types none is found. -/
def entityManagers (s : ShutdownNode) (known : Bool) : List Nat :=
  if known then List.range s.mgrs.length else []

/-- `shutdown` of `node_shutdown` after the call it waits for, or the end of its wait. -/
def next (s : ShutdownNode) (known : Bool) : Option ShutdownNode :=
  match s.pc with
  | .idle => none
  | .stopAccepting i =>
    if i < s.stopHooks.length then some { s with pc := .stopAccepting (i + 1) }
    else
      let managers := s.entityManagers known
      some { s with pc := .unload managers managers 0 }
  | .unload _ pending remaining =>
    if pending ≠ [] then none
    else if remaining ≠ 0 then some { s with pc := .idle, running := false }
    else some { s with pc := .release 0 }
  | .release i =>
    if i < s.releaseHooks.length then some { s with pc := .release (i + 1) }
    else some { s with pc := .discovery }
  | .discovery => some { s with pc := .revoke }
  | .revoke => some { s with pc := .logger }
  | .logger => some { s with pc := .aborted }
  | .aborted => none

def addHook (hooks : List ShutdownHook) (hook : ShutdownHook) : List ShutdownHook :=
  if hook ∈ hooks then hooks else hooks ++ [hook]

/-- The agent answers its shutdown with the number of entities it holds. -/
def closeAgent (s : ShutdownNode) (a : Nat) : ShutdownNode :=
  { s with agents := s.agents.modify a fun x => { x with closed := x.closed || x.held == 0 } }

def step (s : ShutdownNode) (act : ShutdownAction) : Option ShutdownNode :=
  if s.pc = .aborted then none else
  match act with
  | .addHook .stopAccepting hook => some { s with stopHooks := addHook s.stopHooks hook }
  | .addHook .release hook => some { s with releaseHooks := addHook s.releaseHooks hook }
  | .register agentCount => some { s with mgrs := s.mgrs ++ [{ agentCount := agentCount }] }
  | .start n => (s.mgrs[n]?).map fun m => s.setMgr n m.callStart
  | .started n applied ok => (s.mgrs[n]?).bind fun m => s.started n m applied ok
  | .load a =>
    some { s with agents := s.agents.modify a fun x =>
      if x.closed then x else { x with held := x.held + 1 } }
  | .unload a =>
    some { s with agents := s.agents.modify a fun x => { x with held := x.held - 1 } }
  | .shutdownMgr n => (s.mgrs[n]?).map fun m => s.setMgr n (m.callShutdown false)
  | .unregistered n j ok =>
    (s.mgrs[n]?).bind fun m =>
      match m.runs[j]? with
      | some ⟨.unregister, node⟩ =>
        if ok then
          let m := { m with ready := false }
          some (s.setMgr n (m.setRun j ⟨m.newRound, node⟩))
        else some (s.returned n j m ⟨.unregister, node⟩ 1)
      | _ => none
  | .answer n j a ok =>
    (s.mgrs[n]?).bind fun m =>
      match m.runs[j]?, s.agents[a]? with
      | some ⟨.round pending remaining, node⟩, some x =>
        if a ∈ pending then
          if ok then
            some ((s.setMgr n
              (m.setRun j ⟨.round (pending.erase a) (remaining + x.held), node⟩)).closeAgent a)
          else some (s.setMgr n (m.setRun j ⟨.round (pending.erase a) (remaining + 1), node⟩))
        else none
      | _, _ => none
  | .round n j late =>
    (s.mgrs[n]?).bind fun m =>
      match m.runs[j]? with
      | some ⟨.round [] remaining, node⟩ =>
        if remaining = 0 then some (s.returned n j m ⟨.round [] 0, node⟩ 0)
        else if late then some (s.returned n j m ⟨.round [] remaining, node⟩ remaining)
        else some (s.setMgr n (m.setRun j ⟨.sleep, node⟩))
      | _ => none
  | .wake n j =>
    (s.mgrs[n]?).bind fun m =>
      match m.runs[j]? with
      | some ⟨.sleep, node⟩ => some (s.setMgr n (m.setRun j ⟨m.newRound, node⟩))
      | _ => none
  | .shutdownNode =>
    if s.running then some s else some { s with running := true, pc := .stopAccepting 0 }
  | .next known => s.next known
  | .deliver n ok =>
    match s.pc, s.mgrs[n]? with
    | .unload sent pending remaining, some m =>
      if n ∈ sent then
        if ok then
          some { s.setMgr n (m.callShutdown true) with
            pc := .unload (sent.erase n) pending remaining }
        else some (s.count n 1)
      else none
    | _, _ => none

def empty : ShutdownNode := ⟨[], [], false, .idle, [], [], []⟩

def system : Machine.System ShutdownNode ShutdownAction := ⟨(· = empty), step⟩

end ShutdownNode

end Skyext
