import Mathlib.Algebra.Order.Ring.Nat
import Mathlib.Data.List.Basic
import Mathlib.Logic.Function.Basic
import Skyext.Lib.Machine

namespace Skyext
set_option autoImplicit true

namespace Snowflake

def timeBit : Nat := 32
def machineBit : Nat := 8
def sequenceBit : Nat := 13

def maxSequence : Nat := 2 ^ sequenceBit - 1
def maxMachineId : Nat := 2 ^ machineBit - 1
def maxRelativeTime : Nat := 2 ^ timeBit - 1

def machineLeft : Nat := sequenceBit
def timestampLeft : Nat := sequenceBit + machineBit

/-- How many slots one round of an acquisition probes. -/
def probeLimit : Nat := 64

/-- What differs between clusters: the start date as an `os.time` value (of any year before
139000) and the slot the name of each process is hashed to. -/
structure Conf where
  beginTimestamp : Nat
  begin_lt : beginTimestamp < 2 ^ 42
  probeStart : Nat → Nat

def Conf.relative (conf : Conf) (time : Nat) : Int := (time : Int) - conf.beginTimestamp

/-- The 64-bit integer the three parts are packed into. -/
def Conf.compose (conf : Conf) (time machine sequence : Nat) : BitVec 64 :=
  BitVec.ofInt 64 (conf.relative time) <<< timestampLeft |||
    BitVec.ofNat 64 machine <<< machineLeft ||| BitVec.ofNat 64 sequence

/-- `acquire` of a slot: not running, between two rounds, or suspended in its etcd calls. -/
inductive Acquire
  | idle
  | looping (exclude : Option Nat)
  | calling (exclude : Option Nat)
  deriving DecidableEq

/-- One snowflake service with its machine slot. The lists hold the counts of the callers that
wait for the machine id and of those asleep on a sequence overflow, and `running` the count of
the one that has the processor. -/
structure Process where
  slot : Option Nat := none
  released : Bool := false
  acquiring : Acquire := .looping none
  sequence : Nat := 0
  lastTimestamp : Nat
  asking : List Nat := []
  running : Option Nat := none
  sleeping : List Nat := []
  deriving DecidableEq

def Conf.candidates (conf : Conf) (p : Nat) : List Nat :=
  (List.range (min probeLimit (maxMachineId + 1))).map fun k =>
    (conf.probeStart p + k) % (maxMachineId + 1)

/-- `acquire`: a second call while one runs, or one after the release, does nothing. -/
def Process.acquire (P : Process) (exclude : Option Nat) : Process :=
  if P.acquiring = .idle ∧ P.released = false then { P with acquiring := .looping exclude } else P

/-- `_on_lost`: the callback of a handle of slot `id` that has expired. -/
def Process.onLost (P : Process) (id : Nat) : Process :=
  if P.released ∨ P.slot ≠ some id then P else { P with slot := none }.acquire (some id)

/-- The end of `generate_one`: the sequence is set and the parts are put together. Without a
machine id, or past the range of the timestamp, it raises. -/
def Process.compose (conf : Conf) (P : Process) (time : Nat) : Process × Option (Nat × Nat) :=
  let Q := { P with lastTimestamp := time }
  if conf.relative time ≤ maxRelativeTime then
    match P.slot with
    | some id => (Q, some (id, P.sequence))
    | none => ({ Q with running := none }, none)
  else ({ Q with running := none }, none)

/-- One pass of the loop over `generate_one` after it has been served: the next one is due. -/
def Process.next (P : Process) : Process :=
  { P with running := if P.running.getD 0 ≤ 1 then none else P.running.map (· - 1) }

/-- `generate_one` up to the point where it returns, raises or falls asleep. -/
def Process.generateOne (conf : Conf) (P : Process) (time : Nat) :
    Process × Option (Nat × Nat) :=
  if time < P.lastTimestamp then ({ P with running := none }, none)
  else if time = P.lastTimestamp then
    if P.sequence + 1 > maxSequence then
      ({ P with
        sequence := P.sequence + 1, running := none,
        sleeping := P.sleeping ++ P.running.toList }, none)
    else { P with sequence := P.sequence + 1 }.compose conf time
  else { P with sequence := 0 }.compose conf time

/-- An id with where and when it was issued. -/
structure Issue where
  id : BitVec 64
  time : Nat
  machine : Nat
  sequence : Nat
  proc : Nat
  deriving DecidableEq

/-- The processes of the cluster, the clock they share, who holds each slot's lock, and every id
issued so far. -/
structure Cluster where
  clock : Nat
  started : Nat
  procs : Nat → Option Process
  holder : Nat → Option Nat
  issued : List Issue

namespace Cluster

/-- `valid()`: the slot's lock is still the process's own. -/
def held (s : Cluster) (p : Nat) (P : Process) : Bool :=
  P.slot.any fun id => s.holder id = some p

def setProc (s : Cluster) (p : Nat) (P : Process) : Cluster :=
  { s with procs := Function.update s.procs p (some P) }

def issue (conf : Conf) (s : Cluster) (p : Nat) (r : Process × Option (Nat × Nat)) : Cluster :=
  match r with
  | (P, none) => s.setProc p P
  | (P, some (machine, sequence)) =>
    { s.setProc p P.next with
      issued := ⟨conf.compose s.clock machine sequence, s.clock, machine, sequence, p⟩ ::
        s.issued }

end Cluster

/-- The steps of a run: time passes; a process starts, exits, or its slot's lock is lost; a
process goes through the acquisition and release of a slot; a caller asks for ids, is let
through, gets the next one or wakes up. -/
inductive Action
  | elapse (seconds : Nat)
  | start
  | exit (p : Nat)
  | expire (id : Nat)
  | onLost (p id : Nat)
  | tryClaim (p : Nat)
  | claimed (p id : Nat)
  | claimFailed (p : Nat)
  | release (p : Nat)
  | newids (p count : Nat)
  | waitMachineId (p k : Nat)
  | waitTimeout (p k : Nat)
  | generate (p : Nat)
  | wake (p k : Nat)

namespace Cluster

/-- `newids` clamps its count. -/
def clamp (count : Nat) : Nat := max count 1

def maxCount : Nat := 10000

def step (conf : Conf) (s : Cluster) : Action → Option Cluster
  | .elapse seconds => some { s with clock := s.clock + seconds }
  | .start =>
    some { s.setProc s.started { lastTimestamp := s.clock } with started := s.started + 1 }
  | .exit p => some { s with procs := Function.update s.procs p none }
  | .expire id => some { s with holder := Function.update s.holder id none }
  | .onLost p id => do
    let P ← s.procs p
    if s.holder id = some p then none else some (s.setProc p (P.onLost id))
  | .tryClaim p => do
    let P ← s.procs p
    match P.acquiring with
    | .looping exclude =>
      if P.slot.isNone ∧ P.released = false then
        some (s.setProc p { P with acquiring := .calling exclude })
      else some (s.setProc p { P with acquiring := .idle })
    | _ => none
  | .claimed p id => do
    let P ← s.procs p
    match P.acquiring with
    | .calling exclude =>
      if id ∈ conf.candidates p ∧ some id ≠ exclude ∧ s.holder id = none then
        some { s.setProc p { P with acquiring := .idle, slot := some id } with
          holder := Function.update s.holder id (some p) }
      else none
    | _ => none
  | .claimFailed p => do
    let P ← s.procs p
    match P.acquiring with
    | .calling exclude => some (s.setProc p { P with acquiring := .looping exclude })
    | _ => none
  | .release p => do
    let P ← s.procs p
    some (s.setProc p { P with released := true, slot := none })
  | .newids p count => do
    let P ← s.procs p
    some (s.setProc p { P with asking := P.asking ++ [clamp count] })
  | .waitMachineId p k => do
    let P ← s.procs p
    let count ← P.asking[k]?
    if P.running.isSome ∨ s.held p P = false then none
    else if count > maxCount then some (s.setProc p { P with asking := P.asking.eraseIdx k })
    else some (s.setProc p { P with asking := P.asking.eraseIdx k, running := some count })
  | .waitTimeout p k => do
    let P ← s.procs p
    some (s.setProc p { P with asking := P.asking.eraseIdx k })
  | .generate p => do
    let P ← s.procs p
    if P.running.isSome then some (s.issue conf p (P.generateOne conf s.clock)) else none
  | .wake p k => do
    let P ← s.procs p
    let count ← P.sleeping[k]?
    if P.running.isSome then none
    else if s.clock ≤ P.lastTimestamp then some s
    else
      let Q := { P with
        sleeping := P.sleeping.eraseIdx k, running := some count, sequence := 0 }
      some (s.issue conf p (Q.compose conf s.clock))

/-- A cluster none of whose processes has started, at any time of the clock. -/
def Initial (s : Cluster) : Prop :=
  s.started = 0 ∧ (∀ p, s.procs p = none) ∧ (∀ id, s.holder id = none) ∧ s.issued = []

end Cluster

def system (conf : Conf) : Machine.System Cluster Action := ⟨Cluster.Initial, Cluster.step conf⟩

end Snowflake

end Skyext
