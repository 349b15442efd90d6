import Skyext.Snowflake.Service

namespace Skyext
set_option autoImplicit true

namespace Snowflake

/-- How a call of the service fails; `nilMachineId` is what Lua raises for a shift of `nil`. -/
inductive IdError
  | notHeld
  | tooLarge
  | clockBackwards
  | outOfRange
  | nilMachineId
  deriving DecidableEq

/-- A call past its check of the machine id: how many ids it still needs, those it has (the last
one first), and whether a slot was lost since the check and none regained after that. -/
structure IdCall where
  left : Nat
  ids : List (BitVec 64)
  lost : Bool
  deriving DecidableEq

/-- An id is put together: its machine number, and the slot with its `valid()` at that instant. -/
structure Emission where
  machine : Nat
  slot : Option Nat
  valid : Bool
  deriving DecidableEq

/-- The id was put together with its machine number in hand. -/
def Emission.InHand (fixed : Option Nat) (e : Emission) : Prop :=
  fixed = some e.machine ∨ e.slot = some e.machine ∧ e.valid = true

/-- One snowflake service: its machine slot, its sequence, and the calls that wait for the machine
id, have the processor, or are asleep on a sequence overflow. -/
structure IdService where
  clock : Nat
  slot : Option Nat
  valid : Bool
  released : Bool
  acquiring : Acquire
  sequence : Nat
  lastTimestamp : Nat
  asking : List Nat
  running : Option IdCall
  sleeping : List IdCall
  emitted : List Emission
  answers : List (Except IdError (List (BitVec 64)))

inductive IdAction
  | elapse (seconds : Nat)
  | lapse
  | renew
  | onLost (id : Nat)
  | tryClaim
  | claimed (id : Nat)
  | claimFailed
  | release
  | newids (count : Nat)
  | serve (k : Nat)
  | waitTimeout (k : Nat)
  | generate
  | wake (k : Nat)
  deriving DecidableEq

namespace IdService

variable (conf : Conf) (fixed : Option Nat)

def held (s : IdService) : Bool := fixed.isSome || (s.slot.isSome && s.valid)

/-- The calls past their check are marked when the slot is lost or regained. -/
def mark (s : IdService) (lost : Bool) : IdService :=
  { s with
    running := s.running.map fun call => { call with lost := lost }
    sleeping := s.sleeping.map fun call => { call with lost := lost } }

def acquire (s : IdService) (exclude : Option Nat) : IdService :=
  if s.acquiring = .idle ∧ s.released = false then { s with acquiring := .looping exclude } else s

def onLost (s : IdService) (id : Nat) : IdService :=
  if s.released ∨ s.slot ≠ some id then s
  else ({ s with slot := none, valid := false }.mark true).acquire (some id)

def raise (s : IdService) (e : IdError) : IdService :=
  { s with running := none, answers := .error e :: s.answers }

/-- An id goes into the list of the running call, which returns once it is complete. -/
def emit (s : IdService) (call : IdCall) (machine : Nat) : IdService :=
  let ids := conf.compose s.clock machine s.sequence :: call.ids
  let s := { s with emitted := ⟨machine, s.slot, s.valid⟩ :: s.emitted }
  if call.left ≤ 1 then { s with running := none, answers := .ok ids.reverse :: s.answers }
  else { s with running := some { call with left := call.left - 1, ids := ids } }

def compose (s : IdService) (call : IdCall) : IdService :=
  let s := { s with lastTimestamp := s.clock }
  if conf.relative s.clock ≤ maxRelativeTime then
    match fixed <|> s.slot with
    | some machine => s.emit conf call machine
    | none => s.raise .nilMachineId
  else s.raise .outOfRange

def generateOne (s : IdService) (call : IdCall) : IdService :=
  if s.clock < s.lastTimestamp then s.raise .clockBackwards
  else if s.clock = s.lastTimestamp then
    if s.sequence + 1 > maxSequence then
      { s with
        sequence := s.sequence + 1, running := none, sleeping := s.sleeping ++ [call] }
    else { s with sequence := s.sequence + 1 }.compose conf fixed call
  else { s with sequence := 0 }.compose conf fixed call

def begin (s : IdService) (count : Nat) : IdService :=
  if Cluster.clamp count > Cluster.maxCount then s.raise .tooLarge
  else { s with running := some ⟨Cluster.clamp count, [], false⟩ }

/-- While a call has the processor, time passes and the deadline of the lease with it, and nothing
else runs. -/
def step (p : Nat) (s : IdService) : IdAction → Option IdService
  | .elapse seconds => some { s with clock := s.clock + seconds }
  | .lapse => if s.slot.isSome then some ({ s with valid := false }.mark true) else none
  | .generate => s.running.map fun call => s.generateOne conf fixed call
  | a =>
    if s.running.isSome then none else
    match a with
    | .renew => if s.slot.isSome then some ({ s with valid := true }.mark false) else none
    | .onLost id => if s.slot = some id ∧ s.valid then none else some (s.onLost id)
    | .tryClaim =>
      match s.acquiring with
      | .looping exclude =>
        if s.slot.isNone ∧ s.released = false then some { s with acquiring := .calling exclude }
        else some { s with acquiring := .idle }
      | _ => none
    | .claimed id =>
      match s.acquiring with
      | .calling exclude =>
        if id ∈ conf.candidates p ∧ some id ≠ exclude then
          some ({ s with acquiring := .idle, slot := some id, valid := true }.mark false)
        else none
      | _ => none
    | .claimFailed =>
      match s.acquiring with
      | .calling exclude => some { s with acquiring := .looping exclude }
      | _ => none
    | .release =>
      if fixed.isSome then some s
      else some ({ s with released := true, slot := none, valid := false }.mark true)
    | .newids count => some { s with asking := s.asking ++ [count] }
    | .serve k =>
      match s.asking[k]? with
      | some count =>
        if s.held fixed then some ({ s with asking := s.asking.eraseIdx k }.begin count) else none
      | none => none
    | .waitTimeout k =>
      if k < s.asking.length ∧ s.held fixed = false then
        some ({ s with asking := s.asking.eraseIdx k }.raise .notHeld)
      else none
    | .wake k =>
      match s.sleeping[k]? with
      | some call =>
        if s.clock ≤ s.lastTimestamp then some s
        else
          some ({ s with sleeping := s.sleeping.eraseIdx k, sequence := 0 }.compose conf fixed call)
      | none => none
    | _ => none

def fresh (clock : Nat) : IdService :=
  ⟨clock, none, false, false, if fixed.isSome then .idle else .looping none, 0, clock, [], none, [],
    [], []⟩

def system (p : Nat) : Machine.System IdService IdAction :=
  ⟨fun s => ∃ clock, s = fresh fixed clock, step conf fixed p⟩

/-- A call that goes on has lost no slot since its check, or has another one now. -/
def Unlost (s : IdService) : IdAction → Prop
  | .generate => ∀ call ∈ s.running, call.lost = false
  | .wake k => ∀ call ∈ s.sleeping[k]?, call.lost = false
  | _ => True

variable {conf fixed} {s t : IdService} {call : IdCall}

def past (s : IdService) : List IdCall := s.running.toList ++ s.sleeping

structure Inv (fixed : Option Nat) (s : IdService) : Prop where
  past : ∀ call ∈ s.past, call.lost = false → s.held fixed = true
  emitted : ∀ e ∈ s.emitted, e.InHand fixed
  answers : .error .nilMachineId ∉ s.answers

theorem mem_past : call ∈ s.past ↔ s.running = some call ∨ call ∈ s.sleeping := by
  simp only [IdService.past, List.mem_append, Option.mem_toList]

theorem Inv.keep (h : s.Inv fixed) (hp : ∀ call ∈ t.past, call ∈ s.past)
    (hs : t.slot = s.slot) (hv : t.valid = s.valid) (he : t.emitted = s.emitted)
    (ha : t.answers = s.answers) : t.Inv fixed := by
  refine ⟨fun call hmem hlost => ?_, he ▸ h.emitted, ha ▸ h.answers⟩
  rw [held, hs, hv]
  exact h.past call (hp call hmem) hlost

theorem Inv.mark (h : s.Inv fixed) (lost : Bool) (hheld : lost = false → t.held fixed = true)
    (ht : t.emitted = s.emitted ∧ t.answers = s.answers) : (t.mark lost).Inv fixed := by
  refine ⟨fun call hmem hlost => hheld ?_, ht.1 ▸ h.emitted, ht.2 ▸ h.answers⟩
  rcases mem_past.mp hmem with hmem | hmem
  · obtain ⟨old, _, rfl⟩ := Option.map_eq_some_iff.mp hmem
    exact hlost
  · obtain ⟨old, _, rfl⟩ := List.mem_map.mp hmem
    exact hlost

theorem Inv.raise (h : s.Inv fixed) {e : IdError} (he : e ≠ .nilMachineId) :
    (s.raise e).Inv fixed := by
  refine ⟨fun call hmem => h.past call (mem_past.mpr ?_), h.emitted, fun hmem => ?_⟩
  · exact .inr ((mem_past.mp hmem).resolve_left (by rintro ⟨⟩))
  · rcases List.mem_cons.mp hmem with heq | hmem
    · exact he (Except.error.inj heq).symm
    · exact h.answers hmem

theorem Inv.emit (h : s.Inv fixed) {machine : Nat} (hheld : s.held fixed = true)
    (hin : Emission.InHand fixed ⟨machine, s.slot, s.valid⟩) :
    (s.emit conf call machine).Inv fixed := by
  have hemitted (e : Emission) (hmem : e ∈ ⟨machine, s.slot, s.valid⟩ :: s.emitted) :
      e.InHand fixed := by
    rcases List.mem_cons.mp hmem with rfl | hmem
    · exact hin
    · exact h.emitted e hmem
  rw [IdService.emit]
  split
  · refine ⟨fun _ _ _ => hheld, hemitted, fun hmem => ?_⟩
    rcases List.mem_cons.mp hmem with heq | hmem
    · cases heq
    · exact h.answers hmem
  · exact ⟨fun _ _ _ => hheld, hemitted, h.answers⟩

theorem Inv.compose (h : s.Inv fixed) (hheld : s.held fixed = true) :
    (s.compose conf fixed call).Inv fixed := by
  have hkept : ({ s with lastTimestamp := s.clock } : IdService).Inv fixed :=
    h.keep (fun _ hmem => hmem) rfl rfl rfl rfl
  rw [IdService.compose]
  split
  · split
    · next machine hmachine =>
      refine hkept.emit hheld ?_
      cases fixed with
      | some id => exact .inl hmachine
      | none =>
        rw [held, Option.isSome_none, Bool.false_or, Bool.and_eq_true] at hheld
        exact .inr ⟨hmachine, hheld.2⟩
    · next hnone =>
      cases fixed with
      | some id => cases hnone
      | none =>
        have hnone : s.slot = none := hnone
        rw [held, hnone] at hheld
        cases hheld
  · exact hkept.raise (by rintro ⟨⟩)

theorem Inv.generateOne (h : s.Inv fixed) (hrun : s.running = some call)
    (hlost : call.lost = false) : (s.generateOne conf fixed call).Inv fixed := by
  have hheld := h.past call (mem_past.mpr (.inl hrun)) hlost
  rw [IdService.generateOne]
  split
  · exact h.raise (by rintro ⟨⟩)
  · split
    · split
      · refine h.keep (fun old hmem => mem_past.mpr ?_) rfl rfl rfl rfl
        have hmem := (mem_past.mp hmem).resolve_left (by rintro ⟨⟩)
        rcases List.mem_append.mp hmem with hmem | hmem
        · exact .inr hmem
        · cases List.mem_singleton.mp hmem
          exact .inl hrun
      · exact Inv.compose (s := { s with sequence := s.sequence + 1 })
          (h.keep (fun _ hmem => hmem) rfl rfl rfl rfl) hheld
    · exact Inv.compose (s := { s with sequence := 0 })
        (h.keep (fun _ hmem => hmem) rfl rfl rfl rfl) hheld

theorem Inv.onLost (h : s.Inv fixed) (id : Nat) : (s.onLost id).Inv fixed := by
  rw [IdService.onLost]
  split
  · exact h
  · have hmarked : (({ s with slot := none, valid := false } : IdService).mark true).Inv fixed :=
      h.mark true (by rintro ⟨⟩) ⟨rfl, rfl⟩
    rw [IdService.acquire]
    split
    · exact hmarked.keep (fun _ hmem => hmem) rfl rfl rfl rfl
    · exact hmarked

theorem Inv.begin (h : s.Inv fixed) (hheld : s.held fixed = true) (count : Nat) :
    (s.begin count).Inv fixed := by
  rw [IdService.begin]
  split
  · exact h.raise (by rintro ⟨⟩)
  · exact ⟨fun _ _ _ => hheld, h.emitted, h.answers⟩

theorem Inv.step {p : Nat} (h : s.Inv fixed) {a : IdAction} (hok : s.Unlost a)
    (ht : step conf fixed p s a = some t) : t.Inv fixed := by
  cases a with
  | elapse seconds =>
    cases ht
    exact h.keep (fun _ hmem => hmem) rfl rfl rfl rfl
  | lapse =>
    obtain ⟨_, ht⟩ := Option.ite_none_right_eq_some.mp ht
    cases ht
    exact h.mark true (by rintro ⟨⟩) ⟨rfl, rfl⟩
  | generate =>
    obtain ⟨call, hcall, rfl⟩ := Option.map_eq_some_iff.mp ht
    exact h.generateOne hcall (hok call hcall)
  | renew =>
    obtain ⟨_, ht⟩ := Option.ite_none_left_eq_some.mp ht
    obtain ⟨hslot, ht⟩ := Option.ite_none_right_eq_some.mp ht
    cases ht
    refine h.mark false (fun _ => ?_) ⟨rfl, rfl⟩
    rw [held, hslot, Bool.and_self, Bool.or_true]
  | onLost id =>
    obtain ⟨_, ht⟩ := Option.ite_none_left_eq_some.mp ht
    obtain ⟨_, ht⟩ := Option.ite_none_left_eq_some.mp ht
    cases ht
    exact h.onLost id
  | tryClaim =>
    obtain ⟨_, ht⟩ := Option.ite_none_left_eq_some.mp ht
    split at ht
    · split at ht <;> cases ht <;> exact h.keep (fun _ hmem => hmem) rfl rfl rfl rfl
    · cases ht
  | claimed id =>
    obtain ⟨_, ht⟩ := Option.ite_none_left_eq_some.mp ht
    split at ht
    · obtain ⟨_, ht⟩ := Option.ite_none_right_eq_some.mp ht
      cases ht
      exact h.mark false (fun _ => by simp [held]) ⟨rfl, rfl⟩
    · cases ht
  | claimFailed =>
    obtain ⟨_, ht⟩ := Option.ite_none_left_eq_some.mp ht
    split at ht
    · cases ht
      exact h.keep (fun _ hmem => hmem) rfl rfl rfl rfl
    · cases ht
  | release =>
    obtain ⟨_, ht⟩ := Option.ite_none_left_eq_some.mp ht
    split at ht
    · cases ht
      exact h
    · cases ht
      exact h.mark true (by rintro ⟨⟩) ⟨rfl, rfl⟩
  | newids count =>
    obtain ⟨_, ht⟩ := Option.ite_none_left_eq_some.mp ht
    cases ht
    exact h.keep (fun _ hmem => hmem) rfl rfl rfl rfl
  | serve k =>
    obtain ⟨_, ht⟩ := Option.ite_none_left_eq_some.mp ht
    split at ht
    · obtain ⟨hheld, ht⟩ := Option.ite_none_right_eq_some.mp ht
      cases ht
      exact Inv.begin (s := { s with asking := s.asking.eraseIdx k })
        (h.keep (fun _ hmem => hmem) rfl rfl rfl rfl) hheld _
    · cases ht
  | waitTimeout k =>
    obtain ⟨_, ht⟩ := Option.ite_none_left_eq_some.mp ht
    obtain ⟨_, ht⟩ := Option.ite_none_right_eq_some.mp ht
    cases ht
    exact Inv.raise (s := { s with asking := s.asking.eraseIdx k })
      (h.keep (fun _ hmem => hmem) rfl rfl rfl rfl) (by rintro ⟨⟩)
  | wake k =>
    obtain ⟨_, ht⟩ := Option.ite_none_left_eq_some.mp ht
    split at ht
    · next call hcall =>
      split at ht
      · cases ht
        exact h
      · cases ht
        have hheld := h.past call (mem_past.mpr (.inr (List.mem_of_getElem? hcall)))
          (hok call hcall)
        refine Inv.compose
          (s := { s with sleeping := s.sleeping.eraseIdx k, sequence := 0 })
          (h.keep (fun old hmem => mem_past.mpr ?_) rfl rfl rfl rfl) hheld
        exact (mem_past.mp hmem).imp_right List.mem_of_mem_eraseIdx
    · cases ht

/-- While no call goes on with a slot lost since its check, every id is put together with its
machine number in hand, and no call fails on a missing one. -/
theorem ids_in_hand {p : Nat} (h : (system conf fixed p).Reaches Unlost s) :
    (∀ e ∈ s.emitted, e.InHand fixed) ∧ .error .nilMachineId ∉ s.answers := by
  have hinv : s.Inv fixed := by
    refine h.invariant (fun u hu => ?_) fun u a v hu hok hv => Inv.step hu hok hv
    obtain ⟨clock, rfl⟩ := hu
    exact ⟨fun _ hmem => absurd hmem List.not_mem_nil, fun _ hmem => absurd hmem List.not_mem_nil,
      List.not_mem_nil⟩
  exact ⟨hinv.emitted, hinv.answers⟩

instance (s : IdService) (a : IdAction) : Decidable (s.Unlost a) := by
  cases a <;> unfold Unlost <;> infer_instance

/-- A service that claims slot 5, and a first batch. -/
def batchRun : List IdAction :=
  [.tryClaim, .claimed 5, .newids 2, .serve 0, .generate]

def lateConf : Conf := ⟨1759939200, by decide, fun _ => 5⟩

theorem ids_in_hand_batch :
    ∃ s : IdService, s.emitted = [⟨5, some 5, true⟩, ⟨5, some 5, true⟩] ∧
      (∀ e ∈ s.emitted, e.InHand none) ∧ .error .nilMachineId ∉ s.answers :=
  ⟨(system lateConf none 0).run Unlost (fresh none 1800000000)
      (batchRun ++ [.elapse 1, .generate]) (by decide +kernel), by decide +kernel,
    ids_in_hand ((system lateConf none 0).run_reaches Unlost _ ⟨1800000000, rfl⟩
      (by decide +kernel))⟩

/-- The deadline of the lease passes between two ids of one batch. -/
theorem id_without_machine_id :
    ∃ s, (system lateConf none 0).Reaches Machine.anyStep s ∧
      s.emitted = [⟨5, some 5, false⟩, ⟨5, some 5, true⟩] :=
  ⟨(system lateConf none 0).run Machine.anyStep (fresh none 1800000000)
      (batchRun ++ [.lapse, .generate]) (by decide +kernel),
    (system lateConf none 0).run_reaches Machine.anyStep _ ⟨1800000000, rfl⟩ (by decide +kernel),
    by decide +kernel⟩

end IdService

end Snowflake

end Skyext
