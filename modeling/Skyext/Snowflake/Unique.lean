import Skyext.Snowflake.Service

namespace Skyext
set_option autoImplicit true

namespace Snowflake

open Machine

variable {conf : Conf} {s t : Cluster} {P Q : Process} {sequence sequence' : Nat}

theorem shiftLeft_or (a : Nat) (h : b < 2 ^ i) : a <<< i ||| b = a * 2 ^ i + b := by
  rw [← Nat.shiftLeft_add_eq_or_of_lt h, Nat.shiftLeft_eq]

/-- The three parts of an id stand side by side. -/
theorem Conf.compose_toNat (conf : Conf) (time : Nat) (hm : machine ≤ maxMachineId)
    (hq : sequence ≤ maxSequence) :
    (conf.compose time machine sequence).toNat =
      ((conf.relative time) % 2 ^ 43).toNat * 2 ^ 21 + (machine * 2 ^ 13 + sequence) := by
  have hm' : machine < 2 ^ 8 := Nat.lt_of_le_of_lt hm (by decide)
  have hq' : sequence < 2 ^ 13 := Nat.lt_of_le_of_lt hq (by decide)
  have hlow : machine * 2 ^ 13 + sequence < 2 ^ 21 := by omega
  have hpart : (BitVec.ofNat 64 machine <<< machineLeft ||| BitVec.ofNat 64 sequence).toNat =
      machine * 2 ^ 13 + sequence := by
    rw [BitVec.toNat_or, BitVec.toNat_shiftLeft, BitVec.toNat_ofNat, BitVec.toNat_ofNat,
      Nat.mod_eq_of_lt (a := machine) (by omega), Nat.mod_eq_of_lt (a := sequence) (by omega),
      Nat.mod_eq_of_lt]
    · exact shiftLeft_or machine hq'
    · rw [Nat.shiftLeft_eq]
      exact Nat.lt_trans (Nat.mul_lt_mul_of_pos_right hm' (by decide)) (by decide)
  have htime : (BitVec.ofInt 64 (conf.relative time) <<< timestampLeft).toNat =
      ((conf.relative time) % 2 ^ 43).toNat <<< 21 := by
    rw [BitVec.toNat_shiftLeft, BitVec.toNat_ofInt, Nat.shiftLeft_eq, Nat.shiftLeft_eq]
    have hleft : timestampLeft = 21 := rfl
    rw [hleft]
    omega
  rw [Conf.compose, BitVec.or_assoc, BitVec.toNat_or, htime, hpart]
  exact shiftLeft_or _ hlow

theorem Conf.compose_lt (conf : Conf) (hr : conf.relative time ≤ maxRelativeTime)
    (h0 : conf.beginTimestamp ≤ time) (hm : machine ≤ maxMachineId)
    (hq : sequence ≤ maxSequence) : (conf.compose time machine sequence).toNat < 2 ^ 53 := by
  rw [conf.compose_toNat time hm hq]
  simp only [relative, maxRelativeTime, timeBit, maxMachineId, machineBit, maxSequence,
    sequenceBit] at *
  omega

/-- Two ids that are equal were issued in the same second, for the same slot, with the same
sequence. -/
theorem Conf.compose_inj (conf : Conf) (hr : conf.relative time ≤ maxRelativeTime)
    (hr' : conf.relative time' ≤ maxRelativeTime) (hm : machine ≤ maxMachineId)
    (hm' : machine' ≤ maxMachineId) (hq : sequence ≤ maxSequence) (hq' : sequence' ≤ maxSequence)
    (h : conf.compose time machine sequence = conf.compose time' machine' sequence') :
    time = time' ∧ machine = machine' ∧ sequence = sequence' := by
  have hn := congrArg BitVec.toNat h
  rw [conf.compose_toNat time hm hq, conf.compose_toNat time' hm' hq'] at hn
  have hb := conf.begin_lt
  simp only [relative, maxRelativeTime, timeBit, maxMachineId, machineBit, maxSequence,
    sequenceBit] at *
  omega

/-- A process has not gone back in its seconds, nor in its sequence within one. -/
def Process.Later (P Q : Process) : Prop :=
  P.lastTimestamp < Q.lastTimestamp ∨
    P.lastTimestamp = Q.lastTimestamp ∧ P.sequence ≤ Q.sequence

/-- What an execution of `generate_one` leaves behind, and what it returned. -/
structure Process.Generated (conf : Conf) (P : Process) (time : Nat)
    (r : Process × Option (Nat × Nat)) : Prop where
  slot : r.1.slot = P.slot
  later : P.Later r.1
  new : ∀ machine sequence, r.2 = some (machine, sequence) →
    P.slot = some machine ∧ r.1.lastTimestamp = time ∧ sequence = r.1.sequence ∧
      sequence ≤ maxSequence ∧ conf.relative time ≤ maxRelativeTime ∧
      (P.lastTimestamp < time ∨ P.lastTimestamp = time ∧ P.sequence < sequence)

theorem Process.compose_generated (hslot : Q.slot = P.slot) (hq : Q.sequence ≤ maxSequence)
    (h : P.lastTimestamp < time ∨ P.lastTimestamp = time ∧ P.sequence < Q.sequence) :
    P.Generated conf time (Q.compose conf time) := by
  have hlater : P.Later { Q with lastTimestamp := time } :=
    h.imp id fun h => ⟨h.1, Nat.le_of_lt h.2⟩
  simp only [compose]
  split
  · next hr =>
    split
    · next id hid =>
      refine ⟨hslot, hlater, fun machine sequence he => ?_⟩
      cases he
      exact ⟨hslot ▸ hid, rfl, rfl, hq, hr, h⟩
    · exact ⟨hslot, hlater, fun _ _ he => absurd he (by simp)⟩
  · exact ⟨hslot, hlater, fun _ _ he => absurd he (by simp)⟩

theorem Process.generateOne_generated (conf : Conf) (P : Process) (time : Nat) :
    P.Generated conf time (P.generateOne conf time) := by
  have hsame : P.Later P := .inr ⟨rfl, Nat.le_refl _⟩
  simp only [generateOne]
  split
  · exact ⟨rfl, hsame, fun _ _ he => absurd he (by simp)⟩
  · next hlt =>
    split
    · next heq =>
      split
      · exact ⟨rfl, .inr ⟨rfl, Nat.le_succ _⟩, fun _ _ he => absurd he (by simp)⟩
      · next hmax =>
        exact Process.compose_generated (P := P) rfl (Nat.le_of_not_lt hmax)
          (.inr ⟨heq.symm, Nat.lt_succ_self _⟩)
    · next hne =>
      exact Process.compose_generated (P := P) rfl (Nat.zero_le _) (.inl (by omega))

theorem Process.onLost_spec (P : Process) (id : Nat) :
    ((P.onLost id).slot = P.slot ∨ (P.onLost id).slot = none) ∧
      (P.onLost id).lastTimestamp = P.lastTimestamp ∧ (P.onLost id).sequence = P.sequence := by
  simp only [Process.onLost, Process.acquire]
  split
  · exact ⟨.inl rfl, rfl, rfl⟩
  · split
    · exact ⟨.inr rfl, rfl, rfl⟩
    · exact ⟨.inr rfl, rfl, rfl⟩

/-- No other process has issued an id for the slot in the current second, or later. -/
def Cluster.Vacated (s : Cluster) (p id : Nat) : Prop :=
  ∀ e ∈ s.issued, e.machine = id → e.proc ≠ p → e.time < s.clock

/-- The slot the process has is still its own. -/
def Cluster.Holding (s : Cluster) (p : Nat) : Prop :=
  (s.procs p).all (fun P => P.slot.all fun id => decide (s.holder id = some p)) = true

instance (s : Cluster) (p id : Nat) : Decidable (s.Vacated p id) :=
  inferInstanceAs (Decidable (∀ e ∈ s.issued, _))

instance : Decidable (s.Holding p) := inferInstanceAs (Decidable (_ = true))

/-- A process takes a slot only in a later second than any in which another process has issued
an id for it, and issues only while the slot is its own. -/
def Cluster.Fresh (s : Cluster) (a : Action) : Prop :=
  match a with
  | .claimed p id => s.Vacated p id
  | .generate p | .wake p _ => s.Holding p
  | _ => True

instance (s : Cluster) (a : Action) : Decidable (s.Fresh a) :=
  match a with
  | .claimed p id => inferInstanceAs (Decidable (s.Vacated p id))
  | .generate p | .wake p _ => inferInstanceAs (Decidable (s.Holding p))
  | .elapse _ | .start | .exit _ | .expire _ | .onLost .. | .tryClaim _ | .claimFailed _
  | .release _ | .newids .. | .waitMachineId .. | .waitTimeout .. => .isTrue trivial

structure Cluster.Inv (conf : Conf) (s : Cluster) : Prop where
  parts : ∀ e ∈ s.issued, e.id = conf.compose e.time e.machine e.sequence ∧
    conf.relative e.time ≤ maxRelativeTime ∧ e.machine ≤ maxMachineId ∧ e.sequence ≤ maxSequence
  started : ∀ e ∈ s.issued, e.proc < s.started
  alive : ∀ p P, s.procs p = some P → p < s.started
  ahead : ∀ p P, s.procs p = some P → ∀ e ∈ s.issued, e.proc = p →
    e.time < P.lastTimestamp ∨ e.time = P.lastTimestamp ∧ e.sequence ≤ P.sequence
  slot : ∀ p P id, s.procs p = some P → P.slot = some id → id ≤ maxMachineId
  fresh : ∀ p P id, s.procs p = some P → P.slot = some id → s.holder id = some p →
    ∀ e ∈ s.issued, e.machine = id → e.proc ≠ p → e.time < s.clock
  nodup : (s.issued.map Issue.id).Nodup

namespace Cluster

theorem Inv.init (h : s.Initial) : s.Inv conf := by
  obtain ⟨_, hp, _, hi⟩ := h
  refine ⟨?_, ?_, fun p P h => ?_, fun p P h => ?_, fun p P id h => ?_, fun p P id h => ?_, ?_⟩
  · simp [hi]
  · simp [hi]
  · cases (hp p).symm.trans h
  · cases (hp p).symm.trans h
  · cases (hp p).symm.trans h
  · cases (hp p).symm.trans h
  · simp [hi]

theorem setProc_procs (h : (s.setProc p Q).procs p' = some P) :
    p' = p ∧ P = Q ∨ p' ≠ p ∧ s.procs p' = some P := by
  by_cases hp : p' = p
  · subst hp
    simp only [setProc, Function.update_self] at h
    cases h
    exact .inl ⟨rfl, rfl⟩
  · simp only [setProc, Function.update_of_ne hp] at h
    exact .inr ⟨hp, h⟩

theorem Inv.setProc (h : s.Inv conf) (hp : s.procs p = some P)
    (hslot : Q.slot = P.slot ∨ Q.slot = none) (hlater : P.Later Q) :
    (s.setProc p Q).Inv conf := by
  have hid : ∀ id, Q.slot = some id → P.slot = some id := by
    intro id hid
    rcases hslot with hs | hs
    · exact hs ▸ hid
    · cases hs.symm.trans hid
  refine ⟨h.parts, h.started, fun p' P' hp' => ?_, fun p' P' hp' e he hproc => ?_,
    fun p' P' id hp' hs => ?_, fun p' P' id hp' hs => ?_, h.nodup⟩
  · rcases setProc_procs hp' with ⟨rfl, _⟩ | ⟨_, hp'⟩
    · exact h.alive p' P hp
    · exact h.alive p' P' hp'
  · rcases setProc_procs hp' with ⟨rfl, rfl⟩ | ⟨_, hp'⟩
    · have ha := h.ahead p' P hp e he hproc
      simp only [Process.Later] at hlater
      omega
    · exact h.ahead p' P' hp' e he hproc
  · rcases setProc_procs hp' with ⟨rfl, rfl⟩ | ⟨_, hp'⟩
    · exact h.slot p' P id hp (hid id hs)
    · exact h.slot p' P' id hp' hs
  · rcases setProc_procs hp' with ⟨rfl, rfl⟩ | ⟨_, hp'⟩
    · exact h.fresh p' P id hp (hid id hs)
    · exact h.fresh p' P' id hp' hs

theorem Inv.keep (h : s.Inv conf) (hp : s.procs p = some P) (hslot : Q.slot = P.slot)
    (hl : Q.lastTimestamp = P.lastTimestamp) (hq : Q.sequence = P.sequence) :
    (s.setProc p Q).Inv conf :=
  h.setProc hp (.inl hslot) (.inr ⟨hl.symm, Nat.le_of_eq hq.symm⟩)

/-- An id the process has just put together differs from every id issued before. -/
theorem Inv.unused (h : s.Inv conf) (hp : s.procs p = some P) (hid : P.slot = some machine)
    (hheld : s.holder machine = some p) (hr : conf.relative s.clock ≤ maxRelativeTime)
    (hq : sequence ≤ maxSequence)
    (hlt : P.lastTimestamp < s.clock ∨ P.lastTimestamp = s.clock ∧ P.sequence < sequence) :
    conf.compose s.clock machine sequence ∉ s.issued.map Issue.id := by
  intro hmem
  obtain ⟨e, he, heq⟩ := List.mem_map.mp hmem
  obtain ⟨hcomp, hrel, hmach, hseq⟩ := h.parts e he
  obtain ⟨ht, hm, hs⟩ := conf.compose_inj hrel hr hmach (h.slot p P machine hp hid) hseq hq
    (hcomp.symm.trans heq)
  by_cases hproc : e.proc = p
  · have ha := h.ahead p P hp e he hproc
    omega
  · have hf := h.fresh p P machine hp hid hheld e he hm hproc
    omega

theorem Inv.issue (h : s.Inv conf) (hp : s.procs p = some P)
    (hheld : ∀ id, P.slot = some id → s.holder id = some p)
    (hg : P.Generated conf s.clock r) : (s.issue conf p r).Inv conf := by
  obtain ⟨Q, o⟩ := r
  cases o with
  | none => exact h.setProc hp (.inl hg.slot) hg.later
  | some mq =>
    obtain ⟨machine, sequence⟩ := mq
    obtain ⟨hid, hl, hs, hq, hr, hlt⟩ := hg.new machine sequence rfl
    have hnext : (s.setProc p Q.next).Inv conf := h.setProc hp (.inl hg.slot) hg.later
    have hnew := h.unused hp hid (hheld machine hid) hr hq hlt
    refine ⟨fun e he => ?_, fun e he => ?_, hnext.alive, fun p' P' hp' e he hproc => ?_,
      hnext.slot,
      fun p' P' id hp' hs' hh e he hm hne => ?_, List.nodup_cons.mpr ⟨hnew, h.nodup⟩⟩
    · rcases List.mem_cons.mp he with rfl | he
      · exact ⟨rfl, hr, h.slot p P machine hp hid, hq⟩
      · exact h.parts e he
    · rcases List.mem_cons.mp he with rfl | he
      · exact h.alive p P hp
      · exact h.started e he
    · rcases List.mem_cons.mp he with rfl | he
      · cases hproc
        rcases setProc_procs hp' with ⟨_, rfl⟩ | ⟨hne, _⟩
        · exact .inr ⟨hl.symm, Nat.le_of_eq hs⟩
        · exact absurd rfl hne
      · exact hnext.ahead p' P' hp' e he hproc
    · rcases List.mem_cons.mp he with rfl | he
      · -- the slot is the issuing process's own
        cases hm
        cases (hheld machine hid).symm.trans hh
        exact absurd rfl hne
      · exact hnext.fresh p' P' id hp' hs' hh e he hm hne

theorem Inv.start (h : s.Inv conf) :
    { s.setProc s.started { lastTimestamp := s.clock } with
      started := s.started + 1 : Cluster }.Inv conf := by
  refine ⟨h.parts, fun e he => Nat.lt_succ_of_lt (h.started e he), fun p P hp => ?_,
    fun p P hp e he hproc => ?_, fun p P id hp hs => ?_, fun p P id hp hs => ?_, h.nodup⟩
  · rcases setProc_procs hp with ⟨rfl, _⟩ | ⟨_, hp⟩
    · exact Nat.lt_succ_self _
    · exact Nat.lt_succ_of_lt (h.alive p P hp)
  · rcases setProc_procs hp with ⟨rfl, _⟩ | ⟨_, hp⟩
    · exact absurd hproc (Nat.ne_of_lt (h.started e he))
    · exact h.ahead p P hp e he hproc
  · rcases setProc_procs hp with ⟨_, rfl⟩ | ⟨_, hp⟩
    · cases hs
    · exact h.slot p P id hp hs
  · rcases setProc_procs hp with ⟨_, rfl⟩ | ⟨_, hp⟩
    · cases hs
    · exact h.fresh p P id hp hs

theorem Inv.exit (h : s.Inv conf) (p : Nat) :
    { s with procs := Function.update s.procs p none : Cluster }.Inv conf := by
  have hold : ∀ p' P, Function.update s.procs p none p' = some P → s.procs p' = some P := by
    intro p' P hp
    by_cases he : p' = p
    · subst he
      simp only [Function.update_self] at hp
      cases hp
    · simpa only [Function.update_of_ne he] using hp
  exact ⟨h.parts, h.started, fun p' P hp => h.alive p' P (hold p' P hp),
    fun p' P hp => h.ahead p' P (hold p' P hp),
    fun p' P id hp => h.slot p' P id (hold p' P hp),
    fun p' P id hp => h.fresh p' P id (hold p' P hp), h.nodup⟩

theorem Inv.expire (h : s.Inv conf) (id : Nat) :
    { s with holder := Function.update s.holder id none : Cluster }.Inv conf := by
  refine ⟨h.parts, h.started, h.alive, h.ahead, h.slot, fun p P id' hp hs hh => ?_, h.nodup⟩
  by_cases he : id' = id
  · subst he
    simp only [Function.update_self] at hh
    cases hh
  · simp only [Function.update_of_ne he] at hh
    exact h.fresh p P id' hp hs hh

theorem Inv.elapse (h : s.Inv conf) (seconds : Nat) :
    { s with clock := s.clock + seconds : Cluster }.Inv conf :=
  ⟨h.parts, h.started, h.alive, h.ahead, h.slot, fun p P id hp hs hh e he hm hne =>
    Nat.lt_add_right _ (h.fresh p P id hp hs hh e he hm hne), h.nodup⟩

theorem Inv.claimed {id : Nat} (h : s.Inv conf) (hp : s.procs p = some P) (hid : id ≤ maxMachineId)
    (hfree : s.holder id = none) (hv : s.Vacated p id) :
    { s.setProc p { P with acquiring := .idle, slot := some id } with
      holder := Function.update s.holder id (some p) : Cluster }.Inv conf := by
  refine ⟨h.parts, h.started, fun p' P' hp' => ?_, fun p' P' hp' => ?_,
    fun p' P' id' hp' hs => ?_, fun p' P' id' hp' hs hh => ?_, h.nodup⟩
  · rcases setProc_procs hp' with ⟨rfl, rfl⟩ | ⟨_, hp'⟩
    · exact h.alive p' P hp
    · exact h.alive p' P' hp'
  · rcases setProc_procs hp' with ⟨rfl, rfl⟩ | ⟨_, hp'⟩
    · exact h.ahead p' P hp
    · exact h.ahead p' P' hp'
  · rcases setProc_procs hp' with ⟨rfl, rfl⟩ | ⟨_, hp'⟩
    · cases hs
      exact hid
    · exact h.slot p' P' id' hp' hs
  · rcases setProc_procs hp' with ⟨rfl, rfl⟩ | ⟨hne, hp'⟩
    · cases hs
      exact hv
    · by_cases he : id' = id
      · subst he
        simp only [Function.update_self, Option.some.injEq] at hh
        exact absurd hh.symm hne
      · simp only [Function.update_of_ne he] at hh
        exact h.fresh p' P' id' hp' hs hh

theorem candidates_le {id : Nat} (h : id ∈ conf.candidates p) : id ≤ maxMachineId := by
  obtain ⟨k, _, rfl⟩ := List.mem_map.mp h
  exact Nat.le_of_lt_succ (Nat.mod_lt _ (Nat.succ_pos _))

theorem Holding.held (h : s.Holding p) (hp : s.procs p = some P) :
    ∀ id, P.slot = some id → s.holder id = some p := by
  intro id hid
  simpa only [Holding, hp, Option.all_some, hid, decide_eq_true_eq] using h

theorem Inv.step (h : s.Inv conf) (hok : s.Fresh a) (ht : s.step conf a = some t) :
    t.Inv conf := by
  cases a with
  | elapse seconds =>
    cases ht
    exact h.elapse seconds
  | start =>
    cases ht
    exact h.start
  | exit p =>
    cases ht
    exact h.exit p
  | expire id =>
    cases ht
    exact h.expire id
  | onLost p id =>
    obtain ⟨P, hp, ht⟩ := Option.bind_eq_some_iff.mp ht
    split at ht
    · cases ht
    · cases ht
      obtain ⟨hs, hl, hq⟩ := P.onLost_spec id
      exact h.setProc hp hs (.inr ⟨hl.symm, Nat.le_of_eq hq.symm⟩)
  | tryClaim p =>
    obtain ⟨P, hp, ht⟩ := Option.bind_eq_some_iff.mp ht
    split at ht
    · split at ht
      · cases ht
        exact h.keep hp rfl rfl rfl
      · cases ht
        exact h.keep hp rfl rfl rfl
    · cases ht
  | claimed p id =>
    obtain ⟨P, hp, ht⟩ := Option.bind_eq_some_iff.mp ht
    split at ht
    · split at ht
      · next hc =>
        cases ht
        exact h.claimed hp (candidates_le hc.1) hc.2.2 hok
      · cases ht
    · cases ht
  | claimFailed p =>
    obtain ⟨P, hp, ht⟩ := Option.bind_eq_some_iff.mp ht
    split at ht
    · cases ht
      exact h.keep hp rfl rfl rfl
    · cases ht
  | release p =>
    obtain ⟨P, hp, ht⟩ := Option.bind_eq_some_iff.mp ht
    cases ht
    exact h.setProc hp (.inr rfl) (.inr ⟨rfl, Nat.le_refl _⟩)
  | newids p count =>
    obtain ⟨P, hp, ht⟩ := Option.bind_eq_some_iff.mp ht
    cases ht
    exact h.keep hp rfl rfl rfl
  | waitMachineId p k =>
    obtain ⟨P, hp, ht⟩ := Option.bind_eq_some_iff.mp ht
    obtain ⟨count, _, ht⟩ := Option.bind_eq_some_iff.mp ht
    split at ht
    · cases ht
    · split at ht
      · cases ht
        exact h.keep hp rfl rfl rfl
      · cases ht
        exact h.keep hp rfl rfl rfl
  | waitTimeout p k =>
    obtain ⟨P, hp, ht⟩ := Option.bind_eq_some_iff.mp ht
    cases ht
    exact h.keep hp rfl rfl rfl
  | generate p =>
    obtain ⟨P, hp, ht⟩ := Option.bind_eq_some_iff.mp ht
    split at ht
    · cases ht
      exact h.issue hp (Holding.held hok hp) (P.generateOne_generated conf s.clock)
    · cases ht
  | wake p k =>
    obtain ⟨P, hp, ht⟩ := Option.bind_eq_some_iff.mp ht
    obtain ⟨count, _, ht⟩ := Option.bind_eq_some_iff.mp ht
    split at ht
    · cases ht
    · split at ht
      · cases ht
        exact h
      · next hle =>
        cases ht
        apply h.issue hp (Holding.held hok hp)
        exact Process.compose_generated rfl (Nat.zero_le _) (.inl (Nat.lt_of_not_le hle))

/-- The ids of a run are all different, and those issued from the start date on fit the integers
a browser can represent. -/
def Unique (conf : Conf) (s : Cluster) : Prop :=
  (s.issued.map Issue.id).Nodup ∧
    ∀ e ∈ s.issued, conf.beginTimestamp ≤ e.time → e.id.toNat < 2 ^ 53

instance (conf : Conf) (s : Cluster) : Decidable (s.Unique conf) :=
  inferInstanceAs (Decidable (_ ∧ ∀ e ∈ s.issued, _))

theorem Inv.unique (h : s.Inv conf) : s.Unique conf := by
  refine ⟨h.nodup, fun e he hb => ?_⟩
  obtain ⟨hid, hr, hm, hq⟩ := h.parts e he
  rw [hid]
  exact conf.compose_lt hr hb hm hq

/-- No id is issued twice as long as slots change hands only between seconds and nothing is
issued for a slot that has been lost. -/
theorem ids_unique (h : (system conf).Reaches Fresh s) : s.Unique conf :=
  (h.invariant (fun _ => Inv.init) fun _ _ _ => Inv.step).unique

/-- A cluster in the first second of its calendar. -/
def dawn : Cluster := ⟨7, 0, fun _ => none, fun _ => none, []⟩

def calendar : Conf := ⟨7, by decide, fun _ => 5⟩

/-- One process issues an id and gives its slot back; the next takes it over a second later. -/
def handedOver : Cluster :=
  (system calendar).run Fresh dawn [.start, .tryClaim 0, .claimed 0 5, .newids 0 1,
    .waitMachineId 0 0, .generate 0, .release 0, .expire 5, .elapse 1, .start, .tryClaim 1,
    .claimed 1 5, .newids 1 2, .waitMachineId 1 0, .generate 1, .generate 1] (by decide +kernel)

theorem ids_unique_handedOver : handedOver.Unique calendar ∧ handedOver.issued.length = 3 := by
  have hi : dawn.Initial := ⟨rfl, fun _ => rfl, fun _ => rfl, rfl⟩
  exact ⟨ids_unique ((system calendar).run_reaches Fresh _ hi (by decide +kernel)),
    by decide +kernel⟩

/-- The same within one second. -/
def restarted : Cluster :=
  (system calendar).run anyStep dawn [.start, .tryClaim 0, .claimed 0 5, .newids 0 1,
    .waitMachineId 0 0, .generate 0, .release 0, .expire 5, .start, .tryClaim 1, .claimed 1 5,
    .newids 1 1, .waitMachineId 1 0, .generate 1] (by decide +kernel)

theorem ids_repeated :
    ¬ ∀ conf s, (system conf).Reaches anyStep s → s.Unique conf := by
  intro h
  have hi : dawn.Initial := ⟨rfl, fun _ => rfl, fun _ => rfl, rfl⟩
  have hu := h calendar restarted ((system calendar).run_reaches anyStep _ hi (by decide +kernel))
  exact absurd hu (by decide +kernel)

end Cluster

end Snowflake

end Skyext
