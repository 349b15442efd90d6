import Skyext.Entity.Call

namespace Skyext
set_option autoImplicit true

namespace EntityCall

open Machine

variable {conf : Conf} {s t : State} {c d : Call}

/-- The forwarded call starts nothing any more. -/
def Forward.Settled (f : Forward) : Prop := ∀ holder, f ≠ .sent holder ∧ f ≠ .running holder

/-- How often the handler has started and completed when a call has ended with a result. -/
def Result.Tells (starts completed : Nat) : Result → Prop
  | .ok => starts = 1 ∧ completed = 1
  | .refused reason => starts = if reason = .leaseExpiredDuringHandler then 1 else 0
  | .raised => starts ≤ 1

/-- The same for a call that is out at the node that holds the lock. -/
def Forward.Tells (starts completed : Nat) : Forward → Prop
  | .none => False
  | .sent _ | .lost => starts = 0 ∧ completed = 0
  | .running _ => starts = 1 ∧ completed = 0
  | .replied result => result.Tells starts completed ∧ completed ≤ starts

/-- Where a call is says how often its handler has started. -/
def Call.Ok (c : Call) : Prop :=
  match c.phase with
  | .waiting _ => c.forward.Settled ∧ c.starts = 0 ∧ c.completed = 0
  | .running _ => c.forward.Settled ∧ c.starts = 1 ∧ c.completed = 0
  | .forwarding => c.forward.Tells c.starts c.completed
  | .returned result =>
    c.forward.Settled ∧ result.Tells c.starts c.completed ∨
      result = .raised ∧ c.forward.Tells c.starts c.completed

theorem Result.Tells.starts_le {r : Result} (h : r.Tells starts completed) : starts ≤ 1 := by
  cases r with
  | ok => exact Nat.le_of_eq h.1
  | refused reason =>
    simp only [Result.Tells] at h
    split at h <;> omega
  | raised => exact h

theorem Forward.Tells.starts_le {f : Forward} (h : f.Tells starts completed) : starts ≤ 1 := by
  cases f with
  | none => exact h.elim
  | sent holder => exact h.1 ▸ Nat.zero_le 1
  | lost => exact h.1 ▸ Nat.zero_le 1
  | running holder => exact Nat.le_of_eq h.1
  | replied result => exact h.1.starts_le

theorem Forward.settled_none : Forward.none.Settled := by
  intro holder
  exact ⟨by simp, by simp⟩

theorem Forward.settled_replied (r : Result) : (Forward.replied r).Settled := by
  intro holder
  exact ⟨by simp, by simp⟩

theorem handlerResult_tells (kept raised : Bool) :
    (handlerResult kept raised).Tells 1 (0 + if kept && !raised then 1 else 0) := by
  cases kept <;> cases raised <;> simp [handlerResult, Result.Tells]

theorem Call.Ok.starts_le (h : c.Ok) : c.starts ≤ 1 := by
  rw [Call.Ok] at h
  split at h
  · exact h.2.1 ▸ Nat.zero_le 1
  · exact Nat.le_of_eq h.2.1
  · exact h.starts_le
  · rcases h with ⟨_, h⟩ | ⟨_, h⟩
    · exact h.starts_le
    · exact h.starts_le

/-- A local attempt that found no entity has started nothing, so the call may go on elsewhere. -/
theorem Call.Ok.sticky {reason : Reason} (hp : c.phase = .waiting again) (h : c.Ok)
    (hr : reason ≠ .leaseExpiredDuringHandler) : (c.sticky again reason).Ok := by
  rw [Call.Ok, hp] at h
  obtain ⟨hs, h0, h1⟩ := h
  rw [Call.sticky.eq_def]
  split
  · exact ⟨h0, h1⟩
  · refine .inl ⟨hs, ?_⟩
    rw [Result.Tells, if_neg hr]
    exact h0

theorem Call.Ok.forwarded {r : Result} (hp : c.phase = .forwarding) (hf : c.forward = .replied r)
    (h : c.Ok) : (c.forwarded r).Ok := by
  rw [Call.Ok, hp] at h
  simp only [hf, Forward.Tells] at h
  obtain ⟨ht, hle⟩ := h
  have hs : c.forward.Settled := hf ▸ Forward.settled_replied r
  rw [Call.forwarded.eq_def]
  split
  · rw [Result.Tells, if_neg (by simp)] at ht
    exact ⟨hs, ht, Nat.le_zero.mp (ht ▸ hle)⟩
  · exact .inl ⟨hs, ht⟩

theorem Call.Ok.finish (hp : c.phase = .running again) (h : c.Ok) (kept raised : Bool) :
    { c.complete kept raised with phase := .returned (handlerResult kept raised) }.Ok := by
  rw [Call.Ok, hp] at h
  obtain ⟨hs, h1, h0⟩ := h
  refine .inl ⟨hs, ?_⟩
  simp only [Call.complete, h1, h0]
  exact handlerResult_tells kept raised

theorem Call.Ok.away (h : c.Ok) (hf : ¬ c.forward.Settled)
    (ht : c.forward.Tells c.starts c.completed → d.forward.Tells d.starts d.completed)
    (hp : d.phase = c.phase) : d.Ok := by
  rw [Call.Ok] at h
  rw [Call.Ok, hp]
  split at h
  · exact absurd h.1 hf
  · exact absurd h.1 hf
  · exact ht h
  · rcases h with ⟨hs, _⟩ | ⟨hr, h⟩
    · exact absurd hs hf
    · exact .inr ⟨hr, ht h⟩

namespace State

def Inv (s : State) : Prop := ∀ c ∈ s.calls, c.Ok

theorem Inv.setCall (h : s.Inv) (i : Nat) (hd : d.Ok) : (s.setCall i d).Inv := by
  intro c hc
  rcases List.mem_or_eq_of_mem_set hc with hc | rfl
  · exact h c hc
  · exact hd

theorem Inv.nodes (h : s.Inv) (he : t.calls = s.calls) : t.Inv := by
  intro c hc
  exact h c (he ▸ hc)

theorem ensureLoaded_reason {n m : NodeState} (h : n.ensureLoaded loading = (m, .error reason)) :
    reason ≠ .leaseExpiredDuringHandler := by
  simp only [NodeState.ensureLoaded] at h
  intro hr
  subst hr
  split at h
  · split at h
    · simp at h
    · split at h <;> simp at h
  · split at h
    · simp at h
    · split at h <;> simp at h

theorem Inv.step (h : s.Inv) (ht : s.step conf a = some t) : t.Inv := by
  cases a with
  | entityCall home =>
    cases ht
    intro c hc
    rcases List.mem_append.mp hc with hc | hc
    · exact h c hc
    · cases List.mem_singleton.mp hc
      rw [Call.Ok]
      cases conf.knows home with
      | true => exact ⟨Forward.settled_none, rfl, rfl⟩
      | false => exact .inl ⟨Forward.settled_none, Nat.zero_le 1⟩
  | enter i loading =>
    obtain ⟨c, hc, ht⟩ := Option.bind_eq_some_iff.mp ht
    have hok := h c (List.mem_of_getElem? hc)
    split at ht
    · next again hp =>
      split at ht
      · cases ht
      · split at ht
        · cases ht
          apply Inv.setCall (h.nodes rfl)
          rw [Call.Ok, hp] at hok
          obtain ⟨hs, h0, h1⟩ := hok
          exact ⟨hs, congrArg (· + 1) h0, h1⟩
        · next he =>
          cases ht
          apply Inv.setCall (h.nodes rfl)
          exact hok.sticky hp (ensureLoaded_reason he)
    · cases ht
  | finish i raised =>
    obtain ⟨c, hc, ht⟩ := Option.bind_eq_some_iff.mp ht
    have hok := h c (List.mem_of_getElem? hc)
    split at ht
    · next again hp =>
      cases ht
      apply Inv.setCall (h.nodes rfl)
      exact hok.finish hp _ raised
    · cases ht
  | deliver i =>
    obtain ⟨c, hc, ht⟩ := Option.bind_eq_some_iff.mp ht
    have hok := h c (List.mem_of_getElem? hc)
    split at ht
    · next holder hf =>
      have haway : ¬ c.forward.Settled := fun hs => (hs holder).1 hf
      split at ht
      · cases ht
        apply Inv.setCall h
        refine hok.away haway (fun hc => ?_) rfl
        rw [hf] at hc
        exact ⟨hc.1 ▸ Nat.zero_le 1, Nat.le_of_eq (hc.2.trans hc.1.symm)⟩
      · split at ht
        · cases ht
        · split at ht
          · cases ht
            apply Inv.setCall h
            refine hok.away haway (fun hc => ?_) rfl
            rw [hf] at hc
            exact ⟨hc.1, Nat.le_of_eq (hc.2.trans hc.1.symm)⟩
          · cases ht
            apply Inv.setCall (h.nodes rfl)
            refine hok.away haway (fun hc => ?_) rfl
            rw [hf] at hc
            exact ⟨congrArg (· + 1) hc.1, hc.2⟩
    · cases ht
  | finishLoaded i raised =>
    obtain ⟨c, hc, ht⟩ := Option.bind_eq_some_iff.mp ht
    have hok := h c (List.mem_of_getElem? hc)
    split at ht
    · next holder hf =>
      cases ht
      apply Inv.setCall (h.nodes rfl)
      refine hok.away (fun hs => (hs holder).2 hf) (fun hc => ?_) rfl
      rw [hf] at hc
      obtain ⟨h1, h0⟩ := hc
      simp only [Call.complete, Forward.Tells, h1, h0]
      refine ⟨handlerResult_tells _ raised, ?_⟩
      split <;> decide
    · cases ht
  | lose i =>
    obtain ⟨c, hc, ht⟩ := Option.bind_eq_some_iff.mp ht
    have hok := h c (List.mem_of_getElem? hc)
    split at ht
    · next holder hf =>
      cases ht
      apply Inv.setCall h
      refine hok.away (fun hs => (hs holder).1 hf) (fun hc => ?_) rfl
      rw [hf] at hc
      exact hc
    · cases ht
  | reply i =>
    obtain ⟨c, hc, ht⟩ := Option.bind_eq_some_iff.mp ht
    have hok := h c (List.mem_of_getElem? hc)
    split at ht
    · next hp hf =>
      cases ht
      exact Inv.setCall h i (hok.forwarded hp hf)
    · cases ht
  | callFailed i =>
    obtain ⟨c, hc, ht⟩ := Option.bind_eq_some_iff.mp ht
    have hok := h c (List.mem_of_getElem? hc)
    split at ht
    · next hp =>
      cases ht
      apply Inv.setCall h
      rw [Call.Ok, hp] at hok
      exact .inr ⟨rfl, hok⟩
    · cases ht
  | load n =>
    simp only [State.step] at ht
    split at ht
    · cases ht
    · cases ht
      exact h.nodes rfl
  | unload n =>
    simp only [State.step] at ht
    split at ht
    · cases ht
    · cases ht
      exact h.nodes rfl
  | forget n =>
    simp only [State.step] at ht
    split at ht
    · cases ht
    · cases ht
      exact h.nodes rfl
  | leaseLost n =>
    cases ht
    exact h.nodes rfl
  | lockExpired n =>
    simp only [State.step] at ht
    split at ht
    · cases ht
      exact h.nodes rfl
    · cases ht
  | close n =>
    cases ht
    exact h.nodes rfl

/-- In every run a handler starts at most once for each call, and a reason tells whether it did. -/
theorem inv_reaches (h : (system conf).Reaches anyStep s) : s.Inv :=
  h.invariant (fun s hs => by
    subst hs
    exact fun c hc => absurd hc (by simp [State.empty])) fun _ _ _ hi _ ht => hi.step ht

/-- Every handler ends with the lease of its entity still valid. -/
def Kept (s : State) (a : Action) : Prop :=
  match a with
  | .finish i _ => (s.calls[i]?).all (fun c => s.kept c.home) = true
  | .finishLoaded i _ => (s.calls[i]?).all (fun c =>
      match c.forward with
      | .running holder => s.keptLoaded holder
      | _ => true) = true
  | _ => True

instance (s : State) (a : Action) : Decidable (s.Kept a) :=
  match a with
  | .finish .. | .finishLoaded .. => inferInstanceAs (Decidable (_ = true))
  | .entityCall _ | .enter .. | .deliver _ | .lose _ | .reply _ | .callFailed _ | .load _
  | .unload _ | .forget _ | .leaseLost _ | .lockExpired _ | .close _ => .isTrue trivial

/-- The call has not been told that the lease was lost under its handler. -/
def Spared (c : Call) : Prop :=
  c.phase ≠ .returned (.refused .leaseExpiredDuringHandler) ∧
    c.forward ≠ .replied (.refused .leaseExpiredDuringHandler)

theorem handlerResult_kept (raised : Bool) :
    handlerResult true raised ≠ .refused .leaseExpiredDuringHandler := by
  cases raised <;> simp [handlerResult]

theorem Spared.sticky {reason : Reason} (h : Spared c)
    (hr : reason ≠ .leaseExpiredDuringHandler) : Spared (c.sticky again reason) := by
  rw [Call.sticky.eq_def]
  split
  · exact ⟨by simp, by simp⟩
  · exact ⟨by simpa using hr, h.2⟩

theorem Spared.forwarded {r : Result} (h : Spared c) (hf : c.forward = .replied r) :
    Spared (c.forwarded r) := by
  rw [Call.forwarded.eq_def]
  split
  · exact ⟨by simp, h.2⟩
  · refine ⟨fun hr => h.2 ?_, h.2⟩
    cases hr
    exact hf

def AllSpared (s : State) : Prop := ∀ c ∈ s.calls, Spared c

theorem AllSpared.setCall (h : s.AllSpared) (i : Nat) (hd : Spared d) :
    (s.setCall i d).AllSpared := by
  intro c hc
  rcases List.mem_or_eq_of_mem_set hc with hc | rfl
  · exact h c hc
  · exact hd

theorem AllSpared.nodes (h : s.AllSpared) (he : t.calls = s.calls) : t.AllSpared := by
  intro c hc
  exact h c (he ▸ hc)

theorem AllSpared.step (h : s.AllSpared) (hok : s.Kept a) (ht : s.step conf a = some t) :
    t.AllSpared := by
  cases a with
  | entityCall home =>
    cases ht
    intro c hc
    rcases List.mem_append.mp hc with hc | hc
    · exact h c hc
    · cases List.mem_singleton.mp hc
      cases conf.knows home <;> exact ⟨by simp, by simp⟩
  | enter i loading =>
    obtain ⟨c, hc, ht⟩ := Option.bind_eq_some_iff.mp ht
    have hc := h c (List.mem_of_getElem? hc)
    split at ht
    · split at ht
      · cases ht
      · split at ht
        · cases ht
          apply AllSpared.setCall (h.nodes rfl)
          exact ⟨by simp, hc.2⟩
        · next he =>
          cases ht
          apply AllSpared.setCall (h.nodes rfl)
          exact hc.sticky (ensureLoaded_reason he)
    · cases ht
  | finish i raised =>
    obtain ⟨c, hi, ht⟩ := Option.bind_eq_some_iff.mp ht
    have hc := h c (List.mem_of_getElem? hi)
    have hkept : s.kept c.home = true := by simpa only [Kept, hi, Option.all_some] using hok
    split at ht
    · cases ht
      apply AllSpared.setCall (h.nodes rfl)
      refine ⟨fun hr => handlerResult_kept raised ?_, hc.2⟩
      exact hkept ▸ Phase.returned.inj hr
    · cases ht
  | deliver i =>
    obtain ⟨c, hc, ht⟩ := Option.bind_eq_some_iff.mp ht
    have hc := h c (List.mem_of_getElem? hc)
    split at ht
    · split at ht
      · cases ht
        exact h.setCall i ⟨hc.1, by simp⟩
      · split at ht
        · cases ht
        · split at ht
          · cases ht
            exact h.setCall i ⟨hc.1, by simp⟩
          · cases ht
            apply AllSpared.setCall (h.nodes rfl)
            exact ⟨hc.1, by simp⟩
    · cases ht
  | finishLoaded i raised =>
    obtain ⟨c, hi, ht⟩ := Option.bind_eq_some_iff.mp ht
    have hc := h c (List.mem_of_getElem? hi)
    split at ht
    · next holder hf =>
      have hkept : s.keptLoaded holder = true := by
        simpa only [Kept, hi, Option.all_some, hf] using hok
      cases ht
      apply AllSpared.setCall (h.nodes rfl)
      refine ⟨hc.1, fun hr => handlerResult_kept raised ?_⟩
      exact hkept ▸ Forward.replied.inj hr
    · cases ht
  | lose i =>
    obtain ⟨c, hc, ht⟩ := Option.bind_eq_some_iff.mp ht
    have hc := h c (List.mem_of_getElem? hc)
    split at ht
    · cases ht
      exact h.setCall i ⟨hc.1, by simp⟩
    · cases ht
  | reply i =>
    obtain ⟨c, hc, ht⟩ := Option.bind_eq_some_iff.mp ht
    have hc := h c (List.mem_of_getElem? hc)
    split at ht
    · next hp hf =>
      cases ht
      exact h.setCall i (hc.forwarded hf)
    · cases ht
  | callFailed i =>
    obtain ⟨c, hc, ht⟩ := Option.bind_eq_some_iff.mp ht
    have hc := h c (List.mem_of_getElem? hc)
    split at ht
    · cases ht
      exact h.setCall i ⟨by simp, hc.2⟩
    · cases ht
  | load n =>
    simp only [State.step] at ht
    split at ht
    · cases ht
    · cases ht
      exact h.nodes rfl
  | unload n =>
    simp only [State.step] at ht
    split at ht
    · cases ht
    · cases ht
      exact h.nodes rfl
  | forget n =>
    simp only [State.step] at ht
    split at ht
    · cases ht
    · cases ht
      exact h.nodes rfl
  | leaseLost n =>
    cases ht
    exact h.nodes rfl
  | lockExpired n =>
    simp only [State.step] at ht
    split at ht
    · cases ht
      exact h.nodes rfl
    · cases ht
  | close n =>
    cases ht
    exact h.nodes rfl

/-- A call starts its handler at most once; `true` means that it ran once to its end under a
lease that was valid then, and `false` that it was not started. -/
structure Truthful (c : Call) : Prop where
  once : c.starts ≤ 1
  ok : c.phase = .returned .ok → c.starts = 1 ∧ c.completed = 1
  refused : ∀ reason, c.phase = .returned (.refused reason) → c.starts = 0

theorem Spared.truthful (h : Spared c) (hc : c.Ok) : Truthful c := by
  refine ⟨hc.starts_le, fun hp => ?_, fun reason hp => ?_⟩
  · rw [Call.Ok, hp] at hc
    rcases hc with ⟨_, hc⟩ | ⟨hr, _⟩
    · exact hc
    · cases hr
  · rw [Call.Ok, hp] at hc
    rcases hc with ⟨_, hc⟩ | ⟨hr, _⟩
    · rw [Result.Tells, if_neg] at hc
      · exact hc
      · rintro rfl
        exact h.1 hp
    · cases hr

/-- As long as no lease is lost under a handler, the result of every call tells the truth. -/
theorem calls_truthful (h : (system conf).Reaches Kept s) : ∀ c ∈ s.calls, Truthful c := by
  have hspared : s.AllSpared := h.invariant (fun s hs => by
    subst hs
    exact fun c hc => absurd hc (by simp [State.empty])) fun _ _ _ hi hok ht => hi.step hok ht
  intro c hc
  exact (hspared c hc).truthful (inv_reaches (h.mono fun _ _ _ => trivial) c hc)

def everywhere : Conf := ⟨fun _ => true⟩

/-- The entity is loaded on node 1; a call made on node 0 is forwarded to it. -/
def forwardedOnce : State :=
  (system everywhere).run Kept empty [.load 1, .entityCall 0, .enter 0 (.lockHeld (some 1)),
    .deliver 0, .finishLoaded 0 false, .reply 0] (by decide +kernel)

theorem calls_truthful_forwarded : (∀ c ∈ forwardedOnce.calls, Truthful c) ∧
    forwardedOnce.calls.map Call.phase = [.returned .ok] :=
  ⟨calls_truthful ((system everywhere).run_reaches Kept _ rfl (by decide +kernel)),
    by decide +kernel⟩

/-- The lease is lost while the handler runs. -/
def leaseLostUnder : State :=
  (system everywhere).run anyStep empty [.entityCall 0, .enter 0 .loaded, .leaseLost 0,
    .finish 0 false] (by decide +kernel)

theorem refused_after_start :
    ¬ ∀ conf s, (system conf).Reaches anyStep s → ∀ c ∈ s.calls, Truthful c := by
  intro h
  have ht := h everywhere leaseLostUnder
    ((system everywhere).run_reaches anyStep _ rfl (by decide +kernel))
  have hc : leaseLostUnder.calls =
      [⟨0, .returned (.refused .leaseExpiredDuringHandler), .none, 1, 0⟩] := by decide +kernel
  rw [hc] at ht
  cases (ht _ (.head _)).refused _ rfl

end State

end EntityCall

end Skyext
