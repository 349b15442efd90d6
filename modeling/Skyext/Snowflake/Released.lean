import Skyext.Lib.Snoc
import Skyext.Snowflake.MachineSlot

namespace Skyext
set_option autoImplicit true

namespace MachineSlot
open Machine

namespace SlotState

variable {s t : SlotState} {conf : SlotConf}

/-- The reply ends the round of the claim without a slot: an error, a lease that has changed, or
the last slot held by somebody else. -/
def endsRound (s : SlotState) (rest : List Nat) (epoch : Nat) : Option Outcome → Bool
  | none => true
  | some outcome =>
    !s.leaseValid || decide (epoch ≠ s.epoch) || rest.isEmpty &&
      match outcome with
      | .succeeded _ => false
      | .found (.own e _) => decide (e ≠ epoch)
      | .found .other => true

/-- A reply that comes after `release` was called ends the round. -/
def Undisturbed (s : SlotState) : Action → Prop
  | .reply ok =>
    match s.claim with
    | .waiting _ _ rest epoch outcome =>
      s.released = true → s.endsRound rest epoch (if ok then outcome else none) = true
    | _ => True
  | _ => True

instance : Decidable (s.Undisturbed a) := by
  unfold Undisturbed
  split
  · split <;> infer_instance
  · infer_instance

/-- The slot is given up for good: it is not valid, nothing has been claimed since, a lock handle
still valid is being unlocked, and a key still in etcd goes with its lease. -/
structure StaysReleased (conf : SlotConf) (s : SlotState) : Prop where
  invalid : s.valid = false
  claims : s.late = 0
  locks : ∀ h, s.isValid h = true → ∃ u ∈ s.unlocks, u.handle = h
  lease : ∀ id epoch revision t, s.etcd id = some (.own epoch revision) →
    step conf s (.leaseEnds epoch) = some t → t.etcd id = none

def Live (s : SlotState) (h : Nat) (hd : Handle) : Prop :=
  s.handles[h]? = some hd ∧ hd.valid = true

end SlotState

variable {s t : SlotState} {conf : SlotConf}

structure Inv (s : SlotState) : Prop where
  free : s.released = true → s.id = none
  both : s.id = none → s.handle = none
  waiting : ∀ exclude id rest epoch outcome,
    s.claim = .waiting exclude id rest epoch outcome → s.id = none ∧ s.unlocks = []
  live : ∀ h hd, s.Live h hd →
    s.leaseValid = true ∧ hd.epoch = s.epoch ∧ s.locks hd.slot = some h
  owned : ∀ h hd, s.Live h hd → s.handle = some h ∨ ∃ u ∈ s.unlocks, u.handle = h
  late : s.late = 0
  unlocks : s.unlocks ≠ [] → s.released = true
  returned : s.returned = true → s.released = true

theorem Inv.isValid (h : Inv s) (hl : s.Live k hd) : s.isValid k = true := by
  obtain ⟨hlease, hepoch, hlock⟩ := h.live k hd hl
  simp [SlotState.isValid, hl.1, hl.2, hlease, hepoch, hlock]

theorem isValid_live (h : s.isValid k = true) : ∃ hd, s.Live k hd := by
  rw [SlotState.isValid] at h
  split at h
  · next hd hk =>
    simp only [Bool.and_eq_true] at h
    exact ⟨hd, hk, h.1.1.1⟩
  · cases h

namespace Inv

theorem idle (h : Inv s) : Inv { s with claim := .idle } :=
  { h with waiting := by rintro _ _ _ _ _ ⟨⟩ }

theorem looping (h : Inv s) (exclude : Option Nat) : Inv { s with claim := .looping exclude } :=
  { h with waiting := by rintro _ _ _ _ _ ⟨⟩ }

theorem acquire (h : Inv s) (exclude : Option Nat) : Inv (s.acquire exclude) := by
  rw [SlotState.acquire]
  split
  · exact h
  · exact h.looping exclude

theorem no_unlock (h : Inv s) (hr : s.released = false) : s.unlocks = [] := by
  by_contra hne
  cases hr.symm.trans (h.unlocks hne)

theorem owned_free (h : Inv s) (hid : s.id = none) (hl : s.Live k hd) :
    ∃ u ∈ s.unlocks, u.handle = k := by
  refine (h.owned k hd hl).resolve_left ?_
  rw [h.both hid]
  rintro ⟨⟩

theorem claims_eq (hr : s.released = false) : s.claims = s := by
  rw [SlotState.claims, hr]
  rfl

theorem granted (h : Inv s) (hr : s.released = false) (hid : s.id = none) (id k : Nat) :
    Inv (s.granted id k) := by
  rw [SlotState.granted, claims_eq hr]
  refine { h with free := ?_, both := ?_, waiting := ?_, owned := ?_ }
  · intro hr'
    cases hr.symm.trans hr'
  · rintro ⟨⟩
  · rintro _ _ _ _ _ ⟨⟩
  · intro k' hd hl
    exact .inr (h.owned_free hid hl)

theorem tryClaim (h : Inv s) (hr : s.released = false) (hid : s.id = none)
    (exclude : Option Nat) (ids : List Nat) : Inv (s.tryClaim exclude ids) := by
  cases ids with
  | nil => exact h.looping exclude
  | cons id rest =>
    rw [SlotState.tryClaim]
    split
    · exact h.granted hr hid _ _
    · rw [claims_eq hr]
      split
      · exact { h with waiting := fun _ _ _ _ _ _ => ⟨hid, h.no_unlock hr⟩ }
      · exact h.looping exclude

theorem newHandle (h : Inv s) (hr : s.released = false) (hid : s.id = none)
    (hlease : s.leaseValid = true) (hnone : (s.locks slot).filter s.isValid = none)
    (revision : Nat) : Inv (s.newHandle slot revision) := by
  have hnot : ∀ k hd, s.Live k hd → hd.slot ≠ slot := by
    rintro k hd hl rfl
    have hlock := (h.live k hd hl).2.2
    rw [hlock, Option.filter_some, if_pos (h.isValid hl)] at hnone
    cases hnone
  have heq : s.newHandle slot revision = { s with
      handles := s.handles ++ [Handle.mk slot s.epoch revision true]
      locks := Function.update s.locks slot (some s.handles.length)
      id := some slot, handle := some s.handles.length, claim := .idle } := by
    simp only [SlotState.newHandle, SlotState.granted, SlotState.claims, hr]
    rfl
  have hold : ∀ k hd, (s.handles ++ [Handle.mk slot s.epoch revision true])[k]? = some hd →
      hd.valid = true →
        s.Live k hd ∨ k = s.handles.length ∧ hd.slot = slot ∧ hd.epoch = s.epoch := by
    intro k hd hk hv
    rcases Snoc.getElem?_snoc.mp hk with hk | ⟨rfl, rfl⟩
    · exact .inl ⟨hk, hv⟩
    · exact .inr ⟨rfl, rfl, rfl⟩
  rw [heq]
  constructor
  case free =>
    intro hr'
    cases hr.symm.trans hr'
  case both => rintro ⟨⟩
  case waiting => rintro _ _ _ _ _ ⟨⟩
  case live =>
    rintro k hd ⟨hk, hv⟩
    rcases hold k hd hk hv with hl | ⟨rfl, rfl, hepoch⟩
    · obtain ⟨_, hepoch, hlock⟩ := h.live k hd hl
      exact ⟨hlease, hepoch, by simpa only [Function.update_of_ne (hnot k hd hl)] using hlock⟩
    · exact ⟨hlease, hepoch, by simp⟩
  case owned =>
    rintro k hd ⟨hk, hv⟩
    rcases hold k hd hk hv with hl | ⟨rfl, _⟩
    · exact .inr (h.owned_free hid hl)
    · exact .inl rfl
  case late => exact h.late
  case unlocks => exact h.unlocks
  case returned => exact h.returned

theorem claimReply (h : Inv s) (hr : s.released = false) (hid : s.id = none)
    (exclude : Option Nat) (slot : Nat) (rest : List Nat) (epoch : Nat) (reply : Option Outcome) :
    Inv (s.claimReply exclude slot rest epoch reply) := by
  cases reply with
  | none => exact h.looping exclude
  | some outcome =>
    simp only [SlotState.claimReply]
    split
    · exact h.looping exclude
    · next hlease =>
      obtain ⟨hlease, _⟩ := not_or.mp hlease
      split
      · exact h.granted hr hid _ _
      · next hnone =>
        have hnew := fun revision =>
          h.newHandle hr hid (Bool.eq_true_of_not_eq_false hlease) hnone revision
        cases outcome with
        | succeeded revision => exact hnew revision
        | found owner =>
          cases owner with
          | other => exact h.tryClaim hr hid exclude rest
          | own e revision =>
            simp only
            split
            · exact hnew revision
            · exact h.tryClaim hr hid exclude rest

/-- A reply that ends the round leaves the claim to its loop. -/
theorem claimReply_ends (hends : s.endsRound rest epoch reply = true)
    (hnone : (s.locks slot).filter s.isValid = none) :
    s.claimReply exclude slot rest epoch reply = { s with claim := .looping exclude } := by
  cases reply with
  | none => rfl
  | some outcome =>
    simp only [SlotState.claimReply]
    split
    · rfl
    · next hlease =>
      obtain ⟨hlease, hepoch⟩ := not_or.mp hlease
      have hl := Bool.eq_true_of_not_eq_false hlease
      simp only [SlotState.endsRound, hl, Bool.not_true, Bool.false_or,
        decide_eq_false (not_not.mp hepoch |> not_not_intro), Bool.and_eq_true,
        List.isEmpty_iff] at hends
      obtain ⟨rfl, hout⟩ := hends
      rw [hnone]
      cases outcome with
      | succeeded revision => cases hout
      | found owner =>
        cases owner with
        | other => rfl
        | own e revision =>
          simp only
          rw [if_neg (of_decide_eq_true hout)]
          rfl

theorem release (h : Inv s) : Inv s.release := by
  cases hf : s.handle.filter s.isValid with
  | none =>
    simp only [SlotState.release, hf]
    refine { h with
      free := fun _ => rfl
      both := fun _ => rfl
      waiting := fun a b c d e hw => ⟨rfl, (h.waiting a b c d e hw).2⟩
      owned := ?_
      unlocks := fun _ => rfl
      returned := fun _ => rfl }
    intro k hd hl
    refine .inr ((h.owned k hd hl).resolve_left fun hk => ?_)
    rw [hk, Option.filter_some, if_pos (h.isValid hl)] at hf
    cases hf
  | some held =>
    simp only [SlotState.release, hf]
    obtain ⟨hheld, _⟩ := Option.filter_eq_some_iff.mp hf
    refine { h with
      free := fun _ => rfl
      both := fun _ => rfl
      waiting := ?_
      owned := ?_
      unlocks := fun _ => rfl
      returned := fun _ => rfl }
    · intro a b c d e hw
      rw [h.both (h.waiting a b c d e hw).1] at hheld
      cases hheld
    · intro k hd hl
      rcases h.owned k hd hl with hk | ⟨u, hu, he⟩
      · rw [hheld] at hk
        cases hk
        exact .inr ⟨_, List.mem_append_right _ (List.mem_singleton_self _), rfl⟩
      · exact .inr ⟨u, List.mem_append_left _ hu, he⟩

theorem onLost (h : Inv s) (hdead : ∀ k hd, ¬ s.Live k hd) (slot : Nat) : Inv (s.onLost slot) := by
  rw [SlotState.onLost]
  split
  · exact h
  · exact { h with
      free := fun _ => rfl
      both := fun _ => rfl
      waiting := fun a b c d e hw => ⟨rfl, (h.waiting a b c d e hw).2⟩
      owned := fun k hd hl => absurd hl (hdead k hd) }

theorem not_live_map (s : SlotState) (hh : t.handles = s.handles.map fun hd =>
    { hd with valid := false }) : ∀ k hd, ¬ t.Live k hd := by
  rintro k hd ⟨hk, hv⟩
  rw [hh, List.getElem?_map] at hk
  obtain ⟨hd', _, rfl⟩ := Option.map_eq_some_iff.mp hk
  cases hv

theorem leaseLost (h : Inv s) : Inv s.leaseLost ∧ ∀ k hd, ¬ s.leaseLost.Live k hd := by
  have hdead := not_live_map (t := { s with
    leaseValid := false
    locks := fun _ => none
    handles := s.handles.map fun hd => { hd with valid := false } }) s rfl
  have hinv : Inv { s with
      leaseValid := false
      locks := fun _ => none
      handles := s.handles.map fun hd => { hd with valid := false } } :=
    { h with
      live := fun k hd hl => absurd hl (hdead k hd)
      owned := fun k hd hl => absurd hl (hdead k hd) }
  rw [SlotState.leaseLost, SlotState.invalidateAll]
  split
  · split
    · refine ⟨hinv.onLost hdead _, ?_⟩
      rw [SlotState.onLost]
      split <;> exact hdead
    · exact ⟨hinv, hdead⟩
  · exact ⟨hinv, hdead⟩

theorem leaseLost_valid (s : SlotState) : s.leaseLost.leaseValid = false := by
  rw [SlotState.leaseLost, SlotState.invalidateAll]
  split
  · split
    · rw [SlotState.onLost]
      split <;> rfl
    · rfl
  · rfl

theorem leaseAlive (h : Inv s) (epoch : Nat) (hepoch : s.leaseValid = true → epoch = s.epoch) :
    Inv { s with leaseValid := true, epoch := epoch } := by
  refine { h with live := ?_ }
  intro k hd hl
  obtain ⟨hlease, he, hlock⟩ := h.live k hd hl
  exact ⟨rfl, he.trans (hepoch hlease).symm, hlock⟩

theorem dropHandle (h : Inv s) (hlock : s.locks hd.slot = some k) : Inv (s.dropHandle k hd) := by
  have hold : ∀ k' hd', (s.dropHandle k hd).Live k' hd' → s.Live k' hd' ∧ k' ≠ k := by
    rintro k' hd' ⟨hk', hv⟩
    rcases Snoc.getElem?_set_cases hk' with ⟨_, rfl⟩ | ⟨hne, hk'⟩
    · cases hv
    · exact ⟨⟨hk', hv⟩, Ne.symm hne⟩
  refine { h with live := ?_, owned := fun k' hd' hl => h.owned k' hd' (hold k' hd' hl).1 }
  intro k' hd' hl
  obtain ⟨hl, hne⟩ := hold k' hd' hl
  obtain ⟨hlease, hepoch, hlock'⟩ := h.live k' hd' hl
  refine ⟨hlease, hepoch, ?_⟩
  have hslot : hd'.slot ≠ hd.slot := by
    intro he
    rw [he, hlock] at hlock'
    exact hne (Option.some.inj hlock').symm
  simpa only [SlotState.dropHandle, Function.update_of_ne hslot] using hlock'

theorem unlocked (h : Inv s) (hu : s.unlocks[i]? = some u)
    (hdead : ∀ hd, ¬ s.Live u.handle hd) : Inv { s with unlocks := s.unlocks.eraseIdx i } := by
  refine { h with waiting := ?_, owned := ?_, unlocks := ?_ }
  · intro a b c d e hw
    rw [(h.waiting a b c d e hw).2] at hu
    cases hu
  · intro k hd hl
    refine (h.owned k hd hl).imp_right ?_
    rintro ⟨v, hv, rfl⟩
    obtain ⟨j, hj⟩ := List.mem_iff_getElem?.mp hv
    have hne : j ≠ i := by
      rintro rfl
      cases Option.some.inj (hu.symm.trans hj)
      exact hdead hd hl
    refine ⟨v, ?_, rfl⟩
    exact List.mem_eraseIdx_iff_getElem?.mpr ⟨j, hne, hj⟩
  · intro _
    exact h.unlocks (by rintro he; rw [he] at hu; cases hu)

theorem not_live_drop (s : SlotState) (k : Nat) (hd hd' : Handle) :
    ¬ (s.dropHandle k hd).Live k hd' := by
  rintro ⟨hk, hv⟩
  rcases Snoc.getElem?_set_cases hk with ⟨_, rfl⟩ | ⟨hne, _⟩
  · cases hv
  · exact hne rfl

theorem unlockReply (h : Inv s) (hu : s.unlocks[i]? = some u) (hk : s.handles[u.handle]? = some hd)
    (ok : Bool) :
    Inv (SlotState.unlockReply { s with unlocks := s.unlocks.eraseIdx i } u.handle hd ok) := by
  have hr : s.released = true := h.unlocks (by rintro he; rw [he] at hu; cases hu)
  have hdropped : s.locks hd.slot = some u.handle → Inv { s.dropHandle u.handle hd with
      unlocks := s.unlocks.eraseIdx i, returned := true } := by
    intro hlock
    have hinv := (h.dropHandle hlock).unlocked (i := i) (u := u) hu fun hd' => not_live_drop _ _ _ _
    exact { hinv with returned := fun _ => hr }
  have hkept : (∀ hd', ¬ s.Live u.handle hd') →
      Inv { s with unlocks := s.unlocks.eraseIdx i, returned := true } := by
    intro hdead
    exact { h.unlocked hu hdead with returned := fun _ => hr }
  cases ok with
  | true =>
    simp only [SlotState.unlockReply, if_true]
    split
    · next hv =>
      obtain ⟨hd', hl⟩ := isValid_live (s := s) hv
      cases Option.some.inj (hk.symm.trans hl.1)
      exact hdropped (h.live _ _ hl).2.2
    · next hv => exact hkept fun hd' hl => hv (h.isValid hl)
  | false =>
    simp only [SlotState.unlockReply, Bool.false_eq_true, if_false]
    split
    · next hlock =>
      rw [SlotState.onLost, if_pos (.inl hr)]
      exact hdropped hlock
    · next hlock =>
      refine hkept fun hd' hl => hlock ?_
      cases Option.some.inj (hk.symm.trans hl.1)
      exact (h.live _ _ hl).2.2

theorem step (h : Inv s) (hok : s.Undisturbed a) (hstep : SlotState.step conf s a = some t) :
    Inv t := by
  cases a with
  | acquire exclude =>
    cases hstep
    exact h.acquire exclude
  | startFork k =>
    obtain ⟨exclude, _, ⟨⟩⟩ := Option.bind_eq_some_iff.mp hstep
    have hforked : Inv { s with forked := s.forked.eraseIdx k } := { h with }
    exact hforked.acquire exclude
  | loop =>
    rw [SlotState.step] at hstep
    split at hstep
    · next exclude _ =>
      split at hstep
      · next hfree =>
        cases hstep
        exact h.tryClaim hfree.2 hfree.1 exclude _
      · cases hstep
        exact h.idle
    · cases hstep
  | execute =>
    rw [SlotState.step] at hstep
    split at hstep
    · next hclaim =>
      have hw := h.waiting _ _ _ _ _ hclaim
      split at hstep
      · cases hstep
        exact { h with waiting := fun _ _ _ _ _ _ => hw }
      · split at hstep
        · cases hstep
        · cases hstep
          exact { h with waiting := fun _ _ _ _ _ _ => hw }
    · cases hstep
  | reply ok =>
    rw [SlotState.step] at hstep
    split at hstep
    · next exclude slot rest epoch outcome hclaim =>
      obtain ⟨hid, hnone⟩ := h.waiting _ _ _ _ _ hclaim
      split at hstep
      · cases hstep
      · cases hstep
        cases hr : s.released with
        | false => exact h.claimReply hr hid _ _ _ _ _
        | true =>
          simp only [SlotState.Undisturbed, hclaim] at hok
          have hlock : (s.locks slot).filter s.isValid = none := by
            refine Option.filter_eq_none_iff.mpr fun k _ hv => ?_
            obtain ⟨hd, hl⟩ := isValid_live hv
            obtain ⟨u, hu, _⟩ := h.owned_free hid hl
            rw [hnone] at hu
            cases hu
          rw [claimReply_ends (hok hr) hlock]
          exact h.looping exclude
    · cases hstep
  | release =>
    cases hstep
    exact h.release
  | executeUnlock k =>
    obtain ⟨u, hu, hstep⟩ := Option.bind_eq_some_iff.mp hstep
    obtain ⟨hd, hk, hstep⟩ := Option.bind_eq_some_iff.mp hstep
    obtain ⟨_, ⟨⟩⟩ := Option.ite_none_left_eq_some.mp hstep
    refine { h with waiting := ?_, owned := ?_, unlocks := ?_ }
    · intro a b c d e hw
      rw [(h.waiting a b c d e hw).2] at hu
      cases hu
    · intro k' hd' hl
      refine (h.owned k' hd' hl).imp_right ?_
      rintro ⟨v, hv, rfl⟩
      obtain ⟨j, hj⟩ := List.mem_iff_getElem?.mp hv
      by_cases hjk : k = j
      · subst hjk
        cases Option.some.inj (hu.symm.trans hj)
        obtain ⟨hlt, _⟩ := List.getElem?_eq_some_iff.mp hu
        exact ⟨_, List.mem_of_getElem? (List.getElem?_set_self hlt), rfl⟩
      · exact ⟨v, List.mem_of_getElem? ((List.getElem?_set_ne hjk).trans hj), rfl⟩
    · intro _
      exact h.unlocks (by rintro he; rw [he] at hu; cases hu)
  | replyUnlock k ok =>
    obtain ⟨u, hu, hstep⟩ := Option.bind_eq_some_iff.mp hstep
    obtain ⟨hd, hk, hstep⟩ := Option.bind_eq_some_iff.mp hstep
    obtain ⟨_, ⟨⟩⟩ := Option.ite_none_left_eq_some.mp hstep
    exact h.unlockReply hu hk _
  | leaseLost =>
    cases hstep
    exact h.leaseLost.1
  | leaseAlive epoch =>
    cases hstep
    split
    · refine h.leaseLost.1.leaseAlive epoch fun hl => ?_
      cases (leaseLost_valid s).symm.trans hl
    · next hsame => exact h.leaseAlive epoch fun hl => by_contra fun hne => hsame ⟨hl, hne⟩
  | leaseEnds epoch =>
    cases hstep
    exact { h with }
  | otherLock slot =>
    obtain ⟨_, ⟨⟩⟩ := Option.ite_none_right_eq_some.mp hstep
    exact { h with }
  | otherUnlock slot =>
    obtain ⟨_, ⟨⟩⟩ := Option.ite_none_right_eq_some.mp hstep
    exact { h with }

end Inv

theorem reaches_inv (h : (system conf).Reaches SlotState.Undisturbed s) : Inv s := by
  refine h.invariant ?_ fun s a t hs hok hstep => hs.step hok hstep
  rintro _ rfl
  constructor
  case free => rintro ⟨⟩
  case both => exact fun _ => rfl
  case waiting => rintro _ _ _ _ _ ⟨⟩
  case live => rintro _ _ ⟨⟨⟩, _⟩
  case owned => rintro _ _ ⟨⟨⟩, _⟩
  case late => rfl
  case unlocks => exact fun hne => absurd rfl hne
  case returned => rintro ⟨⟩

/-- As long as no reply after the release grants a slot or sends a claim on, a released slot
stays released. -/
theorem released_stays (h : (system conf).Reaches SlotState.Undisturbed s)
    (hret : s.returned = true) : s.StaysReleased conf := by
  have hinv := reaches_inv h
  have hid := hinv.free (hinv.returned hret)
  refine ⟨?_, hinv.late, ?_, ?_⟩
  · rw [SlotState.valid, hinv.both hid]
    rfl
  · intro k hv
    obtain ⟨hd, hl⟩ := isValid_live hv
    exact hinv.owned_free hid hl
  · intro id epoch revision t hkey hstep
    cases hstep
    simp [hkey]

/-- A slot is acquired with a live lease and given back, and its key is gone from etcd. -/
theorem released_stays_unlocked : ∃ s, (system ⟨256, 7⟩).Reaches SlotState.Undisturbed s ∧
    s.etcd 7 = none ∧ s.StaysReleased ⟨256, 7⟩ :=
  have hr := (system ⟨256, 7⟩).run_reaches SlotState.Undisturbed
    [.leaseAlive 1, .acquire none, .loop, .execute, .reply true, .release, .executeUnlock 0,
      .replyUnlock 0 true] rfl (by decide +kernel)
  ⟨_, hr, by decide +kernel, released_stays hr (by decide +kernel)⟩

/-- `release` returns while the claim waits for etcd, whose answer then makes the slot valid. -/
theorem released_claims : ¬ ∀ conf s, (system conf).Reaches anyStep s → s.returned = true →
    s.StaysReleased conf := by
  intro hall
  have hr := (system ⟨256, 7⟩).run_reaches anyStep
    [.leaseAlive 1, .acquire none, .loop, .release, .execute, .reply true] rfl (by decide +kernel)
  exact absurd (hall _ _ hr (by decide +kernel)).invalid (by decide +kernel)

end MachineSlot
end Skyext
