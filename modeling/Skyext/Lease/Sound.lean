import Skyext.Lease.Events
import Skyext.Lease.Service
import Skyext.Lib.Snoc

namespace Skyext
set_option autoImplicit true

open Machine

variable {s t : LeaseWorld}

namespace LeaseWorld

def lostEpochs (s : LeaseWorld) : List Nat := s.published.filterMap (LeaseEvent.lostEpoch? ·.1)

/-- A deadline that the answer to a grant or keepalive of that very lease has confirmed. -/
def Confirmed (s : LeaseWorld) (l : Nat) (d : Int) : Prop :=
  (∃ r sent, s.requests[r]? = some (.grant sent) ∧ (r, .granted l) ∈ s.replies ∧
    d = sent + (leaseTtl - leaseGrace) * 100) ∨
  ∃ r sent ttl, s.requests[r]? = some (.keepalive sent l) ∧ (r, .kept (some ttl)) ∈ s.replies ∧
    0 < ttl ∧ d = sent + (min ttl leaseTtl - leaseGrace) * 100

def Expired (s : LeaseWorld) (l : Nat) : Prop := ∃ x, s.leases[l]? = some x ∧ x.state = .expired

def Live (s : LeaseWorld) (l : Nat) : Prop := ∃ x, s.leases[l]? = some x ∧ x.state = .live

def Ended (s : LeaseWorld) (epoch : Nat) : Prop :=
  ¬ (s.service.leaseid.isSome = true ∧ s.service.epoch = epoch)

/-- The lease of an epoch, numbered from one. -/
def leaseOf (s : LeaseWorld) (epoch : Nat) : Option Nat := s.grants[epoch - 1]?

/-- A lease that was lost or handed to a revoke. -/
def GivenUp (s : LeaseWorld) (l : Nat) : Prop :=
  ∃ epoch, 0 < epoch ∧ s.leaseOf epoch = some l ∧
    (epoch ∈ s.lostEpochs ∨ .revoke l ∈ s.requests)

def ReplyOk (requests : List LeaseRequest) (leases : List EtcdLease) : Nat × LeaseReply → Prop
  | (r, .granted l) => ∃ sent x, requests[r]? = some (.grant sent) ∧ leases[l]? = some x ∧
    sent + leaseTtl * 100 ≤ x.expiry
  | (r, .kept ttl?) => ∃ sent l, requests[r]? = some (.keepalive sent l) ∧
    ∀ ttl, ttl? = some ttl → 0 < ttl → ∃ x, leases[l]? = some x ∧ sent + leaseTtl * 100 ≤ x.expiry
  | (r, .revoked) => ∃ l x, requests[r]? = some (.revoke l) ∧ leases[l]? = some x ∧
    x.state = .revoked

def BeatOk (requests : List LeaseRequest) (service : LeaseService) : Beat → Prop
  | .keepalive started l r => requests[r]? = some (.keepalive started l)
  | .granting started r => requests[r]? = some (.grant started) ∧ service.leaseid = none
  | _ => True

structure Inv (s : LeaseWorld) : Prop where
  sent : ∀ r ∈ s.requests, ∀ time, r = .grant time ∨ (∃ l, r = .keepalive time l) → time ≤ s.now
  leases : ∀ x ∈ s.leases, x.expiry ≤ s.now + leaseTtl * 100 ∧
    (x.state = .expired → x.expiry ≤ s.now)
  replies : ∀ p ∈ s.replies, ReplyOk s.requests s.leases p
  beat : BeatOk s.requests s.service s.beat
  lease : ∀ l, s.service.leaseid = some l →
    (∃ d, s.service.deadline = some d ∧ s.Confirmed l d) ∧ s.leaseOf s.service.epoch = some l
  deadline : s.service.leaseid = none → s.service.deadline = none
  grants : s.grants.length = s.service.epoch
  lost : ∀ epoch ∈ s.lostEpochs, epoch ≤ s.service.epoch ∧
    (s.service.leaseid.isSome = true → epoch ≠ s.service.epoch)
  ended : ∀ epoch, 0 < epoch → epoch ≤ s.service.epoch → s.Ended epoch →
    epoch ∈ s.lostEpochs ∨ epoch ∈ s.shut
  shut : ∀ epoch ∈ s.shut, ∃ l, s.leaseOf epoch = some l ∧ .revoke l ∈ s.requests
  returned : ∀ l, some l ∈ s.returned → ∃ x, s.leases[l]? = some x ∧ x.state = .revoked
  clients : ∀ n, (s.clients n).Ok s.Confirmed s.lostEpochs s.service.epoch

theorem Confirmed.mono (h : s.Confirmed l d)
    (hr : ∀ (i : Nat) r, s.requests[i]? = some r → t.requests[i]? = some r)
    (hp : ∀ p ∈ s.replies, p ∈ t.replies) : t.Confirmed l d := by
  rcases h with ⟨r, sent, hreq, hrep, hd⟩ | ⟨r, sent, ttl, hreq, hrep, hpos, hd⟩
  · exact .inl ⟨r, sent, hr _ _ hreq, hp _ hrep, hd⟩
  · exact .inr ⟨r, sent, ttl, hr _ _ hreq, hp _ hrep, hpos, hd⟩

/-- Leases are kept; their expiry moves only forward, and a revoked one stays revoked. -/
def LeasesLe (old new : List EtcdLease) : Prop :=
  ∀ (l : Nat) x, old[l]? = some x → ∃ y, new[l]? = some y ∧ x.expiry ≤ y.expiry ∧
    (x.state = .revoked → y.state = .revoked)

theorem LeasesLe.refl (leases : List EtcdLease) : LeasesLe leases leases :=
  fun _ x hx => ⟨x, hx, Int.le_refl _, id⟩

theorem LeasesLe.append (leases : List EtcdLease) (x : EtcdLease) :
    LeasesLe leases (leases ++ [x]) := by
  intro l y hy
  have hlt := (List.getElem?_eq_some_iff.mp hy).1
  exact ⟨y, (List.getElem?_append_left hlt).trans hy, Int.le_refl _, id⟩

theorem LeasesLe.set {leases : List EtcdLease} {x y : EtcdLease} (hx : leases[l]? = some x)
    (hlive : x.state = .live) (hle : x.expiry ≤ y.expiry) : LeasesLe leases (leases.set l y) := by
  intro k z hz
  rw [List.getElem?_set]
  split
  · next he =>
    subst he
    cases hx.symm.trans hz
    refine ⟨y, if_pos (List.getElem?_eq_some_iff.mp hx).1, hle, fun hr => ?_⟩
    cases hlive.symm.trans hr
  · exact ⟨z, hz, Int.le_refl _, id⟩

theorem ReplyOk.mono {p : Nat × LeaseReply} {requests requests' : List LeaseRequest}
    {leases leases' : List EtcdLease} (h : ReplyOk requests leases p)
    (hr : ∀ (i : Nat) r, requests[i]? = some r → requests'[i]? = some r)
    (hl : LeasesLe leases leases') :
    ReplyOk requests' leases' p := by
  obtain ⟨r, reply⟩ := p
  cases reply with
  | granted l =>
    obtain ⟨sent, x, hreq, hx, hle⟩ := h
    obtain ⟨y, hy, hexp, _⟩ := hl l x hx
    exact ⟨sent, y, hr _ _ hreq, hy, Int.le_trans hle hexp⟩
  | kept ttl? =>
    obtain ⟨sent, l, hreq, hkept⟩ := h
    refine ⟨sent, l, hr _ _ hreq, fun ttl ht hpos => ?_⟩
    obtain ⟨x, hx, hle⟩ := hkept ttl ht hpos
    obtain ⟨y, hy, hexp, _⟩ := hl l x hx
    exact ⟨y, hy, Int.le_trans hle hexp⟩
  | revoked =>
    obtain ⟨l, x, hreq, hx, hrev⟩ := h
    obtain ⟨y, hy, _, hy'⟩ := hl l x hx
    exact ⟨l, y, hr _ _ hreq, hy, hy' hrev⟩

theorem BeatOk.mono {requests requests' : List LeaseRequest} {service service' : LeaseService}
    {b : Beat} (h : BeatOk requests service b)
    (hr : ∀ (i : Nat) r, requests[i]? = some r → requests'[i]? = some r)
    (hs : service.leaseid = none → service'.leaseid = none) : BeatOk requests' service' b := by
  cases b with
  | keepalive started l r => exact hr _ _ h
  | granting started r => exact ⟨hr _ _ h.1, hs h.2⟩
  | idle => trivial
  | published => trivial
  | granted => trivial

theorem Inv.send (h : s.Inv) (r : LeaseRequest)
    (hr : ∀ time, r = .grant time ∨ (∃ l, r = .keepalive time l) → time ≤ s.now) :
    (s.send r).Inv := by
  have hreq : ∀ (i : Nat) r', s.requests[i]? = some r' → (s.requests ++ [r])[i]? = some r' :=
    fun i r' hi => Snoc.getElem?_mono hi r
  have hcon : ∀ l d, s.Confirmed l d → (s.send r).Confirmed l d :=
    fun l d hc => hc.mono hreq fun _ hp => hp
  refine ⟨fun r' hr' => ?_, h.leases, fun p hp => (h.replies p hp).mono hreq (.refl _),
    h.beat.mono hreq id, fun l hl => ?_, h.deadline, h.grants, h.lost, h.ended, fun e he => ?_,
    h.returned, fun n => (h.clients n).mono hcon (Nat.le_refl _)⟩
  · rcases List.mem_append.mp hr' with hr' | hr'
    · exact h.sent r' hr'
    · cases List.mem_singleton.mp hr'
      exact hr
  · obtain ⟨⟨d, hd, hc⟩, hlease⟩ := h.lease l hl
    exact ⟨⟨d, hd, hcon l d hc⟩, hlease⟩
  · obtain ⟨l, hl, hrev⟩ := h.shut e he
    exact ⟨l, hl, List.mem_append_left _ hrev⟩

theorem Inv.setBeat (h : s.Inv) {b : Beat} (hb : BeatOk s.requests s.service b) :
    { s with beat := b }.Inv :=
  ⟨h.sent, h.leases, h.replies, hb, h.lease, h.deadline, h.grants, h.lost, h.ended, h.shut,
    h.returned, h.clients⟩

theorem Inv.setClient (h : s.Inv) {c : LeaseClient}
    (hc : c.Ok s.Confirmed s.lostEpochs s.service.epoch) : (s.setClient n c).Inv := by
  refine ⟨h.sent, h.leases, h.replies, h.beat, h.lease, h.deadline, h.grants, h.lost, h.ended,
    h.shut, h.returned, fun m => ?_⟩
  simp only [LeaseWorld.setClient, Function.update_apply]
  split
  · exact hc
  · exact h.clients m

theorem Inv.finish (h : s.Inv) : s.finish.Inv :=
  ⟨h.sent, h.leases, h.replies, trivial, h.lease, h.deadline, h.grants, h.lost, h.ended, h.shut,
    h.returned, h.clients⟩

theorem Inv.fault (h : s.Inv) (f : LeaseFault) : { s with faults := f :: s.faults }.Inv :=
  ⟨h.sent, h.leases, h.replies, h.beat, h.lease, h.deadline, h.grants, h.lost, h.ended, h.shut,
    h.returned, h.clients⟩

theorem Inv.event (h : s.Inv) (hl : s.service.leaseid = some l) :
    EventOk s.Confirmed s.lostEpochs s.service.epoch
      (.alive s.service.leaseid s.service.epoch s.service.deadline) ∧
    s.service.epoch ∉ s.lostEpochs := by
  obtain ⟨⟨d, hd, hc⟩, hlease⟩ := h.lease l hl
  have hpos : 0 < s.service.epoch := by
    rw [← h.grants]
    exact Nat.lt_of_le_of_lt (Nat.zero_le _) (List.getElem?_eq_some_iff.mp hlease).1
  exact ⟨⟨⟨l, d, hl, hd, hc⟩, hpos, Nat.le_refl _⟩,
    fun he => (h.lost _ he).2 (Option.isSome_of_eq_some hl) rfl⟩

theorem Inv.publishAlive (h : s.Inv) (hl : s.service.leaseid = some l) :
    s.publishAlive.Inv ∧ s.publishAlive.faults = s.faults := by
  obtain ⟨hev, hnot⟩ := h.event hl
  obtain ⟨⟨d, hd, _⟩, _⟩ := h.lease l hl
  rw [hl, hd] at hev
  simp only [LeaseWorld.publishAlive, hl, hd, Option.isNone_some, Bool.or_self, Bool.false_eq_true,
    if_false]
  refine ⟨⟨h.sent, h.leases, h.replies, h.beat, h.lease, h.deadline, h.grants, h.lost, h.ended,
    h.shut, h.returned, fun n => ?_⟩, rfl⟩
  simp only [LeaseWorld.publish]
  split
  · next hsub =>
    exact (h.clients n).publishAlive hev rfl hnot hsub
  · exact h.clients n

theorem Inv.loseLease (h : s.Inv) (reason : String) : (s.loseLease reason).Inv := by
  refine ⟨h.sent, h.leases, h.replies, h.beat.mono (fun _ _ => id) fun _ => rfl,
    fun l hl => (by cases hl), fun _ => rfl, h.grants, fun e he => ?_, fun e hpos hle hend => ?_,
    h.shut, h.returned, fun n => (h.clients n).publishLost s.service.epoch reason⟩
  · rcases List.mem_cons.mp he with rfl | he
    · exact ⟨Nat.le_refl _, fun hs => by cases hs⟩
    · exact ⟨(h.lost e he).1, fun hs => by cases hs⟩
  · by_cases he : e = s.service.epoch
    · exact .inl (he ▸ .head _)
    · have hend' : s.Ended e := fun hc => he hc.2.symm
      exact (h.ended e hpos hle hend').imp (.tail _) id

theorem Inv.grantLease (h : s.Inv) (hn : s.service.leaseid = none) : s.grantLease.Inv := by
  refine (h.send (.grant s.now) fun time ht => ?_).setBeat ⟨by simp [LeaseWorld.send], hn⟩
  rcases ht with ht | ⟨l, ht⟩
  · cases ht
    exact Int.le_refl _
  · cases ht

theorem Inv.regrant (h : s.Inv) : s.regrant.Inv := by
  unfold LeaseWorld.regrant
  split
  · next hn =>
    simp only [Bool.and_eq_true, Option.isNone_iff_eq_none] at hn
    exact h.grantLease hn.1
  · exact h.finish

theorem Inv.heartbeat (h : s.Inv) : s.heartbeat.Inv := by
  unfold LeaseWorld.heartbeat
  split
  · next l hl =>
    refine (h.send (.keepalive s.now l) fun time ht => ?_).setBeat
      (by simp [BeatOk, LeaseWorld.send])
    rcases ht with ht | ⟨l', ht⟩
    · cases ht
    · cases ht
      exact Int.le_refl _
  · exact h.regrant

theorem Inv.granted (h : s.Inv) (hn : s.service.leaseid = none)
    (hc : s.Confirmed new (started + (leaseTtl - leaseGrace) * 100)) :
    (s.granted started (some new)).Inv ∧ (s.granted started (some new)).faults = s.faults := by
  have hlen : s.grants.length = s.service.epoch := h.grants
  have hof : ∀ e l, s.leaseOf e = some l → (s.grants ++ [new])[e - 1]? = some l := fun e l hl =>
    (List.getElem?_append_left (List.getElem?_eq_some_iff.mp hl).1).trans hl
  have hnew : Inv { s with
      service := { s.service with
        leaseid := some new
        epoch := s.service.epoch + 1
        deadline := some (started + (leaseTtl - leaseGrace) * 100) }
      grants := s.grants ++ [new]
      beat := .granted } := by
    refine ⟨h.sent, h.leases, h.replies, trivial, fun l hl => ?_, fun hl => (by cases hl),
      by simp [hlen], fun e he => ?_, fun e hpos hle hend => ?_, fun e he => ?_, h.returned,
      fun n => (h.clients n).mono (fun _ _ => id) (Nat.le_succ _)⟩
    · cases hl
      exact ⟨⟨_, rfl, hc⟩, by simp [leaseOf, ← hlen]⟩
    · have hle := (h.lost e he).1
      exact ⟨Nat.le_succ_of_le hle, fun _ => Nat.ne_of_lt (Nat.lt_succ_of_le hle)⟩
    · have hne : s.service.epoch + 1 ≠ e := fun hc => hend ⟨rfl, hc⟩
      apply h.ended e hpos (by dsimp only at hle; omega)
      rintro ⟨hs, _⟩
      simp [hn] at hs
    · obtain ⟨l, hl, hrev⟩ := h.shut e he
      exact ⟨l, hof e l hl, hrev⟩
  exact hnew.publishAlive rfl

theorem Inv.notRenewed (h : s.Inv) : s.notRenewed.Inv := by
  unfold LeaseWorld.notRenewed
  split
  · exact (h.fault .compare).finish
  · split
    · exact (h.loseLease _).setBeat trivial
    · exact h.regrant

theorem Inv.renewed (h : s.Inv) (started : Int) (ret : Option (Option Int))
    (hc : ∀ ttl, ret = some (some ttl) → 0 < ttl →
      s.Confirmed l (started + (min ttl leaseTtl - leaseGrace) * 100)) :
    (s.renewed started l ret).Inv := by
  unfold LeaseWorld.renewed
  split
  · exact h.notRenewed
  · next ttl? =>
    split
    · exact (h.loseLease _).setBeat trivial
    · next ttl ht =>
      split
      · exact h.notRenewed
      · next hl =>
        have hl : s.service.leaseid = some l := by simpa using hl
        obtain ⟨rfl, hpos⟩ := Option.filter_eq_some_iff.mp ht
        have hcon := hc ttl rfl (by simpa using hpos)
        have hnew : Inv { s with
            service := { s.service with
              deadline := some (started + (min ttl leaseTtl - leaseGrace) * 100) } } := by
          refine ⟨h.sent, h.leases, h.replies, h.beat.mono (fun _ _ => id) id, fun l' hl' => ?_,
            fun hn => absurd (hl.symm.trans hn) (by simp), h.grants, h.lost, h.ended, h.shut,
            h.returned, h.clients⟩
          cases hl.symm.trans hl'
          exact ⟨⟨_, rfl, hcon⟩, (h.lease l hl).2⟩
        exact (hnew.publishAlive hl).1.setBeat trivial

theorem leaseValid_cases (s : LeaseWorld) :
    (∃ reason, s.leaseValid = (s.loseLease reason, false)) ∨ s.leaseValid = (s, false) ∨
      ∃ l d, s.leaseValid = (s, true) ∧ s.service.leaseid = some l ∧
        s.service.deadline = some d := by
  unfold leaseValid
  split
  · next l d hl hd =>
    split
    · exact .inl ⟨_, rfl⟩
    · exact .inr (.inr ⟨l, d, rfl, hl, hd⟩)
  · exact .inr (.inl rfl)

theorem Inv.get (h : s.Inv) (hsub : (s.clients n).subscribed = true) (k : Nat) :
    (s.get n k).Inv := by
  unfold LeaseWorld.get
  rcases s.leaseValid_cases with ⟨reason, hv⟩ | hv | ⟨l, d, hv, hl, hd⟩
  · simp only [hv, Bool.false_eq_true, if_false]
    exact h.loseLease reason
  · simp only [hv, Bool.false_eq_true, if_false]
    exact h
  · simp only [hv, if_true]
    obtain ⟨hev, hnot⟩ := h.event hl
    exact h.setClient ((h.clients n).insert hev rfl hnot hsub k)

theorem Inv.shutdown (h : s.Inv) : s.shutdown.Inv := by
  unfold LeaseWorld.shutdown
  split
  · next hn =>
    refine ⟨h.sent, h.leases, h.replies, h.beat.mono (fun _ _ => id) fun _ => rfl,
      fun l hl => (by cases hl), fun _ => rfl, h.grants,
      fun e he => ⟨(h.lost e he).1, fun hs => (by cases hs)⟩, fun e hpos hle _ => ?_, h.shut,
      fun l hl => ?_, h.clients⟩
    · apply h.ended e hpos hle
      rintro ⟨hs, _⟩
      simp [hn] at hs
    · exact h.returned l (by simpa using hl)
  · next l hl =>
    have hs := h.send (.revoke l) fun time ht => by
      rcases ht with ht | ⟨l', ht⟩
      · cases ht
      · cases ht
    refine ⟨hs.sent, hs.leases, hs.replies, hs.beat.mono (fun _ _ => id) fun _ => rfl,
      fun l hl => (by cases hl), fun _ => rfl, hs.grants,
      fun e he => ⟨(hs.lost e he).1, fun hc => (by cases hc)⟩, fun e hpos hle _ => ?_,
      fun e he => ?_, hs.returned, hs.clients⟩
    · by_cases he : e = s.service.epoch
      · exact .inr (he ▸ .head _)
      · exact (h.ended e hpos hle fun hc => he hc.2.symm).imp id (.tail _)
    · rcases List.mem_cons.mp he with rfl | he
      · exact ⟨l, (h.lease l hl).2, List.mem_append_right _ (.head _)⟩
      · exact hs.shut e he

theorem Inv.etcd (h : s.Inv) {leases : List EtcdLease} {replies : List (Nat × LeaseReply)}
    (hle : LeasesLe s.leases leases)
    (hleases : ∀ x ∈ leases, x.expiry ≤ s.now + leaseTtl * 100 ∧
      (x.state = .expired → x.expiry ≤ s.now))
    (hreplies : ∀ p ∈ replies, ReplyOk s.requests leases p) :
    { s with leases := leases, replies := s.replies ++ replies }.Inv := by
  have hcon : ∀ l d, s.Confirmed l d →
      Confirmed { s with leases := leases, replies := s.replies ++ replies } l d :=
    fun l d hc => hc.mono (fun _ _ => id) fun _ hp => List.mem_append_left _ hp
  refine ⟨h.sent, hleases, fun p hp => ?_, h.beat, fun l hl => ?_, h.deadline, h.grants, h.lost,
    h.ended, h.shut, fun l hl => ?_, fun n => (h.clients n).mono hcon (Nat.le_refl _)⟩
  · rcases List.mem_append.mp hp with hp | hp
    · exact (h.replies p hp).mono (fun _ _ => id) hle
    · exact hreplies p hp
  · obtain ⟨⟨d, hd, hc⟩, hlease⟩ := h.lease l hl
    exact ⟨⟨d, hd, hcon l d hc⟩, hlease⟩
  · obtain ⟨x, hx, hrev⟩ := h.returned l hl
    obtain ⟨y, hy, _, hy'⟩ := hle l x hx
    exact ⟨y, hy, hy' hrev⟩

theorem Inv.setLease (h : s.Inv) {x y : EtcdLease} (hx : s.leases[l]? = some x)
    (hlive : x.state = .live) (hle : x.expiry ≤ y.expiry)
    (hy : y.expiry ≤ s.now + leaseTtl * 100 ∧ (y.state = .expired → y.expiry ≤ s.now))
    {replies : List (Nat × LeaseReply)}
    (hreplies : ∀ p ∈ replies, ReplyOk s.requests (s.leases.set l y) p) :
    { s with leases := s.leases.set l y, replies := s.replies ++ replies }.Inv := by
  apply h.etcd (.set hx hlive hle) (fun z hz => ?_) hreplies
  rcases List.mem_or_eq_of_mem_set hz with hz | rfl
  · exact h.leases z hz
  · exact hy

theorem Inv.execute (h : s.Inv) {request : LeaseRequest} (hr : s.requests[r]? = some request)
    (ttl : Option Int) : (s.execute r ttl request).Inv := by
  have hmem := List.mem_of_getElem? hr
  cases request with
  | grant sent =>
    have hsent := h.sent _ hmem sent (.inl rfl)
    refine h.etcd (.append _ _) (fun x hx => ?_) fun p hp => ?_
    · rcases List.mem_append.mp hx with hx | hx
      · exact h.leases x hx
      · cases List.mem_singleton.mp hx
        exact ⟨Int.le_refl _, fun hc => by cases hc⟩
    · cases List.mem_singleton.mp hp
      refine ⟨sent, _, hr, List.getElem?_concat_length .., ?_⟩
      dsimp only
      omega
  | keepalive sent l =>
    have hsent := h.sent _ hmem sent (.inr ⟨l, rfl⟩)
    simp only [LeaseWorld.execute]
    split
    · next expiry hx =>
      have hold := h.leases _ (List.mem_of_getElem? hx)
      refine h.setLease hx rfl hold.1 ⟨Int.le_refl _, fun hc => (by cases hc)⟩ fun p hp => ?_
      cases List.mem_singleton.mp hp
      refine ⟨sent, l, hr, fun t _ _ =>
        ⟨_, List.getElem?_set_self (List.getElem?_eq_some_iff.mp hx).1, ?_⟩⟩
      dsimp only
      omega
    · refine h.etcd (.refl _) h.leases fun p hp => ?_
      cases List.mem_singleton.mp hp
      refine ⟨sent, l, hr, fun t ht hpos => ?_⟩
      have hle := (Option.filter_eq_some_iff.mp ht).2
      simp only [decide_eq_true_eq] at hle
      omega
  | revoke l =>
    simp only [LeaseWorld.execute]
    split
    · next expiry hx =>
      have hold := h.leases _ (List.mem_of_getElem? hx)
      refine h.setLease (y := ⟨expiry, .revoked⟩) hx rfl (Int.le_refl _)
        ⟨hold.1, fun hc => (by cases hc)⟩ fun p hp => ?_
      cases List.mem_singleton.mp hp
      exact ⟨l, _, hr, List.getElem?_set_self (List.getElem?_eq_some_iff.mp hx).1, rfl⟩
    · exact h

theorem Inv.init (h : system.init s) : s.Inv := by
  obtain ⟨now, rfl⟩ := h
  refine ⟨fun r hr time ht => ?_, fun x hx => absurd hx List.not_mem_nil,
    fun p hp => absurd hp List.not_mem_nil, ⟨rfl, rfl⟩, fun l hl => (by cases hl),
    fun _ => rfl, rfl,
    fun e he => absurd he List.not_mem_nil, fun e hpos hle => absurd hle (Nat.not_le_of_lt hpos),
    fun e he => absurd he List.not_mem_nil, fun l hl => absurd hl List.not_mem_nil, fun _ => .init⟩
  cases List.mem_singleton.mp hr
  rcases ht with ht | ⟨l, ht⟩
  · cases ht
    exact Int.le_refl _
  · cases ht

theorem Inv.confirmed_granted (h : s.Inv) (hb : s.beat = .granting started r)
    (hr : (r, .granted l) ∈ s.replies) :
    s.Confirmed l (started + (leaseTtl - leaseGrace) * 100) := by
  have hbeat := h.beat
  rw [hb] at hbeat
  exact .inl ⟨r, started, hbeat.1, hr, rfl⟩

theorem Inv.confirmed_kept (h : s.Inv) (hb : s.beat = .keepalive started l r)
    (hr : (r, .kept (some ttl)) ∈ s.replies) (hpos : 0 < ttl) :
    s.Confirmed l (started + (min ttl leaseTtl - leaseGrace) * 100) := by
  have hbeat := h.beat
  rw [hb] at hbeat
  exact .inr ⟨r, started, ttl, hbeat, hr, hpos, rfl⟩

theorem Inv.granting (h : s.Inv) (hb : s.beat = .granting started r) :
    s.service.leaseid = none := by
  have hbeat := h.beat
  rw [hb] at hbeat
  exact hbeat.2

theorem Inv.step (h : s.Inv) (ht : s.step a = some t) : t.Inv := by
  cases a with
  | tick d =>
    cases ht
    refine ⟨fun r hr time hs => ?_, fun x hx => ?_, h.replies, h.beat, h.lease, h.deadline,
      h.grants,
      h.lost, h.ended, h.shut, h.returned, h.clients⟩
    · have := h.sent r hr time hs
      dsimp only
      omega
    · obtain ⟨hle, hexp⟩ := h.leases x hx
      refine ⟨by dsimp only; omega, fun he => ?_⟩
      have := hexp he
      dsimp only
      omega
  | heartbeat =>
    simp only [LeaseWorld.step, Option.ite_none_right_eq_some] at ht
    cases ht.2
    exact h.heartbeat
  | reply i =>
    simp only [LeaseWorld.step] at ht
    split at ht
    · next r' l started r hi hb =>
      obtain ⟨rfl, he⟩ := Option.ite_none_right_eq_some.mp ht
      cases he
      exact (h.granted (h.granting hb) (h.confirmed_granted hb (List.mem_of_getElem? hi))).1
    · next r' ttl started l r hi hb =>
      obtain ⟨rfl, he⟩ := Option.ite_none_right_eq_some.mp ht
      cases he
      refine h.renewed started _ fun ttl' hs hpos => ?_
      cases hs
      exact h.confirmed_kept hb (List.mem_of_getElem? hi) hpos
    · cases ht
  | fail =>
    simp only [LeaseWorld.step] at ht
    split at ht
    · cases ht
      exact h.finish
    · cases ht
      exact h.renewed _ _ fun ttl he => by cases he
    · cases ht
  | published =>
    simp only [LeaseWorld.step] at ht
    split at ht
    · cases ht
      exact h.regrant
    · cases ht
      exact h.finish
    · cases ht
  | execute r ttl =>
    obtain ⟨request, hr, rfl⟩ := Option.map_eq_some_iff.mp ht
    exact h.execute hr ttl
  | expire l =>
    simp only [LeaseWorld.step] at ht
    split at ht
    · next expiry hx =>
      obtain ⟨hle, ht⟩ := Option.ite_none_right_eq_some.mp ht
      cases ht
      have hold := h.leases _ (List.mem_of_getElem? hx)
      have hnil : ∀ p ∈ ([] : List (Nat × LeaseReply)),
          ReplyOk s.requests (s.leases.set l ⟨expiry, .expired⟩) p := List.forall_mem_nil _
      have hnew := h.setLease (y := ⟨expiry, .expired⟩) hx rfl (Int.le_refl _)
        ⟨hold.1, fun _ => hle⟩ hnil
      rwa [List.append_nil] at hnew
    · cases ht
  | subscribe n =>
    simp only [LeaseWorld.step, Option.ite_none_right_eq_some] at ht
    cases ht.2
    have hc := h.clients n
    exact h.setClient ⟨hc.events, hc.order, hc.heard, hc.lease, hc.seen, hc.told,
      fun hs => (by cases hs)⟩
  | get n k =>
    simp only [LeaseWorld.step, Option.ite_none_right_eq_some] at ht
    cases ht.2
    exact h.get ht.1 k
  | deliver n =>
    obtain ⟨c, hc, rfl⟩ := Option.map_eq_some_iff.mp ht
    exact h.setClient ((h.clients n).deliver hc)
  | valid n =>
    cases ht
    exact h.setClient ((h.clients n).valid s.now)
  | onLost n name =>
    cases ht
    have hc := h.clients n
    exact h.setClient ⟨hc.events, hc.order, hc.heard, hc.lease, hc.seen, hc.told, hc.fresh⟩
  | shutdown =>
    simp only [LeaseWorld.step, Option.ite_none_right_eq_some] at ht
    cases ht.2
    exact h.shutdown
  | shutdownReply i =>
    simp only [LeaseWorld.step] at ht
    split at ht
    · next r hi =>
      obtain ⟨_, ht⟩ := Option.ite_none_right_eq_some.mp ht
      split at ht
      · next l hr =>
        cases ht
        refine ⟨h.sent, h.leases, h.replies, h.beat, h.lease, h.deadline, h.grants, h.lost, h.ended,
          h.shut, fun l' hl' => ?_, h.clients⟩
        rcases List.mem_cons.mp hl' with hl' | hl'
        · cases hl'
          obtain ⟨l₀, x, hr', hx, hrev⟩ := h.replies _ (List.mem_of_getElem? hi)
          cases hr.symm.trans hr'
          exact ⟨x, hx, hrev⟩
        · exact h.returned l' hl'
      · cases ht
    · cases ht
  | shutdownFail r =>
    simp only [LeaseWorld.step, Option.ite_none_right_eq_some] at ht
    cases ht.2
    exact ⟨h.sent, h.leases, h.replies, h.beat, h.lease, h.deadline, h.grants, h.lost, h.ended,
      h.shut, h.returned, h.clients⟩

theorem inv_reaches (h : system.Reaches ok s) : s.Inv :=
  h.invariant (fun _ => Inv.init) fun _ _ _ hi _ ht => hi.step ht

end LeaseWorld

end Skyext
