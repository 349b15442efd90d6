import Skyext.Lease.Sound

namespace Skyext
set_option autoImplicit true

open Machine

variable {s t : LeaseWorld}

namespace LeaseWorld

def answered (s : LeaseWorld) (r : Nat) : Bool := s.replies.any fun p => p.1 == r

/-- Every grant that etcd carries out is answered to the heartbeat that waits for it; a keepalive
that is not answered with the loss of its lease finds the lease in place; no shutdown starts while a
grant is under way; and no client hears that an epoch is alive that it has given up. -/
def settled (s : LeaseWorld) : LeaseAction → Bool
  | .execute r _ =>
    match s.requests[r]? with
    | some (.grant _) => s.waiting == some r && !s.answered r
    | _ => true
  | .reply i =>
    match s.replies[i]?, s.beat with
    | some (_, .kept (some ttl)), .keepalive .. => ttl ≤ 0 || s.service.deadline.isSome
    | _, _ => true
  | .fail =>
    match s.beat with
    | .keepalive .. => s.service.deadline.isSome
    | .granting _ r => !s.answered r
    | _ => true
  | .shutdown =>
    match s.beat with
    | .granting .. => false
    | _ => true
  | .deliver n =>
    ((s.clients n).queue.head?.bind LeaseEvent.aliveEpoch?).all fun epoch =>
      epoch ∉ (s.clients n).lostEpochs
  | _ => true

def Settled (s : LeaseWorld) (a : LeaseAction) : Prop := s.settled a = true

instance (s : LeaseWorld) (a : LeaseAction) : Decidable (s.Settled a) :=
  inferInstanceAs (Decidable (_ = true))

def NotGranting (b : Beat) : Prop := ∀ started r, b ≠ .granting started r

/-- Nothing is left over that a later step could trip over. -/
structure Quiet (s : LeaseWorld) : Prop where
  closed : s.service.closed = true → s.service.leaseid = none ∧ NotGranting s.beat
  silent : ∀ p ∈ s.published, p.2 = true → p.1.aliveEpoch? = none
  known : ∀ l, l < s.leases.length → l ∈ s.grants ∨
    ∃ started r, s.beat = .granting started r ∧ (r, .granted l) ∈ s.replies
  single : ∀ r l l', (r, .granted l) ∈ s.replies → (r, .granted l') ∈ s.replies → l = l'
  faults : s.faults = []
  once : ∀ n, (s.clients n).Once

theorem Quiet.init (h : system.init s) : s.Quiet := by
  obtain ⟨now, rfl⟩ := h
  exact ⟨fun hc => (by cases hc), fun p hp => absurd hp List.not_mem_nil,
    fun l hl => absurd hl (Nat.not_lt_zero l), fun r l l' hl => absurd hl List.not_mem_nil, rfl,
    fun n => ⟨.nil, fun hc => (by cases hc)⟩⟩

theorem Quiet.granted_known (h : s.Quiet) (hb : NotGranting s.beat) :
    ∀ l, l < s.leases.length → l ∈ s.grants := by
  intro l hl
  rcases h.known l hl with hg | ⟨started, r, he, _⟩
  · exact hg
  · exact absurd he (hb started r)

theorem Quiet.setBeat (h : s.Quiet) (hb : NotGranting s.beat) {b : Beat}
    (hb' : s.service.closed = true → NotGranting b) : { s with beat := b }.Quiet :=
  ⟨fun hc => ⟨(h.closed hc).1, hb' hc⟩, h.silent, fun l hl => .inl (h.granted_known hb l hl),
    h.single, h.faults, h.once⟩

theorem Quiet.send (h : s.Quiet) (r : LeaseRequest) : (s.send r).Quiet :=
  ⟨h.closed, h.silent, h.known, h.single, h.faults, h.once⟩

theorem Quiet.finish (h : s.Quiet) (hb : NotGranting s.beat) : s.finish.Quiet :=
  ⟨fun hc => ⟨(h.closed hc).1, fun _ _ he => by cases he⟩, h.silent,
    fun l hl => .inl (h.granted_known hb l hl), h.single, h.faults, h.once⟩

theorem Quiet.regrant (h : s.Quiet) (hb : NotGranting s.beat) : s.regrant.Quiet := by
  unfold LeaseWorld.regrant
  split
  · next hn =>
    refine (h.send _).setBeat hb fun hc => ?_
    simp only [Bool.and_eq_true, Bool.not_eq_true'] at hn
    cases hn.2.symm.trans hc
  · exact h.finish hb

theorem Quiet.heartbeat (h : s.Quiet) (hb : s.beat = .idle) : s.heartbeat.Quiet := by
  have hb : NotGranting s.beat := fun started r he => by cases hb.symm.trans he
  unfold LeaseWorld.heartbeat
  split
  · exact (h.send _).setBeat hb fun _ _ _ he => by cases he
  · exact h.regrant hb

theorem once_publish {c : LeaseClient} (h : c.Once) (ev : LeaseEvent) :
    (if c.subscribed then { c with queue := c.queue ++ [ev] } else c).Once := by
  split
  · exact ⟨h.nodup, h.current⟩
  · exact h

theorem Quiet.loseLease (h : s.Quiet) (reason : String) : (s.loseLease reason).Quiet := by
  refine ⟨fun hc => ⟨rfl, (h.closed hc).2⟩, fun p hp hc => ?_, h.known, h.single, h.faults,
    fun n => once_publish (h.once n) _⟩
  rcases List.mem_cons.mp hp with rfl | hp
  · rfl
  · exact h.silent p hp hc

theorem Quiet.publishAlive (h : s.Quiet) (hl : s.service.leaseid.isSome = true)
    (hd : s.service.deadline.isSome = true) (hc : s.service.closed = false) :
    s.publishAlive.Quiet := by
  obtain ⟨l, hl⟩ := Option.isSome_iff_exists.mp hl
  obtain ⟨d, hd⟩ := Option.isSome_iff_exists.mp hd
  simp only [LeaseWorld.publishAlive, hl, hd, Option.isNone_some, Bool.or_self, Bool.false_eq_true,
    if_false]
  refine ⟨h.closed, fun p hp hs => ?_, h.known, h.single, h.faults,
    fun n => once_publish (h.once n) _⟩
  rcases List.mem_cons.mp hp with rfl | hp
  · cases hc.symm.trans hs
  · exact h.silent p hp hs

theorem Quiet.granted (h : s.Quiet) (hb : s.beat = .granting started r)
    (hr : (r, .granted l) ∈ s.replies) : (s.granted started (some l)).Quiet := by
  have hopen : s.service.closed = false := by
    by_contra hc
    exact (h.closed (by simpa using hc)).2 started r hb
  have hnew : Quiet { s with
      service := { s.service with
        leaseid := some l
        epoch := s.service.epoch + 1
        deadline := some (started + (leaseTtl - leaseGrace) * 100) }
      grants := s.grants ++ [l]
      beat := .granted } := by
    refine ⟨fun hc => ?_, h.silent, fun k hk => ?_, h.single, h.faults, h.once⟩
    · cases hopen.symm.trans hc
    · rcases h.known k hk with hg | ⟨started', r', he, hr'⟩
      · exact .inl (List.mem_append_left _ hg)
      · cases hb.symm.trans he
        cases h.single r l k hr hr'
        exact .inl (List.mem_append_right _ (.head _))
  exact hnew.publishAlive rfl rfl hopen

theorem Quiet.notRenewed (h : s.Quiet) (hb : NotGranting s.beat)
    (hd : s.service.deadline.isSome = true) : s.notRenewed.Quiet := by
  unfold LeaseWorld.notRenewed
  split
  · next hn => simp [hn] at hd
  · split
    · exact (h.loseLease _).setBeat hb fun _ _ _ he => by cases he
    · exact h.regrant hb

theorem Quiet.renewed (h : s.Quiet) (hb : NotGranting s.beat) (started : Int) (l : Nat)
    (ret : Option (Option Int))
    (hd : (∀ ttl, ret = some ttl → ∃ t, ttl = some t ∧ 0 < t) →
      s.service.deadline.isSome = true) : (s.renewed started l ret).Quiet := by
  unfold LeaseWorld.renewed
  split
  · exact h.notRenewed hb (hd fun ttl he => by cases he)
  · next ttl? =>
    split
    · exact (h.loseLease _).setBeat hb fun _ _ _ he => by cases he
    · next ttl ht =>
      obtain ⟨rfl, hpos⟩ := Option.filter_eq_some_iff.mp ht
      have hsome := hd fun ttl' he => by
        cases he
        exact ⟨ttl, rfl, by simpa using hpos⟩
      split
      · exact h.notRenewed hb hsome
      · next hl =>
        have hl : s.service.leaseid = some l := by simpa using hl
        have hopen : s.service.closed = false := by
          by_contra hc
          have hn := (h.closed (by simpa using hc)).1
          cases hl.symm.trans hn
        have hnew : Quiet { s with
            service := { s.service with
              deadline := some (started + (min ttl leaseTtl - leaseGrace) * 100) } } :=
          ⟨h.closed, h.silent, h.known, h.single, h.faults, h.once⟩
        exact (hnew.publishAlive (by simp [hl]) rfl hopen).setBeat
          (by simpa [LeaseWorld.publishAlive, LeaseWorld.publish, hl] using hb)
          fun _ _ _ he => by cases he

theorem not_answered (h : s.answered r = false) (reply : LeaseReply) : (r, reply) ∉ s.replies := by
  intro hr
  simp only [answered, List.any_eq_false, beq_iff_eq] at h
  exact h _ hr rfl

theorem Quiet.etcd (h : s.Quiet) {leases : List EtcdLease} {reply : LeaseReply}
    (hlen : leases.length = s.leases.length) (hr : ∀ l, reply ≠ .granted l) (r : Nat) :
    { s with leases := leases, replies := s.replies ++ [(r, reply)] }.Quiet := by
  have hold : ∀ r' l, (r', .granted l) ∈ s.replies ++ [(r, reply)] →
      (r', .granted l) ∈ s.replies := by
    intro r' l hp
    rcases List.mem_append.mp hp with hp | hp
    · exact hp
    · exact absurd (Prod.mk.inj (List.mem_singleton.mp hp)).2.symm (hr l)
  refine ⟨h.closed, h.silent, fun l hl => ?_,
    fun r' l l' hl hl' => h.single r' l l' (hold r' l hl) (hold r' l' hl'), h.faults, h.once⟩
  refine (h.known l (hlen ▸ hl)).imp id fun hk => ?_
  obtain ⟨started, r', hb, hp⟩ := hk
  exact ⟨started, r', hb, List.mem_append_left _ hp⟩

theorem Quiet.executeGrant (h : s.Quiet) (hb : s.beat = .granting started r)
    (hr : s.answered r = false) (x : EtcdLease) :
    { s with
      leases := s.leases ++ [x]
      replies := s.replies ++ [(r, LeaseReply.granted s.leases.length)] }.Quiet := by
  have hcases : ∀ (r' l : Nat),
      (r', LeaseReply.granted l) ∈ s.replies ++ [(r, .granted s.leases.length)] →
      (r', .granted l) ∈ s.replies ∨ r' = r ∧ l = s.leases.length := by
    intro r' l hp
    rcases List.mem_append.mp hp with hp | hp
    · exact .inl hp
    · cases List.mem_singleton.mp hp
      exact .inr ⟨rfl, rfl⟩
  refine ⟨h.closed, h.silent, fun l hl => ?_, fun r' l l' hl hl' => ?_, h.faults, h.once⟩
  · rw [List.length_append, List.length_singleton] at hl
    by_cases he : l = s.leases.length
    · exact .inr ⟨started, r, hb, he ▸ List.mem_append_right _ (.head _)⟩
    · refine (h.known l (by omega)).imp id fun hk => ?_
      obtain ⟨started', r', hb', hp⟩ := hk
      exact ⟨started', r', hb', List.mem_append_left _ hp⟩
  · rcases hcases r' l hl with hin | ⟨rfl, he⟩
    · rcases hcases r' l' hl' with hin' | ⟨rfl, _⟩
      · exact h.single r' l l' hin hin'
      · exact absurd hin (not_answered hr _)
    · rcases hcases r' l' hl' with hin' | ⟨_, he'⟩
      · exact absurd hin' (not_answered hr _)
      · exact he.trans he'.symm

theorem Quiet.execute (h : s.Quiet) (hi : s.Inv) {request : LeaseRequest}
    (hr : s.requests[r]? = some request) (ttl : Option Int)
    (hok : s.settled (.execute r ttl) = true) : (s.execute r ttl request).Quiet := by
  cases request with
  | grant sent =>
    simp only [settled, hr, Bool.and_eq_true, beq_iff_eq, Bool.not_eq_true'] at hok
    have hb := hi.beat
    have hw := hok.1
    simp only [waiting] at hw
    split at hw
    · next started l r' hbeat =>
      cases hw
      rw [hbeat] at hb
      cases hr.symm.trans hb
    · next started r' hbeat =>
      cases hw
      exact h.executeGrant hbeat hok.2 _
    · cases hw
  | keepalive sent l =>
    simp only [LeaseWorld.execute]
    split
    · exact h.etcd List.length_set (fun _ he => by cases he) r
    · exact h.etcd rfl (fun _ he => by cases he) r
  | revoke l =>
    simp only [LeaseWorld.execute]
    split
    · exact h.etcd List.length_set (fun _ he => by cases he) r
    · exact h

theorem Quiet.setClient (h : s.Quiet) {c : LeaseClient} (hc : c.Once) :
    (s.setClient n c).Quiet := by
  refine ⟨h.closed, h.silent, h.known, h.single, h.faults, fun m => ?_⟩
  simp only [LeaseWorld.setClient, Function.update_apply]
  split
  · exact hc
  · exact h.once m

theorem Quiet.get (h : s.Quiet) (n k : Nat) : (s.get n k).Quiet := by
  unfold LeaseWorld.get
  rcases s.leaseValid_cases with ⟨reason, hv⟩ | hv | ⟨l, d, hv, _, _⟩
  · simp only [hv, Bool.false_eq_true, if_false]
    exact h.loseLease reason
  · simp only [hv, Bool.false_eq_true, if_false]
    exact h
  · simp only [hv, if_true]
    exact h.setClient ⟨(h.once n).nodup, (h.once n).current⟩

theorem Quiet.shutdown (h : s.Quiet) (hb : NotGranting s.beat) : s.shutdown.Quiet := by
  unfold LeaseWorld.shutdown
  split
  · exact ⟨fun _ => ⟨rfl, hb⟩, h.silent, h.known, h.single, h.faults, h.once⟩
  · exact ⟨fun _ => ⟨rfl, hb⟩, h.silent, h.known, h.single, h.faults, h.once⟩

theorem Quiet.step (h : s.Quiet) (hi : s.Inv) (hok : s.Settled a) (ht : s.step a = some t) :
    t.Quiet := by
  cases a with
  | tick d =>
    cases ht
    exact ⟨h.closed, h.silent, h.known, h.single, h.faults, h.once⟩
  | heartbeat =>
    simp only [LeaseWorld.step, Option.ite_none_right_eq_some] at ht
    cases ht.2
    exact h.heartbeat ht.1.2
  | reply i =>
    simp only [LeaseWorld.step] at ht
    split at ht
    · next r' l started r hr hb =>
      obtain ⟨rfl, he⟩ := Option.ite_none_right_eq_some.mp ht
      cases he
      exact h.granted hb (List.mem_of_getElem? hr)
    · next r' ttl started l r hr hb =>
      obtain ⟨rfl, he⟩ := Option.ite_none_right_eq_some.mp ht
      cases he
      refine h.renewed (fun _ _ he => by cases hb.symm.trans he) started l _ fun hpos => ?_
      obtain ⟨t, rfl, hpos⟩ := hpos ttl rfl
      simp only [Settled, settled, hr, hb, Bool.or_eq_true, decide_eq_true_eq] at hok
      exact hok.resolve_left (by omega)
    · cases ht
  | fail =>
    simp only [LeaseWorld.step] at ht
    split at ht
    · next started r hb =>
      cases ht
      simp only [Settled, settled, hb, Bool.not_eq_true'] at hok
      refine ⟨fun hc => absurd hb ((h.closed hc).2 _ _), h.silent, fun l hl => ?_, h.single,
        h.faults, h.once⟩
      refine (h.known l hl).imp id fun hk => ?_
      obtain ⟨started', r', he, hp⟩ := hk
      cases hb.symm.trans he
      exact absurd hp (not_answered hok _)
    · next started l r hb =>
      cases ht
      simp only [Settled, settled, hb] at hok
      exact h.renewed (fun _ _ he => by cases hb.symm.trans he) _ _ _ fun _ => hok
    · cases ht
  | published =>
    simp only [LeaseWorld.step] at ht
    split at ht
    · next hb =>
      cases ht
      exact h.regrant fun _ _ he => by cases hb.symm.trans he
    · next hb =>
      cases ht
      exact h.finish fun _ _ he => by cases hb.symm.trans he
    · cases ht
  | execute r ttl =>
    obtain ⟨request, hr, rfl⟩ := Option.map_eq_some_iff.mp ht
    exact h.execute hi hr ttl hok
  | expire l =>
    simp only [LeaseWorld.step] at ht
    split at ht
    · next expiry hx =>
      obtain ⟨_, ht⟩ := Option.ite_none_right_eq_some.mp ht
      cases ht
      exact ⟨h.closed, h.silent, fun k hk => h.known k (List.length_set ▸ hk), h.single, h.faults,
        h.once⟩
    · cases ht
  | subscribe n =>
    simp only [LeaseWorld.step, Option.ite_none_right_eq_some] at ht
    cases ht.2
    exact h.setClient ⟨(h.once n).nodup, (h.once n).current⟩
  | get n k =>
    simp only [LeaseWorld.step, Option.ite_none_right_eq_some] at ht
    cases ht.2
    exact h.get n k
  | deliver n =>
    obtain ⟨c, hc, rfl⟩ := Option.map_eq_some_iff.mp ht
    refine h.setClient ((h.once n).deliver hc fun epoch he => ?_)
    simpa [Settled, settled, he] using hok
  | valid n =>
    cases ht
    exact h.setClient ((h.once n).valid s.now)
  | onLost n name =>
    cases ht
    exact h.setClient ⟨(h.once n).nodup, (h.once n).current⟩
  | shutdown =>
    simp only [LeaseWorld.step, Option.ite_none_right_eq_some] at ht
    cases ht.2
    refine h.shutdown fun _ _ he => ?_
    simp [Settled, settled, he] at hok
  | shutdownReply i =>
    simp only [LeaseWorld.step] at ht
    split at ht
    · obtain ⟨_, ht⟩ := Option.ite_none_right_eq_some.mp ht
      split at ht
      · cases ht
        exact ⟨h.closed, h.silent, h.known, h.single, h.faults, h.once⟩
      · cases ht
    · cases ht
  | shutdownFail r =>
    simp only [LeaseWorld.step, Option.ite_none_right_eq_some] at ht
    cases ht.2
    exact ⟨h.closed, h.silent, h.known, h.single, h.faults, h.once⟩

theorem quiet_reaches (h : system.Reaches Settled s) : s.Quiet :=
  h.invariant_with (fun _ => inv_reaches) (fun _ => Quiet.init)
    fun _ _ _ hi hq hok ht => hq.step hi hok ht

/-- The lease is never believed alive after it has expired, and shutdown is final. -/
structure Sound (s : LeaseWorld) : Prop where
  valid : ∀ n l, (s.clients n).isValid s.now = true → (s.clients n).leaseid = some l →
    ¬ s.Expired l ∧ (s.clients n).epoch ∉ (s.clients n).heard
  deadline : ∀ n l d, (s.clients n).leaseid = some l → (s.clients n).deadline = some d →
    s.Confirmed l d
  serviceDeadline : ∀ l d, s.service.leaseid = some l → s.service.deadline = some d →
    s.Confirmed l d
  once : ∀ n, (s.clients n).lostEpochs.Nodup
  fired : ∀ n, (s.clients n).queue = [] → ∀ epoch ∈ (s.clients n).seen, s.Ended epoch →
    epoch ∉ s.shut → epoch ∈ (s.clients n).lostEpochs
  silent : ∀ p ∈ s.published, p.2 = true → p.1.aliveEpoch? = none
  returned : ∀ l, some l ∈ s.returned → ¬ s.Live l
  known : s.service.closed = true → ∀ l, s.Live l → s.GivenUp l
  faults : s.faults = []

/-- etcd keeps a lease at least until the confirmed deadline. -/
theorem Inv.confirmed_live (h : s.Inv) (hc : s.Confirmed l d) (hnow : s.now < d) :
    ¬ s.Expired l := by
  rintro ⟨x, hx, hexp⟩
  have hle := (h.leases x (List.mem_of_getElem? hx)).2 hexp
  have httl : leaseTtl = 30 := rfl
  have hgrace : leaseGrace = 2 := rfl
  rcases hc with ⟨r, sent, hreq, hr, hd⟩ | ⟨r, sent, ttl, hreq, hr, hpos, hd⟩
  · obtain ⟨sent', y, hreq', hy, hle'⟩ := h.replies _ hr
    cases hreq.symm.trans hreq'
    cases hx.symm.trans hy
    omega
  · obtain ⟨sent', l', hreq', hkept⟩ := h.replies _ hr
    cases hreq.symm.trans hreq'
    obtain ⟨y, hy, hle'⟩ := hkept ttl rfl hpos
    cases hx.symm.trans hy
    omega

/-- What a client that has heard everything has seen alive is lost to it once it has ended. -/
theorem Inv.fired (h : s.Inv) (hq : (s.clients n).queue = []) (hs : epoch ∈ (s.clients n).seen)
    (he : s.Ended epoch) (hshut : epoch ∉ s.shut) : epoch ∈ (s.clients n).lostEpochs := by
  have hc := h.clients n
  obtain ⟨⟨hpos, hle⟩, hseen⟩ := hc.seen epoch hs
  have hlost := (h.ended epoch hpos hle he).resolve_right hshut
  have hheard : epoch ∈ (s.clients n).heard := by
    rcases hc.told epoch hlost with ht | ⟨reason, ht⟩ | ⟨hnot, _⟩
    · exact ht
    · rw [hq] at ht
      cases ht
    · exact absurd hs hnot
  rcases hseen with ⟨hl, rfl⟩ | hseen
  · obtain ⟨l, hl⟩ := Option.isSome_iff_exists.mp hl
    exact absurd hheard (hc.lease l hl).2
  · exact hseen

/-- After shutdown every lease that etcd still has was lost or handed to a revoke. -/
theorem Inv.known (h : s.Inv) (hq : s.Quiet) (hc : s.service.closed = true) (hl : s.Live l) :
    s.GivenUp l := by
  obtain ⟨hn, hb⟩ := hq.closed hc
  obtain ⟨x, hx, _⟩ := hl
  have hg := hq.granted_known hb l (List.getElem?_eq_some_iff.mp hx).1
  obtain ⟨i, hi⟩ := List.getElem?_of_mem hg
  have hlt : i < s.service.epoch := h.grants ▸ (List.getElem?_eq_some_iff.mp hi).1
  have hof : s.leaseOf (i + 1) = some l := hi
  have hended : s.Ended (i + 1) := fun he => by simp [hn] at he
  refine ⟨i + 1, Nat.succ_pos i, hof, ?_⟩
  refine (h.ended _ (Nat.succ_pos i) hlt hended).imp id fun hs => ?_
  obtain ⟨l', hl', hrev⟩ := h.shut _ hs
  cases hof.symm.trans hl'
  exact hrev

theorem lease_sound (h : system.Reaches Settled s) : s.Sound := by
  have hi := inv_reaches h
  have hq := quiet_reaches h
  refine ⟨fun n l hv hl => ?_, fun n l d hl hd => ?_, fun l d hl hd => ?_,
    fun n => (hq.once n).nodup,
    fun n hn epoch hs he hshut => hi.fired hn hs he hshut, hq.silent, fun l hl hlive => ?_,
    fun hc l hl => hi.known hq hc hl, hq.faults⟩
  · obtain ⟨⟨d, hd, hc⟩, hheard⟩ := (hi.clients n).lease l hl
    simp only [LeaseClient.isValid, hd, Option.any_some, Bool.and_eq_true, decide_eq_true_eq] at hv
    exact ⟨hi.confirmed_live hc hv.2, hheard⟩
  · obtain ⟨⟨d', hd', hc⟩, _⟩ := (hi.clients n).lease l hl
    cases hd.symm.trans hd'
    exact hc
  · obtain ⟨⟨d', hd', hc⟩, _⟩ := hi.lease l hl
    cases hd.symm.trans hd'
    exact hc
  · obtain ⟨x, hx, hrev⟩ := hi.returned l hl
    obtain ⟨y, hy, hy'⟩ := hlive
    cases hx.symm.trans hy
    cases hrev.symm.trans hy'

theorem start_init (now : Int) : system.init (start now) := ⟨now, rfl⟩

/-- One client sees the first lease alive, refreshed and lost, and the second one alive; then the
node shuts down. -/
def refreshedAndLost : LeaseWorld :=
  system.run Settled (start 0) [.execute 0 none, .reply 0, .published, .onLost 0 "distributed_lock",
    .subscribe 0, .get 0 0, .deliver 0, .tick 1000, .heartbeat, .execute 1 (some 30), .reply 1,
    .published, .deliver 0, .tick 2900, .heartbeat, .fail, .published, .deliver 0, .execute 3 none,
    .reply 2, .published, .deliver 0, .shutdown, .execute 4 none, .shutdownReply 3]
    (by decide +kernel)

theorem lease_sound_refreshedAndLost : refreshedAndLost.Sound ∧
    (refreshedAndLost.clients 0).fired =
      [⟨1, "keepalive grace period elapsed", ["distributed_lock"]⟩] ∧
    refreshedAndLost.returned = [some 1] :=
  ⟨lease_sound (system.run_reaches Settled _ (start_init 0) (by decide +kernel)),
    by decide +kernel, by decide +kernel⟩

/-- A refresh reaches a client that has already given up the lease. -/
def lateRefresh : LeaseWorld :=
  system.run anyStep (start 0) [.execute 0 none, .reply 0, .published, .subscribe 0, .get 0 0,
    .deliver 0, .tick 1000, .heartbeat, .execute 1 (some 30), .reply 1, .published, .tick 1900,
    .valid 0, .deliver 0, .tick 1000, .valid 0, .heartbeat, .fail, .deliver 0] (by decide +kernel)

/-- A grant is under way when shutdown starts. -/
def grantedAfterShutdown : LeaseWorld :=
  system.run anyStep (start 0) [.fail, .heartbeat, .shutdown, .execute 1 none, .reply 0]
    (by decide +kernel)

/-- `CMD.get` finds the deadline passed while a keepalive is under way. -/
def takenDuringKeepalive : LeaseWorld :=
  system.run anyStep (start 0) [.execute 0 none, .reply 0, .published, .subscribe 0, .tick 2700,
    .heartbeat, .tick 200, .get 0 0, .fail] (by decide +kernel)

theorem lease_unsound :
    (∃ s, system.Reaches anyStep s ∧ s.lostEpochs = [1] ∧ (s.clients 0).lostEpochs = [1, 1]) ∧
    (∃ s, system.Reaches anyStep s ∧ s.returned = [none] ∧
      s.published = [(.alive (some 0) 1 (some 2800), true)] ∧ s.service.leaseid = some 0) ∧
    ∃ s, system.Reaches anyStep s ∧ s.faults = [.compare] :=
  ⟨⟨lateRefresh, system.run_reaches anyStep _ (start_init 0) (by decide +kernel),
      by decide +kernel, by decide +kernel⟩,
    ⟨grantedAfterShutdown, system.run_reaches anyStep _ (start_init 0) (by decide +kernel),
      by decide +kernel, by decide +kernel, by decide +kernel⟩,
    ⟨takenDuringKeepalive, system.run_reaches anyStep _ (start_init 0) (by decide +kernel),
      by decide +kernel⟩⟩

end LeaseWorld

end Skyext
