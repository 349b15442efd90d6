import Skyext.Entity.Kept
import Skyext.Reliable.Delivery

namespace Skyext
set_option autoImplicit true

open Machine

variable {s t : DeliveryCluster} {d d' : DeliveryNode} {p p' : DeliveryPass}
  {msgs msgs' : List ReliableMsg} {requests requests' : List (MsgRequest × Option ModifiedDoc)}
  {calls calls' : List HandlerCall}
  {mgr mgr' : Entitymgr}

/-- A handler that holds the gate keeps it, whatever else happens, and no change is taken back. -/
theorem Entitymgr.step_handling {a : MgrAction} (hr : mgr.running = some (.handling job))
    (ha : a ≠ .handler) (ht : mgr.step a = some mgr') :
    mgr'.running = some (.handling job) ∧ mgr.changes ≤ mgr'.changes := by
  have hmoved (m : LockModule) : (mgr.lockMoved m).running = some (.handling job) ∧
      mgr.changes ≤ (mgr.lockMoved m).changes :=
    ⟨(lockMoved_running mgr m).trans hr,
      Nat.le_of_eq (congrArg Doc.changes (doc_lockMoved mgr m)).symm⟩
  cases a with
  | handler => exact absurd rfl ha
  | start value =>
    simp only [Entitymgr.step, hr] at ht
    cases ht
  | reply ret =>
    simp only [Entitymgr.step, hr] at ht
    cases ht
  | dbLoad err =>
    simp only [Entitymgr.step, hr] at ht
    cases ht
  | discarded value =>
    simp only [Entitymgr.step, hr] at ht
    cases ht
  | hooks err =>
    simp only [Entitymgr.step, hr] at ht
    cases ht
  | dbUnload k applied ok =>
    simp only [Entitymgr.step, hr] at ht
    cases ht
  | dbRecover r applied =>
    simp only [Entitymgr.step, hr] at ht
    cases ht
  | call job =>
    cases ht
    exact ⟨hr, Nat.le_refl _⟩
  | runForked i =>
    simp only [Entitymgr.step] at ht
    split at ht <;> cases ht
    · exact ⟨hr, Nat.le_refl _⟩
    · exact ⟨hr, Nat.le_refl _⟩
  | retryTimer =>
    simp only [Entitymgr.step, Option.ite_none_right_eq_some] at ht
    cases ht.2
    exact ⟨hr, Nat.le_refl _⟩
  | unloadTimer =>
    simp only [Entitymgr.step, Option.ite_none_right_eq_some] at ht
    cases ht.2
    exact ⟨hr, Nat.le_refl _⟩
  | deliveryTimer =>
    simp only [Entitymgr.step, Option.ite_none_right_eq_some] at ht
    cases ht.2
    exact ⟨hr, Nat.le_refl _⟩
  | scheduleDelivery =>
    simp only [Entitymgr.step, Option.ite_none_right_eq_some] at ht
    cases ht.2
    exact ⟨hr, Nat.le_refl _⟩
  | bind =>
    simp only [Entitymgr.step, hr] at ht
    cases ht
    exact ⟨hr, Nat.le_refl _⟩
  | change =>
    simp only [Entitymgr.step] at ht
    split at ht <;> cases ht
    · exact ⟨hr, Nat.le_succ _⟩
    · exact ⟨hr, Nat.le_succ _⟩
    · exact ⟨hr, Nat.le_succ _⟩
  | save k applied ok =>
    simp only [Entitymgr.step] at ht
    split at ht
    · simp only [saveDoc, Option.ite_none_right_eq_some, Option.some.injEq] at ht
      rw [← ht.2]
      exact ⟨hr, Nat.le_refl _⟩
    · cases ht
  | deadline =>
    cases ht
    exact ⟨hr, Nat.le_refl _⟩
  | leaseAlive leaseid epoch late =>
    cases ht
    exact hmoved _
  | leaseLost epoch =>
    cases ht
    exact hmoved _
  | leaseCheck =>
    cases ht
    exact hmoved _
  | shutdown =>
    cases ht
    split
    · exact ⟨hr, Nat.le_refl _⟩
    · exact ⟨hr, Nat.le_refl _⟩
  | shutdownDone =>
    simp only [Entitymgr.step, Option.ite_none_right_eq_some] at ht
    cases ht.2
    exact ⟨hr, Nat.le_refl _⟩

namespace DeliveryCluster

theorem settledOf_of {i : Nat} {m : ReliableMsg} (h : msgs[i]? = some m) :
    settledOf msgs i = m.settled := by simp [settledOf, h]

theorem seqOf_of {i : Nat} {m : ReliableMsg} (h : msgs[i]? = some m) : seqOf msgs i = m.seq := by
  simp [seqOf, h]

/-- The message was loaded while pending, and has been pending ever since it was last settled. -/
def Known (msgs : List ReliableMsg) (q : Nat × Nat) : Prop :=
  ∃ m, msgs[q.1]? = some m ∧ q.2 ≤ m.settled ∧ (m.settled = q.2 → m.status = .pending)

/-- What the request that a pass waits for can tell it about the message at work; what is saved is
what a handler of this message has returned with. -/
def Awaits (msgs : List ReliableMsg) (requests : List (MsgRequest × Option ModifiedDoc))
    (q : Nat × Nat) : PassPc → Prop
  | .acking r => ∃ reply, requests[r]? = some (.markDelivered q.1, reply) ∧
      (reply ≠ none → q.2 < settledOf msgs q.1)
  | .killing r => ∃ reason reply, requests[r]? = some (.markDead q.1 reason, reply) ∧
      ∀ m, reply = some (.doc m) → q.2 < settledOf msgs q.1
  | .saving c _ => c.msg = q.1 ∧ c.err = none
  | _ => True

structure PassOk (msgs : List ReliableMsg) (requests : List (MsgRequest × Option ModifiedDoc))
    (calls : List HandlerCall) (mgr : Entitymgr) (p : DeliveryPass) : Prop where
  running : ∃ job, mgr.running = some (.handling job)
  dealt : ∃ dealt, p.loaded = dealt ++ p.rest ∧ ∀ q ∈ dealt, q.2 < settledOf msgs q.1
  sorted : p.loaded.Pairwise fun q q' => seqOf msgs q.1 ≤ seqOf msgs q'.1
  known : ∀ q ∈ p.loaded, Known msgs q
  saving : ∀ c valid, p.pc = .saving c valid →
    valid = true ∧ c ∈ calls ∧ c.changes ≤ mgr.changes
  awaits : ∀ q rest, p.rest = q :: rest → Awaits msgs requests q p.pc

/-- In some attempt the handler of the message returned, and all it had changed was saved, with the
lease valid before and after. -/
def Attempted (s : DeliveryCluster) (i : Nat) : Prop :=
  ∃ x ∈ s.attempts, x.call ∈ s.calls ∧ x.call.msg = i ∧ x.call.err = none ∧
    x.validBefore = true ∧ x.saved = true ∧ x.validAfter = true ∧ x.call.changes ≤ x.stored

structure Inv (s : DeliveryCluster) : Prop where
  passes : ∀ n p, (s.nodes n).pass = some p → PassOk s.msgs s.requests s.calls (s.nodes n).mgr p
  acks : ∀ i reply, (.markDelivered i, reply) ∈ s.requests → s.Attempted i
  delivered : ∀ (i : Nat) m, s.msgs[i]? = some m → m.status = .delivered → s.Attempted i
  inserting : ∀ m ∈ s.inserting, m.status = .pending

theorem Known.evolved (h : Known msgs q) (he : Evolved msgs msgs') : Known msgs' q := by
  obtain ⟨m, hm, hle, hp⟩ := h
  obtain ⟨m', hm', hev⟩ := he q.1 m hm
  refine ⟨m', hm', Nat.le_trans hle hev.settled, fun heq => ?_⟩
  by_contra hne
  have hsame : m.settled = q.2 := Nat.le_antisymm (heq ▸ hev.settled) hle
  exact absurd (hev.left (hp hsame) hne) (by omega)

theorem settledOf_mono (he : Evolved msgs msgs') (h : Known msgs q)
    (hlt : q.2 < settledOf msgs q.1) : q.2 < settledOf msgs' q.1 := by
  obtain ⟨m, hm, _⟩ := h
  obtain ⟨m', hm', hev⟩ := he q.1 m hm
  rw [settledOf_of hm] at hlt
  rw [settledOf_of hm']
  exact Nat.lt_of_lt_of_le hlt hev.settled

theorem seqOf_evolved (he : Evolved msgs msgs') (h : Known msgs q) :
    seqOf msgs' q.1 = seqOf msgs q.1 := by
  obtain ⟨m, hm, _⟩ := h
  obtain ⟨m', hm', hev⟩ := he q.1 m hm
  rw [seqOf_of hm, seqOf_of hm', hev.seq]

theorem PassOk.evolved (h : PassOk msgs requests calls mgr p) (he : Evolved msgs msgs')
    (ha : ∀ q rest, p.rest = q :: rest → Awaits msgs' requests' q p.pc) :
    PassOk msgs' requests' calls mgr p where
  running := h.running
  dealt := by
    obtain ⟨l, hl, hd⟩ := h.dealt
    exact ⟨l, hl, fun q hq =>
      settledOf_mono he (h.known q (hl ▸ List.mem_append_left _ hq)) (hd q hq)⟩
  sorted := by
    refine h.sorted.imp_of_mem fun {q q'} hq hq' hle => ?_
    rwa [seqOf_evolved he (h.known q hq), seqOf_evolved he (h.known q' hq')]
  known q hq := (h.known q hq).evolved he
  saving := h.saving
  awaits := ha

theorem PassOk.head (h : PassOk msgs requests calls mgr p) (hr : p.rest = q :: rest) :
    Known msgs q := by
  obtain ⟨l, hl, _⟩ := h.dealt
  exact h.known q (hl ▸ List.mem_append_right _ (hr ▸ .head _))

theorem Awaits.evolved (h : Awaits msgs requests q pc) (hk : Known msgs q)
    (he : Evolved msgs msgs')
    (hr : ∀ (r : Nat) x, requests[r]? = some x → requests'[r]? = some x) :
    Awaits msgs' requests' q pc := by
  cases pc with
  | acking r =>
    obtain ⟨reply, hreq, hlt⟩ := h
    exact ⟨reply, hr r _ hreq, fun hn => settledOf_mono he hk (hlt hn)⟩
  | killing r =>
    obtain ⟨reason, reply, hreq, hlt⟩ := h
    exact ⟨reason, reply, hr r _ hreq, fun m hm => settledOf_mono he hk (hlt m hm)⟩
  | saving c valid => exact h
  | _ => trivial

theorem PassOk.grow (h : PassOk msgs requests calls mgr p) (he : Evolved msgs msgs')
    (hr : ∀ (r : Nat) x, requests[r]? = some x → requests'[r]? = some x) :
    PassOk msgs' requests' calls mgr p :=
  h.evolved he fun _ _ hrest => (h.awaits _ _ hrest).evolved (h.head hrest) he hr

theorem PassOk.called (h : PassOk msgs requests calls mgr p) (c : HandlerCall) :
    PassOk msgs requests (c :: calls) mgr p :=
  ⟨h.running, h.dealt, h.sorted, h.known, fun c' valid hp =>
    ⟨(h.saving c' valid hp).1, .tail _ (h.saving c' valid hp).2.1, (h.saving c' valid hp).2.2⟩,
    h.awaits⟩

theorem Inv.called (h : s.Inv) (c : HandlerCall) : Inv { s with calls := c :: s.calls } := by
  have hmono (i : Nat) (ha : s.Attempted i) : Attempted { s with calls := c :: s.calls } i := by
    obtain ⟨x, hx, hcall, hprops⟩ := ha
    exact ⟨x, hx, .tail _ hcall, hprops⟩
  exact ⟨fun n p hp => (h.passes n p hp).called c, fun i reply hi => hmono i (h.acks i reply hi),
    fun i m hm hd => hmono i (h.delivered i m hm hd), h.inserting⟩

theorem Inv.setNode (h : s.Inv) (n : Nat)
    (hd : ∀ p, d.pass = some p → PassOk s.msgs s.requests s.calls d.mgr p) :
    (s.setNode n d).Inv := by
  refine ⟨fun k p hp => ?_, h.acks, h.delivered, h.inserting⟩
  by_cases hk : k = n
  · subst hk
    simp only [DeliveryCluster.setNode, Function.update_self] at hp ⊢
    exact hd p hp
  · simp only [DeliveryCluster.setNode, Function.update_of_ne hk] at hp ⊢
    exact h.passes k p hp

theorem endPass_pass (d : DeliveryNode) : d.endPass.pass = none := by
  unfold DeliveryNode.endPass
  split <;> rfl

theorem Inv.endPass (h : s.Inv) (n : Nat) (d : DeliveryNode) : (s.setNode n d.endPass).Inv := by
  refine h.setNode n fun p hp => ?_
  rw [endPass_pass] at hp
  cases hp

theorem Inv.send (h : s.Inv) (r : MsgRequest)
    (hr : ∀ i, r = .markDelivered i → s.Attempted i) : (s.send r).Inv := by
  refine ⟨fun n p hp => ?_, fun i reply hi => ?_, h.delivered, h.inserting⟩
  · refine (h.passes n p hp).grow (.refl _) fun k x hx => ?_
    have hlt := (List.getElem?_eq_some_iff.mp hx).1
    exact (List.getElem?_append_left hlt).trans hx
  · rcases List.mem_append.mp hi with hi | hi
    · exact h.acks i reply hi
    · cases List.mem_singleton.mp hi
      exact hr i rfl

theorem Inv.await (h : s.Inv) (n : Nat) {i k : Nat} {rest : List (Nat × Nat)} {r : MsgRequest}
    {pc : Nat → PassPc} (hp : PassOk s.msgs s.requests s.calls d.mgr p)
    (hrest : p.rest = (i, k) :: rest)
    (hpc : ∀ m c valid, pc m ≠ .saving c valid)
    (hw : Awaits s.msgs (s.requests ++ [(r, none)]) (i, k) (pc s.requests.length))
    (hr : ∀ i, r = .markDelivered i → s.Attempted i) : (s.await n d p r pc).Inv := by
  have hs := h.send r hr
  refine hs.setNode (d := { d with pass := some (p.goTo (pc s.requests.length)) }) n
    fun p' hp' => ?_
  cases hp'
  refine ⟨hp.running, hp.dealt, hp.sorted, hp.known, fun c valid hsv => ?_, fun q l hq => ?_⟩
  · exact absurd hsv (hpc _ c valid)
  · cases hrest.symm.trans hq
    exact hw

theorem usable_mgr (d : DeliveryNode) : d.usable.1.mgr.running = d.mgr.running ∧
    d.usable.1.mgr.changes = d.mgr.changes ∧ d.usable.1.pass = d.pass := by
  unfold DeliveryNode.usable
  split
  · exact ⟨rfl, rfl, rfl⟩
  · next e he =>
    refine ⟨?_, congrArg Doc.changes (Entitymgr.doc_usable d.mgr e), rfl⟩
    dsimp only [Entitymgr.usable]
    split
    · rfl
    · exact Entitymgr.lockMoved_running _ _

theorem PassOk.onward (h : PassOk msgs requests calls mgr p) (hr : mgr'.running = mgr.running)
    (hc : mgr.changes ≤ mgr'.changes) : PassOk msgs requests calls mgr' p := by
  refine ⟨hr ▸ h.running, h.dealt, h.sorted, h.known, fun c valid hp => ?_, h.awaits⟩
  obtain ⟨hv, hm, hle⟩ := h.saving c valid hp
  exact ⟨hv, hm, Nat.le_trans hle hc⟩

theorem PassOk.goTo (h : PassOk msgs requests calls mgr p) (pc : PassPc)
    (hs : ∀ c valid, pc = .saving c valid → valid = true ∧ c ∈ calls ∧ c.changes ≤ mgr.changes)
    (ha : ∀ q rest, p.rest = q :: rest → Awaits msgs requests q pc) :
    PassOk msgs requests calls mgr (p.goTo pc) :=
  ⟨h.running, h.dealt, h.sorted, h.known, hs, ha⟩

/-- The message at work has been settled since the pass loaded it. -/
theorem PassOk.advance (h : PassOk msgs requests calls mgr p) (hr : p.rest = q :: rest)
    (hq : q.2 < settledOf msgs q.1) : PassOk msgs requests calls mgr p.advance := by
  obtain ⟨l, hl, hd⟩ := h.dealt
  refine ⟨h.running, ⟨l ++ [q], ?_, fun x hx => ?_⟩, h.sorted, h.known, by rintro _ _ ⟨⟩,
    fun _ _ _ => trivial⟩
  · simp only [DeliveryPass.advance, hl, hr, List.tail_cons, List.append_assoc,
      List.singleton_append]
  · rcases List.mem_append.mp hx with hx | hx
    · exact hd x hx
    · cases List.mem_singleton.mp hx
      exact hq

theorem Inv.quarantine (h : s.Inv) (n : Nat) {i k : Nat} {rest : List (Nat × Nat)}
    (hp : PassOk s.msgs s.requests s.calls d.mgr p) (hrest : p.rest = (i, k) :: rest)
    (reason : String) :
    (s.quarantine n d p i reason).Inv :=
  h.await n hp hrest (by rintro _ _ _ ⟨⟩) trivial (by rintro _ ⟨⟩)

theorem Inv.loaded (h : s.Inv) (n : Nat) (hr : ∃ job, d.mgr.running = some (.handling job)) :
    (s.loaded n d).Inv := by
  refine h.setNode n fun p hp => ?_
  cases hp
  refine ⟨hr, ⟨[], rfl, fun q hq => by cases hq⟩, ?_, fun q hq => ?_, by rintro _ _ ⟨⟩,
    fun _ _ _ => trivial⟩
  · exact List.pairwise_map.mpr (loadPending_sorted s.msgs defaultPageSize)
  · obtain ⟨i, hi, rfl⟩ := List.mem_map.mp hq
    obtain ⟨m, hm, hp⟩ := mem_loadPending hi
    exact ⟨m, hm, Nat.le_of_eq (settledOf_of hm), fun _ => hp⟩

theorem Inv.next (h : s.Inv) (n : Nat) (hp : PassOk s.msgs s.requests s.calls d.mgr p) :
    (s.next n d p).Inv := by
  unfold DeliveryCluster.next
  split
  · exact h.endPass n _
  · next i k rest hrest =>
    obtain ⟨hr, hc, hpass⟩ := usable_mgr d
    have hp' := hp.onward hr (Nat.le_of_eq hc.symm)
    split
    · exact h.endPass n _
    · dsimp only
      split
      · refine h.setNode n fun p' hp'' => ?_
        cases hp''
        exact hp'.goTo .handler (by rintro _ _ ⟨⟩) fun _ _ _ => trivial
      · exact h.quarantine n hp' hrest _

theorem Inv.handled (h : s.Inv) (n : Nat) {c : HandlerCall} {k : Nat} {rest : List (Nat × Nat)}
    (hp : PassOk s.msgs s.requests s.calls d.mgr p) (hrest : p.rest = (c.msg, k) :: rest)
    (hc : c ∈ s.calls) (hle : c.changes ≤ d.mgr.changes) : (s.handled n d p c).Inv := by
  unfold DeliveryCluster.handled
  split
  · exact h.quarantine n hp hrest _
  · next herr =>
    obtain ⟨hr, hch, hpass⟩ := usable_mgr d
    have hp' := hp.onward hr (Nat.le_of_eq hch.symm)
    split
    · exact h.endPass n _
    · next hv =>
      refine h.setNode n fun p' hp'' => ?_
      cases hp''
      refine hp'.goTo _ (fun c' valid he => ?_) fun q rest' hq => ?_
      · cases he
        exact ⟨by simpa using hv, hc, hch ▸ hle⟩
      · cases hrest.symm.trans hq
        exact ⟨rfl, herr⟩

/-- An ack goes out only for a message whose changes have been saved. -/
theorem Inv.acknowledge (h : s.Inv) (n : Nat) {i k : Nat} {c : HandlerCall}
    {rest : List (Nat × Nat)} (hp : PassOk s.msgs s.requests s.calls d.mgr p)
    (hrest : p.rest = (i, k) :: rest) (hcall : c ∈ s.calls) (hmsg : c.msg = i)
    (herr : c.err = none) (hstored : c.changes ≤ d.mgr.stored) :
    (s.acknowledge n d p i c true true).Inv := by
  unfold DeliveryCluster.acknowledge
  split
  · exact h.endPass n _
  · next hv =>
    have hvalid : d.usable.2 = true := by simpa using hv
    obtain ⟨hr, hc, hpass⟩ := usable_mgr d
    have hp' := hp.onward hr (Nat.le_of_eq hc.symm)
    let u : DeliveryCluster :=
      { s with attempts := ⟨c, true, true, d.usable.2, d.mgr.stored⟩ :: s.attempts }
    have hmono : ∀ j, s.Attempted j → u.Attempted j := by
      rintro j ⟨x, hx, hprops⟩
      exact ⟨x, .tail _ hx, hprops⟩
    have hu : u.Inv := ⟨h.passes, fun j reply hj => hmono j (h.acks j reply hj),
      fun j m hm hd => hmono j (h.delivered j m hm hd), h.inserting⟩
    refine hu.await n hp' hrest (by rintro _ _ _ ⟨⟩) ?_ fun j hj => ?_
    · exact ⟨none, List.getElem?_concat_length, fun hn => absurd rfl hn⟩
    · cases hj
      exact ⟨_, .head _, hcall, hmsg, herr, rfl, rfl, hvalid, hstored⟩

theorem Inv.saved (h : s.Inv) (n : Nat) {i k : Nat} {c : HandlerCall} {valid applied ok : Bool}
    {rest : List (Nat × Nat)} (hp : PassOk s.msgs s.requests s.calls d.mgr p)
    (hrest : p.rest = (i, k) :: rest) (hpc : p.pc = .saving c valid)
    (ht : s.saved n d p i c valid applied ok = some t) : t.Inv := by
  obtain ⟨hvalid, hcall, hle⟩ := hp.saving c valid hpc
  have hw := hp.awaits _ _ hrest
  rw [hpc] at hw
  obtain ⟨hmsg, herr⟩ := hw
  unfold DeliveryCluster.saved at ht
  split at ht
  · cases ht
    exact h.endPass n d
  · next cache hcache =>
    obtain ⟨mgr', hm, rfl⟩ := Option.map_eq_some_iff.mp ht
    simp only [Entitymgr.saveDoc, Option.ite_none_right_eq_some, Option.some.injEq] at hm
    obtain ⟨⟨_, _, hok⟩, rfl⟩ := hm
    split
    · next hokt =>
      subst hvalid hokt
      have happ := (hok rfl).1
      refine Inv.acknowledge h n ?_ hrest hcall hmsg herr ?_
      · exact hp.onward rfl (Nat.le_refl _)
      · dsimp only
        rw [if_pos happ]
        exact Nat.le_trans hle (Nat.le_max_right _ _)
    · exact h.endPass n _

theorem Inv.replied (h : s.Inv) (n : Nat) {i k r : Nat} {rest : List (Nat × Nat)}
    {reply : Option ModifiedDoc} (hp : PassOk s.msgs s.requests s.calls d.mgr p)
    (hrest : p.rest = (i, k) :: rest) (hr : PassPc.awaited p.pc = some r)
    (hreply : reply = none ∨ ∃ req, s.requests[r]? = some (req, reply)) :
    (s.replied n d p i reply).Inv := by
  have hw := hp.awaits _ _ hrest
  unfold DeliveryCluster.replied
  split
  · next r' m hpc =>
    refine h.setNode n fun p' hp' => ?_
    cases hp'
    rw [hpc] at hw hr
    cases hr
    obtain ⟨reply', hreq, hlt⟩ := hw
    rcases hreply with hn | ⟨req, hreq'⟩
    · cases hn
    · cases hreq.symm.trans hreq'
      exact hp.advance hrest (hlt (by rintro ⟨⟩))
  · next r' reason m hpc =>
    split
    · refine h.await n hp hrest (by rintro _ _ _ ⟨⟩) ?_ (by rintro _ ⟨⟩)
      exact ⟨reason, none, List.getElem?_concat_length, by rintro _ ⟨⟩⟩
    · exact h.endPass n d
  · next r' m hpc =>
    refine h.setNode n fun p' hp' => ?_
    cases hp'
    rw [hpc] at hw hr
    cases hr
    obtain ⟨reason, reply', hreq, hlt⟩ := hw
    rcases hreply with hn | ⟨req, hreq'⟩
    · cases hn
    · cases hreq.symm.trans hreq'
      have ha := hp.advance hrest (hlt m rfl)
      exact ⟨ha.running, ha.dealt, ha.sorted, ha.known, ha.saving, ha.awaits⟩
  · exact h.endPass n d

/-- What executing a request tells the pass that waits for it. -/
theorem Awaits.execute (h : Awaits msgs requests q pc) (hk : Known msgs q)
    {req : MsgRequest} {r : Nat} (hr : requests[r]? = some (req, none)) :
    Awaits (req.execute msgs).1 (requests.set r (req, some (req.execute msgs).2)) q pc := by
  have he := req.execute_evolved msgs
  have hset (i : Nat) : (requests.set r (req, some (req.execute msgs).2))[i]? =
      if r = i then some (req, some (req.execute msgs).2) else requests[i]? := by
    rw [List.getElem?_set]
    split
    · next hi =>
      rw [if_pos (hi ▸ (List.getElem?_eq_some_iff.mp hr).1)]
    · rfl
  cases pc with
  | acking r' =>
    obtain ⟨reply, hreq, hlt⟩ := h
    by_cases hrr : r = r'
    · subst hrr
      cases hr.symm.trans hreq
      refine ⟨_, (hset r).trans (if_pos rfl), fun _ => ?_⟩
      obtain ⟨m, hm, hle, hp⟩ := hk
      by_cases hst : m.status = .pending
      · have hx : (MsgRequest.markDelivered q.1).execute msgs =
            (msgs.set q.1 { m with status := .delivered, settled := m.settled + 1 },
              .doc { m with status := .delivered, settled := m.settled + 1 }) := by
          simp only [MsgRequest.execute, findAndModify, MsgRequest.msg, hm, MsgRequest.fromStatus,
            hst, if_true, MsgRequest.update]
        rw [hx, settledOf_of (List.getElem?_set_self (List.getElem?_eq_some_iff.mp hm).1)]
        exact Nat.lt_succ_of_le hle
      · refine settledOf_mono he ⟨m, hm, hle, hp⟩ ?_
        rw [settledOf_of hm]
        exact Nat.lt_of_le_of_ne hle fun heq => hst (hp heq.symm)
    · exact ⟨reply, (hset r').trans ((if_neg hrr).trans hreq), fun hn =>
        settledOf_mono he hk (hlt hn)⟩
  | killing r' =>
    obtain ⟨reason, reply, hreq, hlt⟩ := h
    by_cases hrr : r = r'
    · subst hrr
      cases hr.symm.trans hreq
      refine ⟨reason, _, (hset r).trans (if_pos rfl), fun m' hm' => ?_⟩
      obtain ⟨m, hm, hle, hp⟩ := hk
      by_cases hst : m.status = .pending
      · have hx : ((MsgRequest.markDead q.1 reason).execute msgs).1 =
            msgs.set q.1 ((MsgRequest.markDead q.1 reason).update m) := by
          simp only [MsgRequest.execute, findAndModify, MsgRequest.msg, hm, MsgRequest.fromStatus,
            hst, if_true]
        rw [hx, settledOf_of (List.getElem?_set_self (List.getElem?_eq_some_iff.mp hm).1)]
        exact Nat.lt_succ_of_le hle
      · have hx : ((MsgRequest.markDead q.1 reason).execute msgs).2 = .notMatched := by
          simp only [MsgRequest.execute, findAndModify, MsgRequest.msg, hm, MsgRequest.fromStatus,
            hst, if_false]
        rw [hx] at hm'
        cases hm'
    · exact ⟨reason, reply, (hset r').trans ((if_neg hrr).trans hreq),
        fun m' hm' => settledOf_mono he hk (hlt m' hm')⟩
  | saving c valid => exact h
  | _ => trivial

theorem execute_delivered {req : MsgRequest} {i : Nat} {m : ReliableMsg}
    (hm : (req.execute msgs).1[i]? = some m) (hd : m.status = .delivered) :
    req = .markDelivered i ∨ ∃ m', msgs[i]? = some m' ∧ m'.status = .delivered := by
  unfold MsgRequest.execute findAndModify at hm
  split at hm
  · next x hx =>
    split at hm
    · next hs =>
      by_cases hi : req.msg = i
      · subst hi
        rw [List.getElem?_set_self (List.getElem?_eq_some_iff.mp hx).1] at hm
        cases hm
        cases req with
        | markDelivered i => exact .inl rfl
        | recordFailure i err => exact .inr ⟨x, hx, hd⟩
        | markDead i reason => cases hd
        | replay i => cases hd
        | discard i operator => cases hd
      · rw [List.getElem?_set_ne hi] at hm
        exact .inr ⟨m, hm, hd⟩
    · exact .inr ⟨m, hm, hd⟩
  · exact .inr ⟨m, hm, hd⟩

theorem Inv.execute (h : s.Inv) {r : Nat} {req : MsgRequest}
    (hr : s.requests[r]? = some (req, none)) :
    { s with
      msgs := (req.execute s.msgs).1
      requests := s.requests.set r (req, some (req.execute s.msgs).2) }.Inv := by
  refine ⟨fun n p hp => ?_, fun i reply hi => ?_, fun i m hm hd => ?_, h.inserting⟩
  · have hok := h.passes n p hp
    refine hok.evolved (req.execute_evolved s.msgs) fun q rest hrest => ?_
    exact (hok.awaits q rest hrest).execute (hok.head hrest) hr
  · rcases List.mem_or_eq_of_mem_set hi with hi | hi
    · exact h.acks i reply hi
    · cases hi
      exact h.acks i none (List.mem_of_getElem? hr)
  · rcases execute_delivered hm hd with rfl | ⟨m', hm', hd'⟩
    · exact h.acks i none (List.mem_of_getElem? hr)
    · exact h.delivered i m' hm' hd'

theorem Inv.step (h : s.Inv) {a : DeliveryAction} (ht : s.step a = some t) : t.Inv := by
  cases a with
  | nextSeq cmd =>
    cases ht
    refine ⟨h.passes, h.acks, h.delivered, fun m hm => ?_⟩
    rcases List.mem_append.mp hm with hm | hm
    · exact h.inserting m hm
    · cases List.mem_singleton.mp hm
      rfl
  | insert k =>
    obtain ⟨x, hx, rfl⟩ := Option.map_eq_some_iff.mp ht
    refine ⟨fun n p hp => (h.passes n p hp).grow (.append _ _) fun _ _ => id, h.acks,
      fun i m hm hd => ?_, fun m hm => h.inserting m (List.mem_of_mem_eraseIdx hm)⟩
    rcases List.mem_append.mp (List.mem_of_getElem? hm) with hm' | hm'
    · by_cases hi : i < s.msgs.length
      · exact h.delivered i m ((List.getElem?_append_left hi).symm.trans hm) hd
      · rw [List.getElem?_append_right (Nat.le_of_not_lt hi), List.getElem?_singleton] at hm
        obtain ⟨_, hm⟩ := Option.ite_none_right_eq_some.mp hm
        cases hm
        cases (h.inserting x (List.mem_of_getElem? hx)).symm.trans hd
    · cases List.mem_singleton.mp hm'
      cases (h.inserting x (List.mem_of_getElem? hx)).symm.trans hd
  | abandon k =>
    cases ht
    exact ⟨h.passes, h.acks, h.delivered, fun m hm => h.inserting m (List.mem_of_mem_eraseIdx hm)⟩
  | request r =>
    simp only [DeliveryCluster.step] at ht
    split at ht
    · cases ht
      exact h.send _ (by rintro _ ⟨⟩)
    · cases ht
      exact h.send _ (by rintro _ ⟨⟩)
    · cases ht
      exact h.send _ (by rintro _ ⟨⟩)
    · cases ht
  | execute r =>
    simp only [DeliveryCluster.step] at ht
    split at ht
    · next req hr =>
      cases ht
      exact h.execute hr
    · cases ht
  | mgr n a =>
    simp only [DeliveryCluster.step, Option.ite_none_right_eq_some] at ht
    obtain ⟨ha, ht⟩ := ht
    obtain ⟨mgr', hm, rfl⟩ := Option.map_eq_some_iff.mp ht
    refine h.setNode n fun p hp => ?_
    have hok := h.passes n p hp
    obtain ⟨job, hr⟩ := hok.running
    have hne : a ≠ .handler := by
      rintro rfl
      have hp' : (s.nodes n).pass = some p := hp
      simp [DeliveryNode.allows, hp'] at ha
    obtain ⟨hr', hc⟩ := Entitymgr.step_handling hr hne hm
    exact hok.onward (hr'.trans hr.symm) hc
  | pass n =>
    simp only [DeliveryCluster.step] at ht
    split at ht
    · next job hr hp =>
      cases ht
      refine h.setNode n fun p hp' => ?_
      cases hp'
      exact ⟨⟨job, hr⟩, ⟨[], rfl, by rintro _ ⟨⟩⟩, .nil, by rintro _ ⟨⟩, by rintro _ _ ⟨⟩,
        fun _ _ _ => trivial⟩
    · cases ht
  | loadPending n ok =>
    simp only [DeliveryCluster.step] at ht
    split at ht
    · next p hp =>
      obtain ⟨_, ht⟩ := Option.ite_none_right_eq_some.mp ht
      cases ht
      split
      · exact h.loaded n (h.passes n p hp).running
      · exact h.endPass n _
    · cases ht
  | next n =>
    simp only [DeliveryCluster.step] at ht
    split at ht
    · next p hp =>
      obtain ⟨_, ht⟩ := Option.ite_none_right_eq_some.mp ht
      cases ht
      exact h.next n (h.passes n p hp)
    · cases ht
  | handler n err =>
    simp only [DeliveryCluster.step] at ht
    split at ht
    · next p hp =>
      split at ht
      · next i k rest hpc hrest =>
        cases ht
        exact (h.called _).handled n ((h.passes n p hp).called _) hrest (.head _) (Nat.le_refl _)
      · cases ht
    · cases ht
  | save n applied ok =>
    simp only [DeliveryCluster.step] at ht
    split at ht
    · next p hp =>
      split at ht
      · next c valid i k rest hpc hrest =>
        exact h.saved n (h.passes n p hp) hrest hpc ht
      · cases ht
    · cases ht
  | reply n arrived =>
    simp only [DeliveryCluster.step] at ht
    split at ht
    · next p hp =>
      split at ht
      · next r i k rest hr hrest =>
        cases ht
        refine h.replied n (h.passes n p hp) hrest hr ?_
        cases arrived with
        | false => exact .inl rfl
        | true =>
          cases hreq : s.requests[r]? with
          | none => exact .inl rfl
          | some x => exact .inr ⟨x.1, rfl⟩
      · cases ht
    · cases ht

theorem inv_reaches (h : system.Reaches ok s) : s.Inv := by
  apply h.invariant (fun s hs => ?_) fun _ _ _ hi _ ht => hi.step ht
  obtain ⟨conf, handlers, resident, rfl⟩ := hs
  exact ⟨by rintro _ _ ⟨⟩, by rintro _ _ ⟨⟩, by rintro _ _ ⟨⟩, by rintro _ ⟨⟩⟩

@[simp] theorem setNode_msgs (s : DeliveryCluster) (n : Nat) (d : DeliveryNode) :
    (s.setNode n d).msgs = s.msgs := rfl

@[simp] theorem send_msgs (s : DeliveryCluster) (r : MsgRequest) : (s.send r).msgs = s.msgs := rfl

@[simp] theorem await_msgs (s : DeliveryCluster) (n : Nat) (d : DeliveryNode) (p : DeliveryPass)
    (r : MsgRequest) (pc : Nat → PassPc) : (s.await n d p r pc).msgs = s.msgs := rfl

@[simp] theorem quarantine_msgs (s : DeliveryCluster) (n : Nat) (d : DeliveryNode)
    (p : DeliveryPass) (i : Nat) (reason : String) :
    (s.quarantine n d p i reason).msgs = s.msgs := rfl

theorem next_msgs (s : DeliveryCluster) (n : Nat) (d : DeliveryNode) (p : DeliveryPass) :
    (s.next n d p).msgs = s.msgs := by
  unfold DeliveryCluster.next
  split
  · rfl
  · split
    · rfl
    · dsimp only
      split <;> rfl

theorem handled_msgs (s : DeliveryCluster) (n : Nat) (d : DeliveryNode) (p : DeliveryPass)
    (c : HandlerCall) : (s.handled n d p c).msgs = s.msgs := by
  unfold DeliveryCluster.handled
  split
  · rfl
  · split <;> rfl

theorem saved_msgs {i : Nat} {c : HandlerCall} {valid applied ok : Bool}
    (ht : s.saved n d p i c valid applied ok = some t) : t.msgs = s.msgs := by
  unfold DeliveryCluster.saved at ht
  split at ht
  · cases ht
    rfl
  · obtain ⟨mgr', _, rfl⟩ := Option.map_eq_some_iff.mp ht
    split
    · unfold DeliveryCluster.acknowledge
      split <;> rfl
    · rfl

theorem replied_msgs (s : DeliveryCluster) (n : Nat) (d : DeliveryNode) (p : DeliveryPass)
    (i : Nat) (reply : Option ModifiedDoc) : (s.replied n d p i reply).msgs = s.msgs := by
  unfold DeliveryCluster.replied
  split
  · rfl
  · split <;> rfl
  · rfl
  · rfl

/-- Whatever happens, no message is removed and its status moves as it may. -/
theorem step_evolved {a : DeliveryAction} (ht : s.step a = some t) : Evolved s.msgs t.msgs := by
  have hsame : t.msgs = s.msgs → Evolved s.msgs t.msgs := fun he => he ▸ .refl _
  cases a with
  | nextSeq cmd =>
    cases ht
    exact .refl _
  | insert k =>
    obtain ⟨x, _, rfl⟩ := Option.map_eq_some_iff.mp ht
    exact .append _ x
  | abandon k =>
    cases ht
    exact .refl _
  | request r =>
    simp only [DeliveryCluster.step] at ht
    split at ht <;> cases ht <;> exact .refl _
  | execute r =>
    simp only [DeliveryCluster.step] at ht
    split at ht
    · next req _ =>
      cases ht
      exact req.execute_evolved _
    · cases ht
  | mgr n a =>
    simp only [DeliveryCluster.step, Option.ite_none_right_eq_some] at ht
    obtain ⟨mgr', _, rfl⟩ := Option.map_eq_some_iff.mp ht.2
    exact .refl _
  | pass n =>
    simp only [DeliveryCluster.step] at ht
    split at ht <;> cases ht
    exact .refl _
  | loadPending n ok =>
    simp only [DeliveryCluster.step] at ht
    split at ht
    · obtain ⟨_, ht⟩ := Option.ite_none_right_eq_some.mp ht
      cases ht
      split <;> exact .refl _
    · cases ht
  | next n =>
    simp only [DeliveryCluster.step] at ht
    split at ht
    · obtain ⟨_, ht⟩ := Option.ite_none_right_eq_some.mp ht
      cases ht
      exact hsame (next_msgs _ _ _ _)
    · cases ht
  | handler n err =>
    simp only [DeliveryCluster.step] at ht
    split at ht
    · split at ht <;> cases ht
      exact hsame (handled_msgs _ _ _ _ _)
    · cases ht
  | save n applied ok =>
    simp only [DeliveryCluster.step] at ht
    split at ht
    · split at ht
      · exact hsame (saved_msgs ht)
      · cases ht
    · cases ht
  | reply n arrived =>
    simp only [DeliveryCluster.step] at ht
    split at ht
    · split at ht <;> cases ht
      exact hsame (replied_msgs _ _ _ _ _ _)
    · cases ht

/-- Reliable messages are kept, acknowledged only after persistence, handled in order and under
the gate of the entity. -/
structure AtLeastOnce (s : DeliveryCluster) : Prop where
  moves : ∀ a t, s.step a = some t → ∀ (i : Nat) m, s.msgs[i]? = some m →
    ∃ m', t.msgs[i]? = some m' ∧ (m'.status = m.status ∨ m.status.Moves m'.status)
  delivered : ∀ (i : Nat) m, s.msgs[i]? = some m → m.status = .delivered → s.Attempted i
  acked : ∀ i reply, (.markDelivered i, reply) ∈ s.requests → s.Attempted i
  order : ∀ n p q rest, (s.nodes n).pass = some p → p.pc = .handler → p.rest = q :: rest →
    ∀ q' ∈ p.loaded, seqOf s.msgs q'.1 < seqOf s.msgs q.1 → q'.2 < settledOf s.msgs q'.1
  gate : ∀ n p, (s.nodes n).pass = some p → ∃ job, (s.nodes n).mgr.running = some (.handling job)

/-- Whatever stands before the message at work has been dealt with. -/
theorem PassOk.order (h : PassOk msgs requests calls mgr p) (hr : p.rest = q :: rest)
    (hq : q' ∈ p.loaded) (hlt : seqOf msgs q'.1 < seqOf msgs q.1) :
    q'.2 < settledOf msgs q'.1 := by
  obtain ⟨l, hl, hd⟩ := h.dealt
  have hs := h.sorted
  rw [hl, hr] at hs
  rw [hl, hr] at hq
  rcases List.mem_append.mp hq with hq | hq
  · exact hd q' hq
  · rcases List.mem_cons.mp hq with rfl | hq
    · exact absurd hlt (Nat.lt_irrefl _)
    · have hle := (List.pairwise_cons.mp (List.pairwise_append.mp hs).2.1).1 q' hq
      exact absurd hlt (Nat.not_lt.mpr hle)

theorem at_least_once (h : system.Reaches anyStep s) : s.AtLeastOnce := by
  have hi := inv_reaches h
  refine ⟨fun a t ht i m hm => ?_, hi.delivered, hi.acks, fun n p q rest hp _ hr q' hq hlt =>
    (hi.passes n p hp).order hr hq hlt, fun n p hp => (hi.passes n p hp).running⟩
  obtain ⟨m', hm', he⟩ := step_evolved ht i m hm
  exact ⟨m', hm', he.status⟩

/-- The node locks, loads and initializes the entity; its gate is then in a handler. -/
def loadEntity (n : Nat) (fence : Nat) : List DeliveryAction :=
  [.mgr n (.leaseAlive ⟨n, 1⟩ 1 false), .mgr n (.call .withEntity), .mgr n (.start "node"),
    .mgr n (.reply (some ⟨true, some fence, none⟩)), .mgr n (.dbLoad none), .mgr n (.hooks none)]

/-- A message is saved, handled with a change to the entity, and acknowledged. -/
def deliveredOnce : DeliveryCluster :=
  system.run anyStep (start none ["add"] false)
    ([.nextSeq "add", .insert 0] ++ loadEntity 0 5 ++
      [.pass 0, .loadPending 0 true, .next 0, .mgr 0 .change, .handler 0 none, .save 0 true true,
        .execute 0, .reply 0 true]) (by decide +kernel)

theorem deliveredOnce_status :
    deliveredOnce.msgs.map ReliableMsg.status = [.delivered] := by decide +kernel

theorem at_least_once_deliveredOnce : deliveredOnce.AtLeastOnce :=
  at_least_once (system.run_reaches anyStep _ ⟨none, ["add"], false, rfl⟩ (by decide +kernel))

/-- A delivery pass is under way on one node only. -/
def OnePass (s : DeliveryCluster) : Prop :=
  ∀ n m, (s.nodes n).pass.isSome = true → (s.nodes m).pass.isSome = true → n = m

/-- A node loses its lease in the middle of a message handler, and the next holder of the lock
starts its own pass before that handler returns. -/
def overlapped : DeliveryCluster :=
  system.run anyStep (start none ["add"] false)
    ([.nextSeq "add", .insert 0] ++ loadEntity 0 5 ++ [.pass 0, .loadPending 0 true, .next 0,
      .mgr 0 (.leaseLost 1)] ++ loadEntity 1 9 ++ [.pass 1]) (by decide +kernel)

theorem passes_overlap : ∃ s : DeliveryCluster, system.Reaches anyStep s ∧ ¬ s.OnePass := by
  refine ⟨overlapped,
    system.run_reaches anyStep _ ⟨none, ["add"], false, rfl⟩ (by decide +kernel), fun h => ?_⟩
  have hc := h 0 1 (by decide +kernel) (by decide +kernel)
  cases hc

end DeliveryCluster

end Skyext
