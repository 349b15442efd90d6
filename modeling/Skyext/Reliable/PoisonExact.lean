import Skyext.Lib.Snoc
import Skyext.Reliable.Poison

namespace Skyext
set_option autoImplicit true

open Machine Snoc

/-- The failure limit of the configuration. -/
def PoisonConf.limit (conf : PoisonConf) : Nat := maxAttempts conf.max_attempts

/-- The message had failed up to the limit, or its entity was missing and nowhere in memory. -/
def MsgDeath.Deserved (conf : PoisonConf) (d : MsgDeath) : Prop :=
  if d.sweep then d.unborn = true ∧ d.loaded = [] else conf.limit ≤ d.failures

namespace PoisonCluster

variable {conf : PoisonConf} {s t : PoisonCluster} {q : SentRequest} {i r k : Nat}

def counts (i : Nat) (q : SentRequest) : Bool :=
  q.reply.isNone && match q.request with
    | .recordFailure j _ => i = j
    | _ => false

/-- How many counts of the message are on their way. -/
def counting (s : PoisonCluster) (i : Nat) : Nat := s.requests.countP (counts i)

def swept : SweepPc → List Nat
  | .page _ rest => rest
  | .marking _ rest _ => rest
  | _ => []

/-- An attempt waits for the count of a failure of its message; a count at the limit is true. -/
def Recorded (conf : PoisonConf) (s : PoisonCluster) (d : DeliveryTry) : Prop :=
  ∀ r reason, d.pc = .recording r reason → ∃ q, s.requests[r]? = some q ∧
    (∃ e, q.request = .recordFailure d.msg e) ∧
    ∀ m, q.reply = some (.doc m) → conf.limit ≤ m.attempts.getD 0 → conf.limit ≤ s.failures d.msg

structure Inv (conf : PoisonConf) (s : PoisonCluster) : Prop where
  known : ∀ q ∈ s.requests, q.request.msg < s.msgs.length
  tries : ∀ d ∈ s.tries, d.msg < s.msgs.length
  pages : ∀ w ∈ s.sweeps, ∀ i ∈ swept w.pc, i < s.msgs.length
  counted : ∀ i m, s.msgs[i]? = some m → m.attempts.getD 0 + s.counting i ≤ s.failures i
  recorded : ∀ d ∈ s.tries, s.Recorded conf d
  killing : ∀ q ∈ s.requests, q.reply = none → q.sweep = false →
    ∀ i reason, q.request = .markDead i reason → conf.limit ≤ s.failures i
  missing : s.doc = false ∨ s.sweeping = true →
    s.loaded = [] ∧ ∀ i < s.msgs.length, s.unborn i = true
  deaths : ∀ d ∈ s.deaths, d.Deserved conf
  acked : ∀ q ∈ s.requests, ∀ i, q.request = .markDelivered i → ∀ m, q.reply = some (.doc m) →
    (s.msgs[i]?).map ReliableMsg.status = some .delivered

theorem Inv.sent (h : s.Inv conf) {r : MsgRequest} {sweep : Bool} {f : Nat → Nat}
    (hk : r.msg < s.msgs.length) (hf : ∀ i, s.failures i ≤ f i)
    (hcount : ∀ i, (counts i ⟨r, sweep, none⟩).toNat + s.failures i ≤ f i)
    (hkill : sweep = false → ∀ i reason, r = .markDead i reason → conf.limit ≤ f i)
    (hsweep : sweep = true → s.sweeping = true) :
    ({ s with failures := f }.send r sweep).Inv conf := by
  refine ⟨?_, h.tries, h.pages, fun i m hm => ?_, fun d hd r' reason hpc => ?_, ?_, fun hsw => ?_,
    h.deaths, ?_⟩
  · intro q hq
    rcases List.mem_append.mp hq with hq | hq
    · exact h.known q hq
    · cases List.mem_singleton.mp hq
      exact hk
  · have hold := h.counted i m hm
    have hnew := hcount i
    have hc : ({ s with failures := f }.send r sweep).counting i =
        s.counting i + (counts i ⟨r, sweep, none⟩).toNat := by
      simp only [counting, send, List.countP_append, List.countP_singleton]
      cases counts i ⟨r, sweep, none⟩ <;> rfl
    rw [hc]
    change _ ≤ f i
    omega
  · obtain ⟨q, hq, hreq, hdoc⟩ := h.recorded d hd r' reason hpc
    refine ⟨q, ?_, hreq, fun m hm hle => Nat.le_trans (hdoc m hm hle) (hf d.msg)⟩
    rw [← hq]
    exact List.getElem?_append_left (List.getElem?_eq_some_iff.mp hq).1
  · intro q hq hnone hs i reason hreq
    rcases List.mem_append.mp hq with hq | hq
    · exact Nat.le_trans (h.killing q hq hnone hs i reason hreq) (hf i)
    · cases List.mem_singleton.mp hq
      exact hkill hs i reason hreq
  · refine h.missing (hsw.imp_right fun hsw => ?_)
    rcases Bool.or_eq_true_iff.mp hsw with hsw | hsw
    · exact Bool.or_eq_true_iff.mpr (.inl hsw)
    · obtain ⟨q, hq, hq'⟩ := List.any_eq_true.mp hsw
      rcases List.mem_append.mp hq with hq | hq
      · exact Bool.or_eq_true_iff.mpr (.inr (List.any_eq_true.mpr ⟨q, hq, hq'⟩))
      · cases List.mem_singleton.mp hq
        exact hsweep (Bool.and_eq_true_iff.mp hq').1
  · intro q hq i hreq m hm
    rcases List.mem_append.mp hq with hq | hq
    · exact h.acked q hq i hreq m hm
    · cases List.mem_singleton.mp hq
      cases hm

theorem Inv.send (h : s.Inv conf) {r : MsgRequest} {sweep : Bool}
    (hk : r.msg < s.msgs.length) (hrec : ∀ i reason, r ≠ .recordFailure i reason)
    (hkill : sweep = false → ∀ i reason, r = .markDead i reason → conf.limit ≤ s.failures i)
    (hsweep : sweep = true → s.sweeping = true) : (s.send r sweep).Inv conf := by
  refine h.sent hk (fun _ => Nat.le_refl _) (fun i => ?_) hkill hsweep
  have hnot : counts i ⟨r, sweep, none⟩ = false := by
    cases r with
    | recordFailure j reason => exact absurd rfl (hrec j reason)
    | _ => rfl
  rw [hnot]
  exact Nat.le_of_eq (Nat.zero_add _)

theorem Inv.fail (h : s.Inv conf) (hi : i < s.msgs.length) (reason : String) :
    ((s.failed i).send (.recordFailure i reason) false).Inv conf := by
  have hle (j : Nat) : (counts j ⟨.recordFailure i reason, false, none⟩).toNat + s.failures j ≤
      Function.update s.failures i (s.failures i + 1) j := by
    by_cases hj : j = i
    · subst hj
      simp [counts, Nat.add_comm]
    · simp [counts, hj]
  exact h.sent hi (fun j => Nat.le_trans (Nat.le_add_left ..) (hle j)) hle
    (fun _ _ _ heq => by cases heq) (by rintro ⟨⟩)

theorem Inv.setTries (h : s.Inv conf) {tries : List DeliveryTry}
    (ht : ∀ d ∈ tries, d ∈ s.tries ∨ d.msg < s.msgs.length ∧ s.Recorded conf d) :
    ({ s with tries := tries } : PoisonCluster).Inv conf := by
  refine ⟨h.known, fun d hd => ?_, h.pages, h.counted, fun d hd => ?_, h.killing, h.missing,
    h.deaths, h.acked⟩
  · exact (ht d hd).elim (h.tries d) And.left
  · exact (ht d hd).elim (h.recorded d) And.right

theorem Inv.setTry (h : s.Inv conf) {d : DeliveryTry} {pc : TryPc} (hd : d.msg < s.msgs.length)
    (hpc : s.Recorded conf { d with pc := pc }) : (s.setTry k d pc).Inv conf := by
  refine h.setTries fun d' hd' => ?_
  rcases List.mem_or_eq_of_mem_set hd' with hd' | rfl
  · exact .inl hd'
  · exact .inr ⟨hd, hpc⟩

theorem Inv.setSweep (h : s.Inv conf) {w : MissingSweep} {pc : SweepPc} (hw : w ∈ s.sweeps)
    (hpc : w.pc ≠ .done) (hrest : ∀ i ∈ swept pc, i < s.msgs.length) :
    (s.setSweep k w pc).Inv conf := by
  have hon : s.sweeping = true :=
    Bool.or_eq_true_iff.mpr (.inl (List.any_eq_true.mpr ⟨w, hw, decide_eq_true hpc⟩))
  refine ⟨h.known, h.tries, fun w' hw' => ?_, h.counted, h.recorded, h.killing,
    fun _ => h.missing (.inr hon), h.deaths, h.acked⟩
  rcases List.mem_or_eq_of_mem_set hw' with hw' | rfl
  · exact h.pages w' hw'
  · exact hrest

theorem recorded_of_ne {d : DeliveryTry} (hpc : ∀ r reason, d.pc ≠ .recording r reason) :
    s.Recorded conf d := fun r reason hd => absurd hd (hpc r reason)

/-- An attempt waits for the count it has just sent. -/
theorem recorded_sent (n i : Nat) (reason : String) :
    ((s.failed i).send (.recordFailure i reason) false).Recorded conf
      ⟨n, i, .recording s.requests.length reason⟩ := by
  intro r reason' hpc
  cases hpc
  exact ⟨⟨.recordFailure i reason, false, none⟩, List.getElem?_concat_length, ⟨reason, rfl⟩,
    by rintro m ⟨⟩⟩

theorem Inv.deliver (h : s.Inv conf) (hi : i < s.msgs.length) (n : Nat) (cmd : String) :
    (s.deliver conf n i cmd).Inv conf := by
  rw [PoisonCluster.deliver]
  split
  · refine h.setTries fun d hd => ?_
    rcases List.mem_append.mp hd with hd | hd
    · exact .inl hd
    · cases List.mem_singleton.mp hd
      exact .inr ⟨hi, recorded_of_ne (by rintro _ _ ⟨⟩)⟩
  · refine (h.fail hi _).setTries fun d hd => ?_
    rcases List.mem_append.mp hd with hd | hd
    · exact .inl hd
    · cases List.mem_singleton.mp hd
      exact .inr ⟨hi, recorded_sent n i _⟩

theorem Inv.handled (h : s.Inv conf) {d : DeliveryTry} (hd : d.msg < s.msgs.length)
    (err : Option String) (valid : Bool) : (s.handled k d err valid).Inv conf := by
  cases err with
  | some reason => exact (h.fail hd reason).setTry hd (recorded_sent d.node d.msg reason)
  | none =>
    refine h.setTry hd (recorded_of_ne ?_)
    cases valid <;> rintro _ _ ⟨⟩

theorem Inv.replied (h : s.Inv conf) {d : DeliveryTry} (hd : d ∈ s.tries)
    {reply : Option ModifiedDoc}
    (hreply : ∀ r, awaited d.pc = some r → ∀ m, reply = some m → s.replyTo r = some m) :
    (s.replied conf k d reply).Inv conf := by
  have hmsg := h.tries d hd
  have hdone : (s.setTry k d .done).Inv conf :=
    h.setTry hmsg (recorded_of_ne (by rintro _ _ ⟨⟩))
  unfold PoisonCluster.replied
  split
  · next r reason m hpc =>
    split
    · next hle =>
      obtain ⟨q, hq, _, hdoc⟩ := h.recorded d hd r reason hpc
      have hq' : q.reply = some (.doc m) := by
        have hr := hreply r (by rw [hpc]; rfl) (.doc m) rfl
        rw [replyTo, hq] at hr
        exact hr
      have hsent : (s.send (.markDead d.msg reason) false).Inv conf := by
        refine h.send hmsg (by rintro _ _ ⟨⟩) (fun _ i reason' heq => ?_) (by rintro ⟨⟩)
        cases heq
        exact hdoc m hq' hle
      exact hsent.setTry hmsg (recorded_of_ne (by rintro _ _ ⟨⟩))
    · exact hdone
  · exact hdone

theorem Inv.sweepOn (h : s.Inv conf) {w : MissingSweep} (hw : w ∈ s.sweeps) (ok : Bool) :
    (s.sweepOn k w ok).Inv conf := by
  have hpages := h.pages w hw
  unfold PoisonCluster.sweepOn
  split
  · next hpc =>
    refine h.setSweep hw (by rw [hpc]; rintro ⟨⟩) ?_
    split <;> exact fun i hi => absurd hi List.not_mem_nil
  · next hpc =>
    refine h.setSweep hw (by rw [hpc]; rintro ⟨⟩) fun i hi => ?_
    split at hi
    · obtain ⟨m, hm, _⟩ := mem_loadPending hi
      exact (List.getElem?_eq_some_iff.mp hm).1
    · exact absurd hi List.not_mem_nil
  · next full hpc =>
    refine h.setSweep hw (by rw [hpc]; rintro ⟨⟩) ?_
    split <;> exact fun i hi => absurd hi List.not_mem_nil
  · next full i rest hpc =>
    rw [hpc] at hpages
    have hne : w.pc ≠ .done := by
      rw [hpc]
      rintro ⟨⟩
    have hon : s.sweeping = true :=
      Bool.or_eq_true_iff.mpr (.inl (List.any_eq_true.mpr ⟨w, hw, decide_eq_true hne⟩))
    have hsent : (s.send (.markDead i "entity not found") true).Inv conf :=
      h.send (hpages i List.mem_cons_self) (by rintro _ _ ⟨⟩) (by rintro ⟨⟩) fun _ => hon
    exact hsent.setSweep hw hne fun j hj => hpages j (List.mem_cons_of_mem _ hj)
  · exact h

/-- A request finds the message in the status it asks for, or changes nothing. -/
theorem execute_cases (r : MsgRequest) (msgs : List ReliableMsg) :
    (∃ m, msgs[r.msg]? = some m ∧ m.status = r.fromStatus ∧
      r.execute msgs = (msgs.set r.msg (r.update m), .doc (r.update m))) ∨
    r.execute msgs = (msgs, .notMatched) := by
  rw [MsgRequest.execute, findAndModify]
  split
  · next m hm =>
    split
    · next hs => exact .inl ⟨m, hm, hs, rfl⟩
    · exact .inr rfl
  · exact .inr rfl

theorem judges_of_counts (h : counts i q = true) : q.judges i = true := by
  rw [counts, Bool.and_eq_true] at h
  rw [SentRequest.judges, h.1]
  cases hq : q.request <;> simp_all

theorem counting_set (hq : s.requests[r]? = some q) (reply : ModifiedDoc) :
    (s.requests.set r { q with reply := some reply }).countP (counts i) + (counts i q).toNat =
      s.counting i := by
  obtain ⟨hr, hget⟩ := List.getElem?_eq_some_iff.mp hq
  have hnew : counts i { q with reply := some reply } = false := rfl
  rw [List.countP_set hr, hget, hnew, counting]
  cases hc : counts i q with
  | false => simp
  | true =>
    have hpos : 0 < s.requests.countP (counts i) :=
      List.countP_pos_iff.mpr ⟨q, List.mem_of_getElem? hq, hc⟩
    simp only [if_true, Bool.false_eq_true, if_false, Bool.toNat_true]
    omega

theorem Inv.answered (h : s.Inv conf) (hq : s.requests[r]? = some q)
    {msgs : List ReliableMsg} {reply : ModifiedDoc} {f : Nat → Nat}
    (hlen : msgs.length = s.msgs.length)
    (hcount : ∀ i m, msgs[i]? = some m →
      m.attempts.getD 0 + s.counting i ≤ f i + (counts i q).toNat)
    (hdoc : ∀ m i e, q.request = .recordFailure i e → reply = .doc m →
      conf.limit ≤ m.attempts.getD 0 → conf.limit ≤ f i)
    (hrec : ∀ d ∈ s.tries, s.condemns conf d.msg d = true → conf.limit ≤ f d.msg)
    (hkill : ∀ q ∈ s.requests, q.sweep = false → ∀ i reason, q.request = .markDead i reason →
      q.judges i = true → conf.limit ≤ f i)
    (hacked : ∀ q ∈ s.requests, ∀ i, q.request = .markDelivered i → ∀ m, q.reply = some (.doc m) →
      (msgs[i]?).map ReliableMsg.status = some .delivered)
    (hself : ∀ i, q.request = .markDelivered i → ∀ m, reply = .doc m →
      (msgs[i]?).map ReliableMsg.status = some .delivered) :
    ({ s with
      msgs := msgs, failures := f
      requests := s.requests.set r { q with reply := some reply } } : PoisonCluster).Inv conf := by
  have hmem : q ∈ s.requests := List.mem_of_getElem? hq
  refine ⟨fun q' hq' => ?_, hlen ▸ h.tries, hlen ▸ h.pages, fun i m hm => ?_,
    fun d hd r' reason hpc => ?_, fun q' hq' hnone' hs i reason hreq => ?_, fun hsw => ?_, h.deaths,
    fun q' hq' i hreq m hm => ?_⟩
  · rw [hlen]
    rcases List.mem_or_eq_of_mem_set hq' with hq' | rfl
    · exact h.known q' hq'
    · exact h.known q hmem
  · have hset := counting_set (i := i) hq reply
    have hc := hcount i m hm
    change m.attempts.getD 0 +
      (s.requests.set r { q with reply := some reply }).countP (counts i) ≤ f i
    omega
  · obtain ⟨q', hq', ⟨e, hreq⟩, _⟩ := h.recorded d hd r' reason hpc
    by_cases hr : r' = r
    · subst hr
      cases hq.symm.trans hq'
      refine ⟨_, List.getElem?_set_self (List.getElem?_eq_some_iff.mp hq).1, ⟨e, hreq⟩,
        fun m hm hle => ?_⟩
      exact hdoc m d.msg e hreq (Option.some.inj hm) hle
    · refine ⟨q', (List.getElem?_set_ne (Ne.symm hr)).trans hq', ⟨e, hreq⟩, fun m hm hle => ?_⟩
      refine hrec d hd ?_
      have hreply : s.replyTo r' = some (.doc m) := by
        rw [replyTo, hq']
        exact hm
      simp only [condemns, hpc, hreply, decide_true, Bool.true_and]
      exact decide_eq_true hle
  · rcases List.mem_or_eq_of_mem_set hq' with hq' | rfl
    · refine hkill q' hq' hs i reason hreq ?_
      simp only [SentRequest.judges, hreq, hnone', hs, Option.isNone_none, decide_true,
        Bool.not_false, Bool.and_self]
    · cases hnone'
  · have hold : s.doc = false ∨ s.sweeping = true := by
      refine hsw.imp_right fun hsw => ?_
      rcases Bool.or_eq_true_iff.mp hsw with hsw | hsw
      · exact Bool.or_eq_true_iff.mpr (.inl hsw)
      · obtain ⟨q', hq', hon⟩ := List.any_eq_true.mp hsw
        rcases List.mem_or_eq_of_mem_set hq' with hq' | rfl
        · exact Bool.or_eq_true_iff.mpr (.inr (List.any_eq_true.mpr ⟨q', hq', hon⟩))
        · simp at hon
    obtain ⟨hloaded, hunborn⟩ := h.missing hold
    exact ⟨hloaded, hlen ▸ hunborn⟩
  · rcases List.mem_or_eq_of_mem_set hq' with hq' | rfl
    · exact hacked q' hq' i hreq m hm
    · exact hself i hreq m (Option.some.inj hm)

theorem Inv.death (h : s.Inv conf) {d : MsgDeath} (hd : d.Deserved conf) :
    ({ s with deaths := d :: s.deaths } : PoisonCluster).Inv conf := by
  refine ⟨h.known, h.tries, h.pages, h.counted, h.recorded, h.killing, h.missing, fun d' hd' => ?_,
    h.acked⟩
  rcases List.mem_cons.mp hd' with rfl | hd'
  · exact hd
  · exact h.deaths d' hd'

/-- An attempt about to kill its message has seen a true count. -/
theorem Inv.condemned (h : s.Inv conf) {d : DeliveryTry} (hd : d ∈ s.tries)
    (hc : s.condemns conf d.msg d = true) : conf.limit ≤ s.failures d.msg := by
  have hc := (Bool.and_eq_true_iff.mp hc).2
  split at hc
  · next r reason hpc =>
    obtain ⟨q, hq, _, hdoc⟩ := h.recorded d hd r reason hpc
    split at hc
    · next m hm =>
      rw [replyTo, hq] at hm
      exact hdoc m hm (of_decide_eq_true hc)
    · cases hc
  · cases hc

/-- An acknowledged message stays delivered, whatever request matches a message. -/
theorem Inv.acked_set (h : s.Inv conf) {m m' : ReliableMsg} (hm : s.msgs[i]? = some m)
    (hs : m.status ≠ .delivered) :
    ∀ q ∈ s.requests, ∀ j, q.request = .markDelivered j → ∀ d, q.reply = some (.doc d) →
      ((s.msgs.set i m')[j]?).map ReliableMsg.status = some .delivered := by
  intro q hq j hreq d hd
  have hold := h.acked q hq j hreq d hd
  by_cases hij : i = j
  · subst hij
    rw [hm] at hold
    exact absurd (Option.some.inj hold) hs
  · rwa [List.getElem?_set_ne hij]

theorem Inv.matched (h : s.Inv conf) (hq : s.requests[r]? = some q) (hnone : q.reply = none)
    {m : ReliableMsg} (hm : s.msgs[q.request.msg]? = some m)
    (hs : m.status = q.request.fromStatus)
    (hattempts : (q.request.update m).attempts.getD 0 ≤
      m.attempts.getD 0 + (counts q.request.msg q).toNat)
    (hstatus : ∀ i, q.request = .markDelivered i → (q.request.update m).status = .delivered) :
    ({ s with
      msgs := s.msgs.set q.request.msg (q.request.update m)
      requests := s.requests.set r
        { q with reply := some (.doc (q.request.update m)) } } : PoisonCluster).Inv conf := by
  have hmem : q ∈ s.requests := List.mem_of_getElem? hq
  have hdelivered : m.status ≠ .delivered := by
    rw [hs]
    cases q.request <;> rintro ⟨⟩
  have hsum := h.counted _ m hm
  refine h.answered (f := s.failures) hq List.length_set (fun j m' hm' => ?_)
    (fun m' i e hreq hreply hle => ?_) (fun d hd hc => ?_) (fun q' hq' hsw i reason hreq hj => ?_)
    (h.acked_set hm hdelivered) fun i hreq m' _ => ?_
  · rcases getElem?_set_cases hm' with ⟨rfl, rfl⟩ | ⟨_, hm'⟩
    · omega
    · exact Nat.le_trans (h.counted j m' hm') (Nat.le_add_right ..)
  · cases hreply
    have hmsg : q.request.msg = i := by rw [hreq]; rfl
    have hpos : 0 < s.counting i :=
      List.countP_pos_iff.mpr ⟨q, hmem, by simp [counts, hreq, hnone]⟩
    have hone : (counts q.request.msg q).toNat ≤ 1 := Bool.toNat_le _
    rw [hmsg] at hsum hone hattempts
    omega
  · exact h.condemned hd hc
  · refine h.killing q' hq' ?_ hsw i reason hreq
    exact Option.isNone_iff_eq_none.mp (Bool.and_eq_true_iff.mp hj).1
  · have hmsg : q.request.msg = i := by rw [hreq]; rfl
    rw [← hmsg, List.getElem?_set_self (List.getElem?_eq_some_iff.mp hm).1]
    exact congrArg some (hstatus i hreq)

/-- A replay matches a dead message nothing judges any more. -/
theorem Inv.replayed (h : s.Inv conf) (hq : s.requests[r]? = some q)
    (hreq : q.request = .replay i) {m : ReliableMsg} (hm : s.msgs[i]? = some m)
    (hs : m.status = .dead) (hjudge : (s.requests.any fun q => q.judges i) = false)
    (hcond : s.tries.any (s.condemns conf i) = false) :
    ({ s with
      msgs := s.msgs.set i (q.request.update m)
      failures := Function.update s.failures i 0
      requests := s.requests.set r
        { q with reply := some (.doc (q.request.update m)) } } : PoisonCluster).Inv conf := by
  have hnone : s.counting i = 0 := by
    refine List.countP_eq_zero.mpr fun q' hq' hc => ?_
    exact absurd (judges_of_counts hc) (List.any_eq_false.mp hjudge q' hq')
  refine h.answered (f := Function.update s.failures i 0) hq List.length_set
    (fun j m' hm' => ?_) (fun m' j e hr => ?_) (fun d hd hc => ?_)
    (fun q' hq' hsw j reason hr hj => ?_) (h.acked_set hm (by rw [hs]; rintro ⟨⟩))
    fun j hr => ?_
  · rcases getElem?_set_cases hm' with ⟨rfl, rfl⟩ | ⟨hij, hm'⟩
    · rw [hreq, hnone]
      exact Nat.zero_le _
    · rw [Function.update_of_ne (Ne.symm hij)]
      exact Nat.le_trans (h.counted j m' hm') (Nat.le_add_right ..)
  · rw [hreq] at hr
    cases hr
  · by_cases hd' : d.msg = i
    · exact absurd (hd' ▸ hc) (List.any_eq_false.mp hcond d hd)
    · rw [Function.update_of_ne hd']
      exact h.condemned hd hc
  · by_cases hj' : j = i
    · exact absurd (hj' ▸ hj) (List.any_eq_false.mp hjudge q' hq')
    · rw [Function.update_of_ne hj']
      refine h.killing q' hq' ?_ hsw j reason hr
      exact Option.isNone_iff_eq_none.mp (Bool.and_eq_true_iff.mp hj).1
  · rw [hreq] at hr
    cases hr

theorem Inv.unmatched (h : s.Inv conf) (hq : s.requests[r]? = some q) :
    ({ s with requests := s.requests.set r { q with reply := some .notMatched } } :
      PoisonCluster).Inv conf := by
  refine h.answered (f := s.failures) hq (rfl : s.msgs.length = s.msgs.length)
    (fun i m hm => Nat.le_trans (h.counted i m hm) (Nat.le_add_right ..)) (fun m i e _ he => ?_)
    (fun d hd hc => h.condemned hd hc) (fun q' hq' hsw i reason hreq hj => ?_) h.acked
    fun i _ m he => ?_
  · cases he
  · refine h.killing q' hq' ?_ hsw i reason hreq
    exact Option.isNone_iff_eq_none.mp (Bool.and_eq_true_iff.mp hj).1
  · cases he

theorem Inv.execute (h : s.Inv conf) (hq : s.requests[r]? = some q) (hnone : q.reply = none)
    (hok : s.Judged conf (.execute r)) : (s.execute r q).Inv conf := by
  have hmem : q ∈ s.requests := List.mem_of_getElem? hq
  rcases execute_cases q.request s.msgs with ⟨m, hm, hs, he⟩ | he
  · simp only [PoisonCluster.execute, he, reduceCtorEq, if_false, noted]
    split
    · next i reason hreq =>
      have hmatched := h.matched hq hnone hm hs (by rw [hreq]; exact Nat.le_add_right ..)
        (by rw [hreq]; rintro _ ⟨⟩)
      refine hmatched.death ?_
      rw [MsgDeath.Deserved]
      split
      · next hsw =>
        have hon : s.sweeping = true := Bool.or_eq_true_iff.mpr
          (.inr (List.any_eq_true.mpr ⟨q, hmem, Bool.and_eq_true_iff.mpr
            ⟨hsw, Option.isNone_iff_eq_none.mpr hnone⟩⟩))
        obtain ⟨hloaded, hunborn⟩ := h.missing (.inr hon)
        refine ⟨hunborn i ?_, hloaded⟩
        have hk := h.known q hmem
        rwa [hreq] at hk
      · next hsw => exact h.killing q hmem hnone (Bool.not_eq_true _ ▸ hsw) i reason hreq
    · next i hreq =>
      have hok := hok i (by simp only [PoisonCluster.replayed, hq, Option.map_some, hreq]; rfl)
      have hmsg : q.request.msg = i := by rw [hreq]; rfl
      rw [hmsg] at hm ⊢
      exact h.replayed hq hreq hm (by rw [hs, hreq]; rfl) hok.1 hok.2
    · next hdead hreplay =>
      refine h.matched hq hnone hm hs ?_ ?_
      · cases hreq : q.request with
        | recordFailure i e => simp [MsgRequest.update, counts, hreq, hnone, MsgRequest.msg]
        | replay i => exact absurd hreq (hreplay i)
        | _ => exact Nat.le_add_right ..
      · intro i hreq
        rw [hreq]
        rfl
  · simp only [PoisonCluster.execute, he, if_true]
    exact h.unmatched hq

theorem Inv.saved (h : s.Inv conf) (cmd : String) (hok : s.Judged conf (.save cmd))
    (ht : PoisonCluster.step conf s (.save cmd) = some t) : t.Inv conf := by
  cases ht
  have hgrow {j : Nat} (hj : j < s.msgs.length) :
      j < (s.msgs ++ [({ seq := s.msgs.length, cmd := cmd } : ReliableMsg)]).length := by
    rw [List.length_append]
    exact Nat.lt_add_right _ hj
  have hkept {j : Nat} (hj : j < s.msgs.length) :
      Function.update s.failures s.msgs.length 0 j = s.failures j :=
    Function.update_of_ne (Nat.ne_of_lt hj) ..
  refine ⟨fun q hq => hgrow (h.known q hq), fun d hd => hgrow (h.tries d hd),
    fun w hw i hi => hgrow (h.pages w hw i hi), fun i m hm => ?_, fun d hd r reason hpc => ?_,
    fun q hq hnone hs i reason hreq => ?_, fun hsw => ?_, h.deaths, fun q hq i hreq m hm => ?_⟩
  · rcases getElem?_snoc.mp hm with hm | ⟨rfl, rfl⟩
    · have hi := (List.getElem?_eq_some_iff.mp hm).1
      change _ ≤ Function.update s.failures s.msgs.length 0 i
      rw [hkept hi]
      exact h.counted i m hm
    · have hnew : s.counting s.msgs.length = 0 := by
        refine List.countP_eq_zero.mpr fun q hq hc => ?_
        have hlt := h.known q hq
        have hc := (Bool.and_eq_true_iff.mp hc).2
        split at hc
        · next j reason hreq =>
          rw [hreq] at hlt
          exact absurd (of_decide_eq_true hc).symm (Nat.ne_of_lt hlt)
        · cases hc
      change 0 + s.counting s.msgs.length ≤ _
      rw [hnew]
      exact Nat.zero_le _
  · obtain ⟨q, hq, hreq, hdoc⟩ := h.recorded d hd r reason hpc
    refine ⟨q, hq, hreq, ?_⟩
    change ∀ m, _ → _ → _ ≤ Function.update s.failures s.msgs.length 0 d.msg
    rw [hkept (h.tries d hd)]
    exact hdoc
  · have hlt := h.known q hq
    rw [hreq] at hlt
    have hlt : i < s.msgs.length := hlt
    change _ ≤ Function.update s.failures s.msgs.length 0 i
    rw [hkept hlt]
    exact h.killing q hq hnone hs i reason hreq
  · obtain ⟨hloaded, hunborn⟩ := h.missing hsw
    refine ⟨hloaded, fun i hi => ?_⟩
    have hdoc : s.doc = false := by
      rcases hsw with hsw | hsw
      · exact hsw
      · exact Bool.not_eq_true _ ▸ fun hdoc => Bool.false_ne_true ((hok hdoc).symm.trans hsw)
    by_cases hi' : i = s.msgs.length
    · subst hi'
      exact (Function.update_self ..).trans (by rw [hdoc]; rfl)
    · refine (Function.update_of_ne hi' ..).trans (hunborn i ?_)
      rw [List.length_append, List.length_singleton] at hi
      omega
  · have hlt := h.known q hq
    rw [hreq] at hlt
    have hlt : i < s.msgs.length := hlt
    change ((s.msgs ++ _)[i]?).map _ = _
    rw [List.getElem?_append_left hlt]
    exact h.acked q hq i hreq m hm

theorem Inv.loads (h : s.Inv conf) (n : Nat) (hok : s.sweeping = false) :
    ({ s with doc := true, loaded := n :: s.loaded } : PoisonCluster).Inv conf := by
  refine ⟨h.known, h.tries, h.pages, h.counted, h.recorded, h.killing, fun hsw => ?_, h.deaths,
    h.acked⟩
  rcases hsw with hsw | hsw
  · cases hsw
  · exact absurd (hok.symm.trans hsw) Bool.false_ne_true

theorem Inv.step {a : PoisonAction} (h : s.Inv conf) (hok : s.Judged conf a)
    (ht : PoisonCluster.step conf s a = some t) : t.Inv conf := by
  cases a with
  | createDoc =>
    cases ht
    refine ⟨h.known, h.tries, h.pages, h.counted, h.recorded, h.killing, fun hsw => ?_, h.deaths,
      h.acked⟩
    exact h.missing (.inr (hsw.resolve_left (by rintro ⟨⟩)))
  | save cmd => exact h.saved cmd hok ht
  | load n =>
    obtain ⟨_, ht⟩ := Option.ite_none_right_eq_some.mp ht
    cases ht
    exact h.loads n hok
  | forget n =>
    cases ht
    refine ⟨h.known, h.tries, h.pages, h.counted, h.recorded, h.killing, fun hsw => ?_, h.deaths,
      h.acked⟩
    obtain ⟨hloaded, hunborn⟩ := h.missing hsw
    exact ⟨by rw [hloaded]; rfl, hunborn⟩
  | notFound n =>
    obtain ⟨hdoc, ht⟩ := Option.ite_none_left_eq_some.mp ht
    cases ht
    have hdoc : s.doc = false := by
      cases hd : s.doc <;> simp_all
    refine ⟨h.known, h.tries, fun w hw => ?_, h.counted, h.recorded, h.killing,
      fun _ => h.missing (.inl hdoc), h.deaths, h.acked⟩
    rcases List.mem_append.mp hw with hw | hw
    · exact h.pages w hw
    · cases List.mem_singleton.mp hw
      exact fun i hi => absurd hi List.not_mem_nil
  | sweep k ok =>
    obtain ⟨w, hw, rfl⟩ := Option.map_eq_some_iff.mp ht
    exact h.sweepOn (List.mem_of_getElem? hw) ok
  | sweepReply k arrived =>
    rw [PoisonCluster.step] at ht
    split at ht
    · next w hw =>
      split at ht
      · next full rest r hpc =>
        cases ht
        have hmem := List.mem_of_getElem? hw
        refine h.setSweep hmem (by rw [hpc]; rintro ⟨⟩) fun i hi => ?_
        split at hi
        · exact h.pages w hmem i (by rw [hpc]; exact hi)
        · exact absurd hi List.not_mem_nil
      · cases ht
    · cases ht
  | deliver n i =>
    obtain ⟨_, ht⟩ := Option.ite_none_right_eq_some.mp ht
    obtain ⟨m, hm, rfl⟩ := Option.map_eq_some_iff.mp ht
    exact h.deliver (List.getElem?_eq_some_iff.mp hm).1 n m.cmd
  | handler k err valid =>
    rw [PoisonCluster.step] at ht
    split at ht
    · next d hd =>
      obtain ⟨_, ht⟩ := Option.ite_none_right_eq_some.mp ht
      cases ht
      exact h.handled (h.tries d (List.mem_of_getElem? hd)) err valid
    · cases ht
  | saved k ok valid =>
    rw [PoisonCluster.step] at ht
    split at ht
    · next d hd =>
      obtain ⟨_, ht⟩ := Option.ite_none_right_eq_some.mp ht
      cases ht
      have hmsg := h.tries d (List.mem_of_getElem? hd)
      split
      · have hsent : (s.send (.markDelivered d.msg) false).Inv conf :=
          h.send hmsg (by rintro _ _ ⟨⟩) (by rintro _ _ _ ⟨⟩) (by rintro ⟨⟩)
        exact hsent.setTry hmsg (recorded_of_ne (by rintro _ _ ⟨⟩))
      · exact h.setTry hmsg (recorded_of_ne (by rintro _ _ ⟨⟩))
    · cases ht
  | reply k arrived =>
    rw [PoisonCluster.step] at ht
    split at ht
    · next d hd =>
      obtain ⟨r, hr, rfl⟩ := Option.map_eq_some_iff.mp ht
      refine h.replied (List.mem_of_getElem? hd) fun r' hr' m hm => ?_
      cases hr.symm.trans hr'
      exact (Option.ite_none_right_eq_some.mp hm).2
    · cases ht
  | replay i =>
    obtain ⟨hi, ht⟩ := Option.ite_none_right_eq_some.mp ht
    cases ht
    exact h.send hi (by rintro _ _ ⟨⟩) (by rintro _ _ _ ⟨⟩) (by rintro ⟨⟩)
  | discard i operator =>
    obtain ⟨hi, ht⟩ := Option.ite_none_right_eq_some.mp ht
    cases ht
    exact h.send hi (by rintro _ _ ⟨⟩) (by rintro _ _ _ ⟨⟩) (by rintro ⟨⟩)
  | execute r =>
    rw [PoisonCluster.step] at ht
    split at ht
    · next q hq =>
      obtain ⟨hnone, ht⟩ := Option.ite_none_right_eq_some.mp ht
      cases ht
      exact h.execute hq (Option.isNone_iff_eq_none.mp hnone) hok
    · cases ht

theorem Inv.initial (h : Initial s) : s.Inv conf := by
  obtain ⟨hloaded, hmsgs, hrequests, htries, hsweeps, hdeaths⟩ := h
  refine ⟨?_, ?_, ?_, ?_, ?_, ?_, fun _ => ⟨hloaded, ?_⟩, ?_, ?_⟩
  · simp [hrequests]
  · simp [htries]
  · simp [hsweeps]
  · simp [hmsgs]
  · simp [htries]
  · simp [hrequests]
  · simp [hmsgs]
  · simp [hdeaths]
  · simp [hrequests]

/-- While messages are replayed only after everything that judges them, and no sweep acts on an
answer that is out of date, a message becomes dead only for its own failures or a missing entity,
only those failures are counted, and an acknowledged one stays delivered. -/
theorem poison_exact (h : (system conf).Reaches (Judged conf) s) :
    (∀ d ∈ s.deaths, d.Deserved conf) ∧
    (∀ i m, s.msgs[i]? = some m → m.attempts.getD 0 ≤ s.failures i) ∧
    ∀ q ∈ s.requests, ∀ i, q.request = .markDelivered i → ∀ m, q.reply = some (.doc m) →
      (s.msgs[i]?).map ReliableMsg.status = some .delivered := by
  have hinv : s.Inv conf :=
    h.invariant (fun _ hu => Inv.initial hu) fun u a v hu hok hv => Inv.step hu hok hv
  exact ⟨hinv.deaths, fun i m hm => Nat.le_trans (Nat.le_add_right ..) (hinv.counted i m hm),
    hinv.acked⟩

instance (s : PoisonCluster) (a : PoisonAction) : Decidable (s.Judged conf a) := by
  cases a <;> unfold Judged <;> infer_instance

def fresh (doc : Bool) : PoisonCluster :=
  ⟨doc, [], [], fun _ => false, fun _ => 0, [], [], [], []⟩

theorem fresh_initial (doc : Bool) : Initial (fresh doc) := ⟨rfl, rfl, rfl, rfl, rfl, rfl⟩

def giftConf : PoisonConf := ⟨some 1, ["gift"], false⟩

instance (conf : PoisonConf) (d : MsgDeath) : Decidable (d.Deserved conf) := by
  unfold MsgDeath.Deserved
  infer_instance

/-- A handler fails up to the limit, and the message is killed. -/
def killedRun : List PoisonAction :=
  [.load 0, .save "gift", .deliver 0 0, .handler 0 (some "boom") true, .execute 0, .reply 0 true]

theorem poison_exact_killed :
    ∃ s : PoisonCluster, s.deaths = [⟨0, false, 1, false, [0]⟩] ∧
      (∀ d ∈ s.deaths, d.Deserved giftConf) ∧
      (∀ i m, s.msgs[i]? = some m → m.attempts.getD 0 ≤ s.failures i) ∧
      ∀ q ∈ s.requests, ∀ i, q.request = .markDelivered i → ∀ m, q.reply = some (.doc m) →
        (s.msgs[i]?).map ReliableMsg.status = some .delivered :=
  ⟨(system giftConf).run (Judged giftConf) (fresh true) (killedRun ++ [.execute 1])
      (by decide +kernel), by decide +kernel,
    poison_exact ((system giftConf).run_reaches (Judged giftConf) _ (fresh_initial true)
      (by decide +kernel))⟩

/-- The kill of the first node is still on its way when the second has killed the message and it
has been replayed. -/
def staleKillRun : List PoisonAction :=
  killedRun ++ [.forget 0, .load 1, .deliver 1 0, .handler 1 (some "boom") true, .execute 2,
    .reply 1 true, .execute 3, .replay 0, .execute 4, .execute 1]

/-- The document is created after the answer "not found", loaded, and sent a message. -/
def staleSweepRun : List PoisonAction :=
  [.notFound 0, .createDoc, .load 1, .save "gift", .sweep 0 true, .sweep 0 true, .sweep 0 true,
    .execute 0]

/-- A message dies without a failure since its replay, and one of a loaded entity as missing. -/
theorem undeserved_deaths :
    (∃ s, (system giftConf).Reaches anyStep s ∧
      s.deaths = [⟨0, false, 0, false, [1]⟩, ⟨0, false, 2, false, [1]⟩]) ∧
    ∃ s, (system giftConf).Reaches anyStep s ∧ s.deaths = [⟨0, true, 0, false, [1]⟩] :=
  ⟨⟨(system giftConf).run anyStep (fresh true) staleKillRun (by decide +kernel),
      (system giftConf).run_reaches anyStep _ (fresh_initial true) (by decide +kernel),
      by decide +kernel⟩,
    (system giftConf).run anyStep (fresh false) staleSweepRun (by decide +kernel),
    (system giftConf).run_reaches anyStep _ (fresh_initial false) (by decide +kernel),
    by decide +kernel⟩

end PoisonCluster

end Skyext
