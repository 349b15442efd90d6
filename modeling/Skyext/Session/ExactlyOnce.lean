import Skyext.Session.Handover
import Skyext.Session.Transit

namespace Skyext
set_option autoImplicit true

namespace SessionLink

variable {conf : LinkConf} {s t : SessionLink} {io : SessionIo} {f f' : Frame}

theorem mem_sent {sent : List (Fd × Request)} {up : Fd → List Request} {fd : Fd}
    (h : r ∈ sent.foldl (fun (up : Fd → List Request) (m : Fd × Request) =>
      Function.update up m.1 (up m.1 ++ [m.2])) up fd) :
    r ∈ up fd ∨ (fd, r) ∈ sent := by
  induction sent generalizing up with
  | nil => exact .inl h
  | cons m sent ih =>
    rcases ih h with h | h
    · simp only [Function.update_apply] at h
      split at h
      · next he =>
        rcases List.mem_append.mp h with h | h
        · exact .inl (he ▸ h)
        · cases List.mem_singleton.mp h
          exact .inr (he ▸ List.mem_cons_self)
      · exact .inl h
    · exact .inr (.tail _ h)

theorem Counting.moves (h : Counting conf s) {c : Client} {sent : List (Fd × Request)}
    (hw : c.Wf) (hm : Client.Moves s.client c sent) : Counting conf (s.clientDid (c, sent)) := by
  have he := h.entity
  have hawaited : ∀ reqId b, reqId ≤ s.client.nextReqId → c.phase.awaited = some (reqId, b) →
      s.client.phase.awaited = some (reqId, b) :=
    fun reqId b hid hb => (hm.awaited reqId b hb).resolve_right (Nat.not_lt.mpr hid)
  have hasked : ∀ fd reqId what, (s.clientDid (c, sent)).Asked fd reqId what →
      s.Asked fd reqId what ∨
        ∃ r, (fd, r) ∈ sent ∧ r.session = reqId ∧ r.param.resumption = what := by
    intro fd reqId what ha
    cases ha with
    | up hu => exact (mem_sent hu).imp .up fun hs => ⟨_, hs, rfl, rfl⟩
    | loginIn hl => exact .inl (.loginIn hl)
    | job hj => exact .inl (.job hj)
    | bind hq => exact .inl (.bind hq)
    | resume hq => exact .inl (.resume hq)
    | binding hr => exact .inl (.binding hr)
    | resuming hr => exact .inl (.resuming hr)
  have hmissing : (s.clientDid (c, sent)).missing = s.missing := by
    funext g
    simp only [missing, base, clientDid, hm.session, hm.recv]
  refine ⟨hw, fun g hg => ?_, fun fd hc => h.conn fd (hm.conn fd hc), fun n hn => ?_,
    fun g hg => h.current g (hm.session ▸ hg), fun fd reqId what ha => ?_,
    fun fd reqId n recv ha => ?_, fun reqId reply hg => ?_,
    ⟨he.io, he.conns, he.session, he.resuming, he.queued, he.running⟩, h.frames, h.loginOut,
    h.future, fun fd g hc hg => ?_, fun cn hs hc ho => ?_⟩
  · have ht := h.tally g (hm.session ▸ hg)
    rw [← hm.recv, ← hm.counted] at ht
    exact ht
  · rcases hm.nonce n hn with hn | ⟨reqId, reply, ha, ho, hn⟩
    · exact h.known n hn
    · obtain ⟨_, n', hn', hi, _⟩ := h.granted reqId reply (.phase ha ho)
      cases hn.symm.trans hn'
      exact hi
  · rcases hasked fd reqId what ha with ha | ⟨r, hs, rfl, rfl⟩
    · obtain ⟨hf, hid, hk⟩ := h.asked fd reqId what ha
      exact ⟨hf, Nat.le_trans hid hm.ids, fun b hb => hk b (hawaited reqId b hid hb)⟩
    · obtain ⟨hc, hid, hr, hne⟩ := hm.sent _ hs
      refine ⟨h.conn fd hc, hid, fun b hb => ?_⟩
      cases b with
      | false => rw [hr, Option.isSome_none]
      | true => exact absurd hb hne
  · rcases hasked fd reqId _ ha with ha | ⟨r, hs, _, hr⟩
    · obtain ⟨hi, hwaits⟩ := h.resumption fd reqId n recv ha
      refine ⟨hi, fun hn => ?_⟩
      obtain ⟨hs, hr, hc, hconn⟩ := hwaits hn
      exact ⟨hm.session.trans hs, hm.recv.trans hr, ⟨hc.carried, hc.session⟩, fun fd' hf =>
        ⟨(hconn fd' (hm.conn fd' hf)).carried, (hconn fd' (hm.conn fd' hf)).session⟩⟩
    · cases (hm.sent _ hs).2.2.1.symm.trans hr
  · have hg : s.Granted reqId reply := by
      cases hg with
      | result hr ho => exact .result hr ho
      | loginOut hl hc ho => exact .loginOut hl hc ho
      | frame hf hs hc ho => exact .frame hf hs hc ho
      | phase ha ho => exact .phase (hm.answered _ ha) ho
    obtain ⟨hid, n, hn, hi, hx⟩ := h.granted reqId reply hg
    refine ⟨Nat.le_trans hid hm.ids, n, hn, hi, fun ha => ?_, fun ha => ?_⟩
    · exact hm.session.trans (hx.resume (hawaited reqId true hid ha))
    · intro g' hg'
      exact hx.login (hawaited reqId false hid ha) g' (hm.session ▸ hg')
  · rw [hmissing]
    exact h.sync fd g (hm.conn fd hc) fun g' hg' => hg g' (hm.session.trans hg')
  · rw [hmissing]
    exact h.full cn hs (hm.conn _ hc) ho

/-- The client has logged in: it has nothing yet of the session it has been told about. -/
theorem Counting.loggedIn (h : Counting conf s) (fd : Fd)
    (hp : s.client.phase = .loggingIn fd' reqId (some reply)) (hok : reply.code = some .OK) :
    Counting conf (s.clientDid (s.client.loggedIn fd (some reply), [])) := by
  have he := h.entity
  obtain ⟨hid, n, hn, hi, hx⟩ := h.granted reqId reply (.phase (by rw [hp]; rfl) hok)
  have hnew := hx.login (by rw [hp]; rfl)
  have hw := h.client.loggedIn fd hn hok
  obtain ⟨code, rid, nonce, got⟩ := reply
  cases hok
  cases hn
  have hbase : ∀ g, n.session ≤ g → SessionLink.base s g = 0 := by
    intro g hg
    rw [base, if_neg]
    intro hs
    have := hnew g hs
    omega
  have hmissing : ∀ g, n.session ≤ g → (s.clientDid (s.client.loggedIn fd
      (some ⟨some .OK, rid, some n, got⟩), [])).missing g = s.missing g := by
    intro g hg
    have hzero : (s.clientDid (s.client.loggedIn fd (some ⟨some .OK, rid, some n, got⟩),
        [])).base g = 0 := ite_self 0
    rw [missing, missing, hbase g hg, hzero]
    rfl
  refine ⟨hw, fun g hg => ?_, h.conn, fun n' hn' => ?_, fun g hg => ?_, fun fd' reqId' what ha =>
    ⟨(h.asked fd' reqId' what ha).1, (h.asked fd' reqId' what ha).2.1, (by rintro _ ⟨⟩)⟩,
    fun fd' reqId' n' recv ha => ?_, fun reqId' reply hg => ?_,
    ⟨he.io, he.conns, he.session, he.resuming, he.queued, he.running⟩, h.frames, h.loginOut,
    h.future, fun fd' g hc hg => ?_, fun cn hs hc ho => ?_⟩
  · exact ⟨Nat.zero_le _, rfl⟩
  · cases hn'
    exact hi
  · cases hg
    exact hi.le
  · obtain ⟨hi', hwaits⟩ := h.resumption fd' reqId' n' recv ha
    refine ⟨hi', fun hn' => ?_⟩
    -- a resume of the latest session was asked for by a client of that session
    have hs := hnew _ (hwaits hn').session
    have := hi.le
    omega
  · have hg : s.Granted reqId' reply := by
      cases hg with
      | result hr ho => exact .result hr ho
      | loginOut hl hc ho => exact .loginOut hl hc ho
      | frame hf hs hc ho => exact .frame hf hs hc ho
      | phase ha ho => cases ha
    obtain ⟨hid', n', hn', hi', _⟩ := h.granted reqId' reply hg
    exact ⟨hid', n', hn', hi', (by rintro ⟨⟩), (by rintro ⟨⟩)⟩
  · have hle : n.session ≤ g := hg n.session rfl
    rw [hmissing g hle]
    refine h.sync fd' g hc fun g' hg' => ?_
    have := hnew g' hg'
    omega
  · exact (h.full cn hs hc ho).trans (hmissing _ hi.le).symm

def shift (s : SessionLink) (fd : Fd) (rest : List Frame) : SessionLink :=
  { s with down := Function.update s.down fd rest }

theorem shift_carried (hd : s.down fd = f :: rest) (g : Nat) (fd' : Fd) :
    s.carried g fd' = (if fd' = fd then (Frame.contentOf g f).toList else []) ++
      (s.shift fd rest).carried g fd' := by
  simp only [carried, pipe, shift]
  by_cases hfd : fd' = fd
  · subst hfd
    simp only [hd, Function.update_self, if_true, List.cons_append, List.filterMap_cons]
    cases Frame.contentOf g f <;> rfl
  · simp only [Function.update_of_ne hfd, if_neg hfd, List.nil_append]
    rfl

theorem shift_holds (hd : s.down fd = f :: rest) (h : (s.shift fd rest).Holds fd' f') :
    s.Holds fd' f' := by
  refine h.imp (fun h => ?_) id
  simp only [shift, Function.update_apply] at h
  split at h
  · next he => exact he ▸ hd ▸ .tail _ h
  · exact h

theorem shift_clear (hd : s.down fd = f :: rest) (h : s.Clear fd') :
    (s.shift fd rest).Clear fd' := by
  refine ⟨?_, h.session⟩
  have hc := h.carried
  rw [shift_carried hd] at hc
  exact (List.append_eq_nil_iff.mp hc).2

/-- A package is lost that came over a connection the client has given up. -/
theorem Counting.lost (h : Counting conf s) (hd : s.down fd = f :: rest)
    (hne : s.client.conn ≠ some fd) : Counting conf (s.shift fd rest) := by
  have he := h.entity
  have hcarried : ∀ g fd', s.client.conn = some fd' →
      s.carried g fd' = (s.shift fd rest).carried g fd' := by
    intro g fd' hc
    have hfd : fd' ≠ fd := fun heq => hne (hc.trans (congrArg some heq))
    rw [shift_carried hd, if_neg hfd, List.nil_append]
  refine ⟨h.client, h.tally, h.conn, h.known, h.current, h.asked, fun fd' reqId n recv ha => ?_,
    fun reqId reply hg => ?_,
    ⟨he.io, he.conns, he.session, he.resuming, he.queued, he.running⟩,
    fun fd' f' g hf => h.frames fd' f' g (shift_holds hd hf), h.loginOut, h.future,
    fun fd' g hc hg => hcarried g fd' hc ▸ h.sync fd' g hc hg,
    fun c hs hc ho => (hcarried _ _ hc).symm.trans (h.full c hs hc ho)⟩
  · obtain ⟨hi, hwaits⟩ := h.resumption fd' reqId n recv ha
    refine ⟨hi, fun hn => ?_⟩
    obtain ⟨hs, hr, hc, hconn⟩ := hwaits hn
    exact ⟨hs, hr, shift_clear hd hc, fun fd'' hf => shift_clear hd (hconn fd'' hf)⟩
  · refine h.granted reqId reply ?_
    cases hg with
    | result hr ho => exact .result hr ho
    | loginOut hl hc ho => exact .loginOut hl hc ho
    | frame hf hs hc ho => exact .frame (shift_holds hd hf) hs hc ho
    | phase ha ho => exact .phase ha ho

/-- The first package of the pipe is for the client: it is counted just if it is tagged with the
session of the client. -/
structure Taken (s : SessionLink) (fd : Fd) (f : Frame) (rest : List Frame) : Prop where
  down : s.down fd = f :: rest
  conn : s.client.conn = some fd
  tagged : ∀ g, f.session = some g →
    s.client.session = some g ∧ s.client.counts f.content = true
  untagged : f.session = none → s.client.counts f.content = false

theorem Taken.carried (ht : s.Taken fd f rest) (g : Nat) :
    s.carried g fd = (Frame.contentOf g f).toList ++ (s.shift fd rest).carried g fd := by
  rw [shift_carried ht.down, if_pos rfl]

/-- What the client is missing begins with what it takes. -/
theorem Taken.missing (ht : s.Taken fd f rest) (h : Counting conf s)
    (hh : Client.Handles s.client c f.content)
    (hg : ∀ g', s.client.session = some g' → g' ≤ g) : s.missing g =
      (Frame.contentOf g f).toList ++ ((s.shift fd rest).clientDid (c, [])).missing g := by
  have hbase : ((s.shift fd rest).clientDid (c, [])).base g =
      if s.client.session = some g then s.client.recv + (s.client.counts f.content).toNat
      else 0 := by
    rw [← hh.session, ← hh.recv]
    rfl
  have hnew : ((s.shift fd rest).clientDid (c, [])).missing g = ((s.log g).drop
      (if s.client.session = some g then s.client.recv + (s.client.counts f.content).toNat
      else 0)).map Pack.content := by
    rw [← hbase]
    rfl
  rw [hnew]
  cases hf : f.session with
  | none =>
    simp only [ht.untagged hf, Bool.toNat_false, Nat.add_zero, Frame.contentOf, hf, reduceCtorEq,
      if_false, Option.toList_none, List.nil_append]
    rfl
  | some g₀ =>
    obtain ⟨hs, hc⟩ := ht.tagged g₀ hf
    by_cases heq : g₀ = g
    · subst heq
      have hp := h.sync fd g₀ ht.conn hg
      rw [ht.carried] at hp
      simp only [SessionLink.missing, base, hc, hs, Bool.toNat_true, Frame.contentOf, hf, if_true,
        Option.toList_some, List.cons_append, List.nil_append] at hp ⊢
      have hlt : s.client.recv < (s.log g₀).length := by
        by_contra hge
        rw [List.drop_of_length_le (Nat.not_lt.mp hge)] at hp
        cases List.prefix_nil.mp hp
      rw [List.drop_eq_getElem_cons hlt, List.map_cons] at hp ⊢
      rw [(List.cons_prefix_cons.mp hp).1]
    · have hne : ¬ s.client.session = some g := fun hs' =>
        heq (Option.some.inj (hs.symm.trans hs'))
      simp only [SessionLink.missing, base, if_neg hne, Frame.contentOf, hf, Option.some.injEq,
        if_neg heq, Option.toList_none, List.nil_append]

theorem Taken.tally (ht : s.Taken fd f rest) (h : Counting conf s)
    (hh : Client.Handles s.client c f.content) (hg : s.client.session = some g) :
    c.recv ≤ (s.log g).length ∧ c.counted = ((s.log g).take c.recv).map Pack.content := by
  obtain ⟨hle, hcounted⟩ := h.tally g hg
  rw [hh.recv, hh.counted]
  cases hf : f.session with
  | none =>
    rw [ht.untagged hf]
    simp only [Bool.toNat_false, Nat.add_zero, Bool.false_eq_true, if_false, List.append_nil]
    exact ⟨hle, hcounted⟩
  | some g₀ =>
    obtain ⟨hs, hc⟩ := ht.tagged g₀ hf
    cases hs.symm.trans hg
    have hm := ht.missing h hh fun g' hg' => Nat.le_of_eq (Option.some.inj (hg'.symm.trans hs))
    have hof : Frame.contentOf g f = some f.content := if_pos hf
    rw [hof, SessionLink.missing, base, if_pos hs] at hm
    have hlt : s.client.recv < (s.log g).length := by
      by_contra hge
      rw [List.drop_of_length_le (Nat.not_lt.mp hge)] at hm
      cases hm
    rw [List.drop_eq_getElem_cons hlt, List.map_cons] at hm
    rw [hc, hcounted, Bool.toNat_true, if_pos rfl, List.take_succ_eq_append_getElem hlt,
      List.map_append, List.map_singleton, (List.cons.inj hm).1]
    exact ⟨hlt, rfl⟩

theorem Taken.waits (ht : s.Taken fd f rest) (hh : Client.Handles s.client c f.content)
    (hw : s.Waits fd' recv) : ((s.shift fd rest).clientDid (c, [])).Waits fd' recv := by
  obtain ⟨hs, hr, hcl, hconn⟩ := hw
  have hclear : ∀ fd'', s.Clear fd'' → ((s.shift fd rest).clientDid (c, [])).Clear fd'' :=
    fun fd'' hc => ⟨(shift_clear ht.down hc).carried, hc.session⟩
  refine ⟨hh.session.trans hs, hh.recv.trans ?_, hclear fd' hcl, fun fd'' hf =>
    hclear fd'' (hconn fd'' (hh.conn ▸ hf))⟩
  cases hf : f.session with
  | none => rw [ht.untagged hf, hr, Bool.toNat_false, Nat.add_zero]
  | some g₀ =>
    cases hs.symm.trans (ht.tagged g₀ hf).1
    have hempty := (hconn fd ht.conn).carried
    have hof : Frame.contentOf s.gen f = some f.content := if_pos hf
    rw [ht.carried, hof] at hempty
    cases hempty

theorem Taken.granted (ht : s.Taken fd f rest) (hh : Client.Handles s.client c f.content)
    (hg : ((s.shift fd rest).clientDid (c, [])).Granted reqId reply) : s.Granted reqId reply := by
  cases hg with
  | result hr ho => exact .result hr ho
  | loginOut hl hc ho => exact .loginOut hl hc ho
  | frame hf hs hc ho => exact .frame (shift_holds ht.down hf) hs hc ho
  | phase ha ho =>
    rcases hh.answered _ ha with ha | ⟨hc, hcontent⟩
    · exact .phase ha ho
    · have hs : f.session = none := by
        cases hf : f.session with
        | none => rfl
        | some g₀ => cases hc.symm.trans (ht.tagged g₀ hf).2
      exact .frame (.inl (ht.down ▸ List.mem_cons_self)) hs hcontent ho

/-- The client gets the next package of the session it knows, or one it does not count. -/
theorem Counting.took (h : Counting conf s) (ht : s.Taken fd f rest) :
    Counting conf ((s.shift fd rest).clientDid (s.client.handle f.content, [])) := by
  have he := h.entity
  have hh := h.client.handle f.content
  have hw := h.client.handles hh
  generalize s.client.handle f.content = c at hh hw ⊢
  have hcurrent : ∀ g, c.session = some g → s.client.session = some g := fun g hg =>
    hh.session.symm.trans hg
  refine ⟨hw, fun g hg => ht.tally h hh (hcurrent g hg), fun fd' hc => h.conn fd' (hh.conn ▸ hc),
    fun n hn => h.known n (hh.nonce ▸ hn), fun g hg => h.current g (hcurrent g hg),
    fun fd' reqId what ha => ?_, fun fd' reqId n recv ha => ?_, fun reqId reply hg => ?_,
    ⟨he.io, he.conns, he.session, he.resuming, he.queued, he.running⟩,
    fun fd' f' g hf => h.frames fd' f' g (shift_holds ht.down hf), h.loginOut, h.future,
    fun fd' g hc hg => ?_, fun cn hs hc ho => ?_⟩
  · obtain ⟨hfd, hid, hk⟩ := h.asked fd' reqId what ha
    exact ⟨hfd, hh.ids ▸ hid, fun b hb => hk b (hh.awaited ▸ hb)⟩
  · obtain ⟨hi, hwaits⟩ := h.resumption fd' reqId n recv ha
    exact ⟨hi, fun hn => ht.waits hh (hwaits hn)⟩
  · obtain ⟨hid, n, hn, hi, hx⟩ := h.granted reqId reply (ht.granted hh hg)
    refine ⟨hh.ids ▸ hid, n, hn, hi, fun ha => ?_, fun ha g' hg' => ?_⟩
    · exact hh.session.trans (hx.resume (hh.awaited ▸ ha))
    · exact hx.login (hh.awaited ▸ ha) g' (hcurrent g' hg')
  · have hc : s.client.conn = some fd' := hh.conn ▸ hc
    cases ht.conn.symm.trans hc
    have hg : ∀ g', s.client.session = some g' → g' ≤ g := fun g' hg' =>
      hg g' (hh.session.trans hg')
    have hp := h.sync fd g ht.conn hg
    rw [ht.carried, ht.missing h hh hg] at hp
    exact List.prefix_append_right_inj _ |>.mp hp
  · have hc : s.client.conn = some cn.key.fd := hh.conn ▸ hc
    have hf := h.full cn hs hc ho
    have hfd : cn.key.fd = fd := Option.some.inj (hc.symm.trans ht.conn)
    rw [hfd] at hf ⊢
    rw [ht.carried, ht.missing h hh h.current] at hf
    exact List.append_cancel_left hf

def joined (s : SessionLink) : SessionLink :=
  { s with
    opened := s.opened + 1
    gate := Function.update s.gate s.opened (some false)
    loginIn := s.loginIn ++ [.opened s.opened]
    client := { s.client with conn := some s.opened } }

theorem Counting.joined (h : Counting conf s) :
    Counting conf s.joined ∧ s.joined.Clear s.opened := by
  have he := h.entity
  have hnew : ∀ g, s.joined.carried g s.opened = [] := fun g =>
    carried_eq_nil fun f hf hs => absurd (h.frames s.opened f g hf hs).2 (Nat.lt_irrefl _)
  have hold : ∀ g fd, fd ≠ s.opened → s.joined.carried g fd = s.carried g fd := by
    intro g fd hne
    simp only [carried, pipe, SessionLink.joined, Function.update_of_ne hne]
  have hsession : ∀ c, s.service.session 0 = some c → c.key.fd ≠ s.opened := fun c hc =>
    Nat.ne_of_lt (he.session c hc).2
  have hclear : s.joined.Clear s.opened := ⟨hnew _, hsession⟩
  have hasked : ∀ fd reqId what, s.joined.Asked fd reqId what → s.Asked fd reqId what := by
    intro fd reqId what ha
    cases ha with
    | up hu => exact .up hu
    | loginIn hl =>
      exact .loginIn ((List.mem_append.mp hl).resolve_right (by simp))
    | job hj => exact .job hj
    | bind hq => exact .bind hq
    | resume hq => exact .resume hq
    | binding hr => exact .binding hr
    | resuming hr => exact .resuming hr
  refine ⟨⟨?_, h.tally, fun fd hc => ?_, h.known, h.current, fun fd reqId what ha => ?_,
    fun fd reqId n recv ha => ?_, fun reqId reply hg => ?_,
    ⟨he.io, he.conns, fun c hc => ⟨(he.session c hc).1, Nat.lt_succ_of_lt (he.session c hc).2⟩,
      he.resuming, he.queued, he.running⟩,
    fun fd f g hf hs => ⟨(h.frames fd f g hf hs).1, Nat.lt_succ_of_lt (h.frames fd f g hf hs).2⟩,
    h.loginOut, h.future, fun fd g hc _ => ?_, fun c hs hc _ => ?_⟩, hclear⟩
  · obtain ⟨hp, hi, hk, ho, hr, hn⟩ := h.client
    exact ⟨hp, hi, hk, ho, hr, hn⟩
  · cases hc
    exact Nat.lt_succ_self _
  · obtain ⟨hf, hid, hk⟩ := h.asked fd reqId what (hasked _ _ _ ha)
    exact ⟨Nat.lt_succ_of_lt hf, hid, hk⟩
  · obtain ⟨hi, hwaits⟩ := h.resumption fd reqId n recv (hasked _ _ _ ha)
    have hne : fd ≠ s.opened := Nat.ne_of_lt (h.asked fd reqId _ (hasked _ _ _ ha)).1
    refine ⟨hi, fun hn => ?_⟩
    obtain ⟨hs, hr, hc, _⟩ := hwaits hn
    refine ⟨hs, hr, ⟨(hold _ fd hne).trans hc.carried, hc.session⟩, fun fd' hf => ?_⟩
    cases hf
    exact hclear
  · have hg : s.Granted reqId reply := by
      cases hg with
      | result hr ho => exact .result hr ho
      | loginOut hl hc ho => exact .loginOut hl hc ho
      | frame hf hs hc ho => exact .frame hf hs hc ho
      | phase ha ho => exact .phase ha ho
    obtain ⟨hid, n, hn, hi, hx⟩ := h.granted reqId reply hg
    exact ⟨hid, n, hn, hi, hx.resume, hx.login⟩
  · cases hc
    rw [hnew]
    exact List.nil_prefix
  · exact absurd (Option.some.inj hc).symm (hsession c hs)

theorem Counting.askResume (h : Counting conf s) (hc : s.client.conn = some fd)
    (hn : s.client.nonce = some n) (hclear : s.Clear fd) :
    Counting conf (s.clientDid ({ (s.client.request (.resume n s.client.recv)).1 with
      phase := .resuming fd (s.client.nextReqId + 1) none },
      (s.client.request (.resume n s.client.recv)).2)) := by
  have he := h.entity
  have hsession := h.client.nonce n hn
  have hw : Client.Wf { (s.client.request (.resume n s.client.recv)).1 with
      phase := .resuming fd (s.client.nextReqId + 1) none } :=
    h.client.await rfl rfl (by
      intro _ hs
      cases hs.symm.trans hsession)
  generalize ht : s.clientDid ({ (s.client.request (.resume n s.client.recv)).1 with
    phase := .resuming fd (s.client.nextReqId + 1) none },
    (s.client.request (.resume n s.client.recv)).2) = t
  have hasked : ∀ fd' reqId what, t.Asked fd' reqId what → s.Asked fd' reqId what ∨
      fd' = fd ∧ reqId = s.client.nextReqId + 1 ∧ what = some (n, s.client.recv) := by
    rw [← ht]
    intro fd' reqId what ha
    cases ha with
    | up hu =>
      refine (mem_sent hu).imp .up fun hm => ?_
      obtain ⟨hfd, hr⟩ := Client.mem_send hm
      cases hc.symm.trans hfd
      rw [hr]
      exact ⟨rfl, rfl, rfl⟩
    | loginIn hl => exact .inl (.loginIn hl)
    | job hj => exact .inl (.job hj)
    | bind hq => exact .inl (.bind hq)
    | resume hq => exact .inl (.resume hq)
    | binding hr => exact .inl (.binding hr)
    | resuming hr => exact .inl (.resuming hr)
  have hgranted : ∀ reqId reply, t.Granted reqId reply → s.Granted reqId reply := by
    rw [← ht]
    intro reqId reply hg
    cases hg with
    | result hr ho => exact .result hr ho
    | loginOut hl hc ho => exact .loginOut hl hc ho
    | frame hf hs hc ho => exact .frame hf hs hc ho
    | phase ha ho => cases ha
  subst ht
  refine ⟨hw, h.tally, h.conn, h.known, h.current, fun fd' reqId what ha => ?_,
    fun fd' reqId n' recv ha => ?_, fun reqId reply hg => ?_,
    ⟨he.io, he.conns, he.session, he.resuming, he.queued, he.running⟩, h.frames, h.loginOut,
    h.future, h.sync, h.full⟩
  · rcases hasked fd' reqId what ha with ha | ⟨rfl, rfl, rfl⟩
    · obtain ⟨hf, hid, _⟩ := h.asked fd' reqId what ha
      refine ⟨hf, Nat.le_succ_of_le hid, fun b hb => ?_⟩
      cases hb
      exact absurd hid (Nat.not_succ_le_self _)
    · refine ⟨h.conn _ hc, Nat.le_refl _, fun b hb => ?_⟩
      cases hb
      rfl
  · rcases hasked fd' reqId _ ha with ha | ⟨rfl, rfl, he'⟩
    · obtain ⟨hi, hwaits⟩ := h.resumption fd' reqId n' recv ha
      refine ⟨hi, fun hn' => ?_⟩
      obtain ⟨hs, hr, hcl, hconn⟩ := hwaits hn'
      exact ⟨hs, hr, ⟨hcl.carried, hcl.session⟩, fun fd'' hf =>
        ⟨(hconn fd'' hf).carried, (hconn fd'' hf).session⟩⟩
    · cases he'
      refine ⟨h.known n hn, fun hn' => ?_⟩
      obtain ⟨io, hio, rfl⟩ := Option.map_eq_some_iff.mp hn'
      refine ⟨hsession.trans (congrArg some (he.io io hio).nonce), rfl,
        ⟨hclear.carried, hclear.session⟩, fun fd'' hf => ?_⟩
      cases hc.symm.trans hf
      exact ⟨hclear.carried, hclear.session⟩
  · obtain ⟨hid, n', hn', hi, _⟩ := h.granted reqId reply (hgranted _ _ hg)
    refine ⟨Nat.le_succ_of_le hid, n', hn', hi, fun ha => ?_, (by rintro ⟨⟩)⟩
    cases ha
    exact absurd hid (Nat.not_succ_le_self _)

theorem Counting.connect (h : Counting conf s) (ht : step conf s .connect = some t) :
    Counting conf t := by
  obtain ⟨_, ht⟩ := Option.ite_none_right_eq_some.mp ht
  cases ht
  obtain ⟨hj, hclear⟩ := h.joined
  rcases s.client.establish_eq s.opened with he | ⟨n, hn, he⟩
  · rw [he]
    exact hj.moves (hj.client.phase rfl) (.phase _ rfl rfl)
  · rw [he]
    exact hj.askResume rfl hn hclear

theorem Counting.wake (h : Counting conf s) (hw : wake s.client timedOut = some r) :
    Counting conf (s.clientDid r) := by
  simp only [SessionLink.wake] at hw
  split at hw
  · next fd reqId response hp =>
    obtain ⟨_, hw⟩ := Option.ite_none_right_eq_some.mp hw
    cases hw
    obtain ⟨hwf, hm⟩ := h.client.resumed hp (fun reply hr ho => by
      obtain ⟨_, n, hn, _, hx⟩ := h.granted reqId reply (.phase (by rw [hp, hr]; rfl) ho)
      exact ⟨n, hn, hx.resume (by rw [hp]; rfl)⟩) fd
    exact h.moves hwf hm
  · next fd reqId response hp =>
    obtain ⟨_, hw⟩ := Option.ite_none_right_eq_some.mp hw
    cases hw
    have hfailed : (∀ reply, response = some reply → reply.code ≠ some .OK) →
        Counting conf (s.clientDid (s.client.loggedIn fd response, [])) := fun hr =>
      h.moves (h.client.loginFailed fd hr).1 (h.client.loginFailed fd hr).2
    cases response with
    | none => exact hfailed (by rintro _ ⟨⟩)
    | some reply =>
      by_cases hok : reply.code = some .OK
      · exact h.loggedIn fd hp hok
      · refine hfailed fun reply' hr => ?_
        cases hr
        exact hok
  · cases hw

/-- A package is handed to the client only as what it is: a package of the session the client
knows is counted, and any other is not. A resume goes on only while what the client has not
counted is still in the replay buffer. -/
def aligned (s : SessionLink) : LinkAction → Bool
  | .deliver fd =>
    match s.down fd with
    | [] => true
    | frame :: _ =>
      decide (s.client.conn ≠ some fd) || match frame.session with
        | some g => decide (s.client.session = some g) && s.client.counts frame.content
        | none => !s.client.counts frame.content
  | .answered =>
    match s.running, s.service.io 0 with
    | some (.resume _ _ _ recv (some true)), some io => !io.outOfRange recv
    | _, _ => true
  | _ => true

def Aligned (s : SessionLink) (a : LinkAction) : Prop := s.aligned a = true

instance (s : SessionLink) (a : LinkAction) : Decidable (s.Aligned a) :=
  inferInstanceAs (Decidable (_ = true))

theorem Counting.deliver (h : Counting conf s) (hok : s.Aligned (.deliver fd))
    (ht : step conf s (.deliver fd) = some t) : Counting conf t := by
  simp only [step] at ht
  split at ht
  · cases ht
  · next f rest hd =>
    cases ht
    split
    · next hc =>
      have hc : s.client.conn = some fd := hc
      simp only [Aligned, aligned, hd, hc, ne_eq, not_true_eq_false, decide_false,
        Bool.false_or] at hok
      refine h.took ⟨hd, hc, fun g hg => ?_, fun hn => ?_⟩
      · simp only [hg, Bool.and_eq_true, decide_eq_true_eq] at hok
        exact hok
      · simpa only [hn, Bool.not_eq_true'] using hok
    · next hc => exact h.lost hd hc

theorem Counting.answered (h : Counting conf s) (hok : s.Aligned .answered)
    (ht : step conf s .answered = some t) : Counting conf t := by
  simp only [step] at ht
  split at ht
  · next fd reqId bound hr =>
    cases ht
    cases bound with
    | true => exact h.bound hr
    | false => exact (h.setRunning (.inl rfl)).refuse (by rintro ⟨⟩)
  · next fd reqId n recv bound hr =>
    cases ht
    rcases s.service.resume_eq (keyOf fd) 0 bound (some recv) s.nextNonce s.clock with
      ⟨_, heq⟩ | ⟨io, hio, rfl, _⟩
    · simp only [finishResume, heq]
      exact (h.setRunning (.inl rfl)).refuse (by rintro ⟨⟩)
    · simp only [Aligned, aligned, hr, hio, Bool.not_eq_true'] at hok
      exact h.resumed hr hio hok
  · cases ht

theorem Counting.entityRecv (h : Counting conf s) (ht : step conf s (.entityRecv size) = some t) :
    Counting conf t := by
  simp only [step] at ht
  split at ht
  · cases ht
  · next fd rest hm =>
    cases ht
    split
    · refine h.pass (fun conn r hq => ?_) fun fd' reqId what ha => ?_
      · exact (List.mem_append.mp hq).resolve_right (by simp)
      · cases ha with
        | up hu => exact .up hu
        | loginIn hl => exact .loginIn hl
        | job hj => exact .job hj
        | bind hq =>
          exact .bind ((List.mem_append.mp hq).resolve_right (by simp))
        | resume hq =>
          exact .resume ((List.mem_append.mp hq).resolve_right (by simp))
        | binding hr => exact .binding hr
        | resuming hr => exact .resuming hr
    · exact h.pass (fun _ _ hq => hq) fun _ _ _ ha => ha
  · next fd r rest hm =>
    cases ht
    refine Counting.receive ?_ fd r size
    exact h.pass (fun _ _ hq => hq) fun _ _ _ ha => ha

theorem Counting.step (h : Counting conf s) (hok : s.Aligned a)
    (ht : SessionLink.step conf s a = some t) : Counting conf t := by
  cases a with
  | connect => exact h.connect ht
  | loginParam ok =>
    simp only [SessionLink.step] at ht
    split at ht
    · next fd _ =>
      cases ht
      exact h.moves (h.client.doLogin fd ok).1 (h.client.doLogin fd ok).2
    · cases ht
  | wake =>
    obtain ⟨r, hr, rfl⟩ := Option.map_eq_some_iff.mp ht
    exact h.wake hr
  | timeout =>
    obtain ⟨r, hr, rfl⟩ := Option.map_eq_some_iff.mp ht
    exact h.wake hr
  | call name =>
    cases ht
    exact h.moves (h.client.call name).1 (h.client.call name).2
  | ping =>
    obtain ⟨_, ht⟩ := Option.ite_none_right_eq_some.mp ht
    cases ht
    exact h.moves h.client.ping.1 h.client.ping.2
  | pong =>
    obtain ⟨hb, _, rfl⟩ := Option.map_eq_some_iff.mp ht
    exact h.moves (h.client.pong hb).1 (h.client.pong hb).2
  | drop =>
    obtain ⟨fd, _, rfl⟩ := Option.map_eq_some_iff.mp ht
    exact h.moves (h.client.drop fd) (.drop ..)
  | deliver fd => exact h.deliver hok ht
  | gateRecv fd => exact h.gateRecv ht
  | gateLogin => exact h.gateLogin ht
  | gateEntity => exact h.gateEntity ht
  | gateBind => exact h.gateBind ht
  | close fd => exact h.close ht
  | loginRecv =>
    simp only [SessionLink.step] at ht
    split at ht
    · cases ht
    · next hm =>
      cases ht
      exact h.loginReceive hm
  | refuse i code =>
    obtain ⟨hne, ht⟩ := Option.ite_none_left_eq_some.mp ht
    obtain ⟨job, _, rfl⟩ := Option.map_eq_some_iff.mp ht
    refine Counting.refuse (s := { s with jobs := s.jobs.eraseIdx i }) ?_ fun ho => ?_
    · refine h.pass (fun _ _ hq => hq) fun fd reqId what ha => ?_
      cases ha with
      | up hu => exact .up hu
      | loginIn hl => exact .loginIn hl
      | job hj => exact .job (List.mem_of_mem_eraseIdx hj)
      | bind hq => exact .bind hq
      | resume hq => exact .resume hq
      | binding hr => exact .binding hr
      | resuming hr => exact .resuming hr
    · exact hne (Option.some.inj ho)
  | arrive i =>
    obtain ⟨job, hj, rfl⟩ := Option.map_eq_some_iff.mp ht
    exact h.enqueueJob hj
  | reply i =>
    obtain ⟨res, hr, rfl⟩ := Option.map_eq_some_iff.mp ht
    exact h.loginReply hr
  | entityRecv size => exact h.entityRecv ht
  | start size =>
    simp only [SessionLink.step] at ht
    split at ht
    · next hq =>
      cases ht
      exact h.startTask hq size
    · cases ht
  | answered => exact h.answered hok ht
  | finish result code size =>
    simp only [SessionLink.step] at ht
    split at ht
    · next conn r hr =>
      cases ht
      have hu := h.entity.running conn r hr
      exact (h.setRunning (.inl rfl)).complete conn _ size
        (by
          intro _ _ hu'
          cases hu.symm.trans hu')
        (by
          intro hu'
          cases hu.symm.trans hu')
    · cases ht
  | push payload size =>
    cases ht
    exact h.recordAndSend _
  | elapse ticks =>
    cases ht
    exact h.forward rfl rfl rfl rfl rfl rfl (fun _ _ hq => hq) (fun _ hm => .inl hm)
      (fun _ ho => ho) (fun _ _ => .inl rfl) (fun _ _ hf => .inl hf) (fun _ _ hm => .inl hm)
      fun _ _ _ ha => ha

theorem Counting.empty (conf : LinkConf) : Counting conf empty := by
  have hasked : ∀ fd reqId what, ¬ SessionLink.empty.Asked fd reqId what := by
    intro fd reqId what ha
    generalize hs : SessionLink.empty = s at ha
    subst hs
    cases ha with
    | up hu => cases hu
    | loginIn hl => cases hl
    | job hj => cases hj
    | bind hq => cases hq
    | resume hq => cases hq
    | binding hr => cases hr
    | resuming hr => cases hr
  have hholds : ∀ fd f, ¬ SessionLink.empty.Holds fd f := by
    rintro fd f (hf | hf) <;> cases hf
  have hgranted : ∀ reqId reply, ¬ SessionLink.empty.Granted reqId reply := by
    intro reqId reply hg
    cases hg with
    | result hr _ => cases hr
    | loginOut hl _ _ => cases hl
    | frame hf _ _ _ => exact hholds _ _ hf
    | phase ha _ => cases ha
  exact ⟨.fresh, (by rintro _ ⟨⟩), (by rintro _ ⟨⟩), (by rintro _ ⟨⟩), (by rintro _ ⟨⟩),
    fun fd reqId what ha => absurd ha (hasked _ _ _),
    fun fd reqId n recv ha => absurd ha (hasked _ _ _),
    fun reqId reply hg => absurd hg (hgranted _ _),
      ⟨(by rintro _ ⟨⟩), (by rintro _ _ ⟨⟩), (by rintro _ ⟨⟩), (by rintro _ _ _ _ _ ⟨⟩),
      (by rintro _ _ ⟨⟩), (by rintro _ _ ⟨⟩)⟩,
    fun fd f g hf => absurd hf (hholds _ _), (by rintro _ _ ⟨⟩), fun _ _ => rfl,
      (by rintro _ _ ⟨⟩), (by rintro _ ⟨⟩)⟩

/-- While the client is online it has counted exactly the first packages of its session, each once
and in order. -/
def ExactlyOnce (s : SessionLink) : Prop :=
  s.client.online = true → ∃ g, s.client.session = some g ∧
    s.client.recv ≤ (s.log g).length ∧
    s.client.counted = ((s.log g).take s.client.recv).map Pack.content

/-- In every run in which packages and the client's session never disagree, and no replay buffer
overflows under a resume, what the client has counted is what the session has recorded. -/
theorem packets_exactly_once (h : (system conf).Reaches Aligned s) : s.ExactlyOnce := by
  intro ho
  have hc : Counting conf s := h.invariant (fun s hs => hs ▸ Counting.empty conf)
    fun s a t hi hok ht => hi.step hok ht
  obtain ⟨g, hg⟩ := Option.ne_none_iff_exists'.mp (hc.client.online ho)
  exact ⟨g, hg, hc.tally g hg⟩

/-- One push arrives, the next is lost with its connection and replayed by the resume. -/
def replayedPush : SessionLink :=
  (system standard).run Aligned empty (loginRun ++ [.push 5 1, .gateEntity, .deliver 0, .push 6 1,
    .gateEntity, .drop, .connect, .gateRecv 1, .loginRecv, .loginRecv, .arrive 0, .start 0,
    .gateBind, .answered, .gateEntity, .gateEntity, .deliver 1, .reply 0, .gateLogin, .deliver 1,
    .wake]) (by decide +kernel)

theorem packets_exactly_once_replayed : replayedPush.ExactlyOnce ∧
    replayedPush.client.online = true ∧ replayedPush.client.counted = [.push 5, .push 6] :=
  ⟨packets_exactly_once ((system standard).run_reaches Aligned _ rfl (by decide +kernel)),
    by decide +kernel, by decide +kernel⟩

/-- A push made at the login arrives before the answer to the login, which forgets it. -/
def forgottenPush : SessionLink :=
  (system standard).run Machine.anyStep empty [.connect, .loginParam true, .gateRecv 0, .loginRecv,
    .loginRecv, .arrive 0, .start 0, .gateBind, .answered, .push 5 1, .gateEntity, .reply 0,
    .gateLogin, .deliver 0, .deliver 0, .wake, .push 6 1, .gateEntity, .deliver 0]
    (by decide +kernel)

theorem packet_forgotten :
    ¬ ∀ s, (system standard).Reaches Machine.anyStep s → s.ExactlyOnce := by
  intro h
  have hr := (system standard).run_reaches Machine.anyStep [.connect, .loginParam true,
    .gateRecv 0, .loginRecv, .loginRecv, .arrive 0, .start 0, .gateBind, .answered, .push 5 1,
    .gateEntity, .reply 0, .gateLogin, .deliver 0, .deliver 0, .wake, .push 6 1, .gateEntity,
    .deliver 0] (s := empty) rfl (by decide +kernel)
  obtain ⟨g, hg, _, hc⟩ := h forgottenPush hr (by decide +kernel)
  have hs : forgottenPush.client.session = some 1 := by decide +kernel
  cases hs.symm.trans hg
  exact absurd hc (by decide +kernel)

end SessionLink

end Skyext
