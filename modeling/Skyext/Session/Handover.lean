import Skyext.Session.Counting

namespace Skyext
set_option autoImplicit true

namespace SessionLink

variable {conf : LinkConf} {s t : SessionLink} {io : SessionIo} {f f' : Frame}

theorem Issued.le (h : s.Issued n) : n.session ≤ s.gen := by
  rcases h with h | ⟨h, _⟩ <;> omega

theorem mem_pipe (h : frame ∈ s.pipe fd) : s.Holds fd frame := by
  rcases List.mem_append.mp h with h | h
  · exact .inl h
  · split at h
    · obtain ⟨cmd, hm, he⟩ := List.mem_filterMap.mp h
      cases cmd with
      | kick fd' => cases he
      | push fd' frame' =>
        simp only [EntityCmd.frameFor, Option.ite_none_right_eq_some] at he
        obtain ⟨rfl, he⟩ := he
        cases he
        exact .inr hm
    · cases h

theorem carried_eq_nil (h : ∀ frame, s.Holds fd frame → frame.session ≠ some g) :
    s.carried g fd = [] :=
  List.filterMap_eq_nil_iff.mpr fun frame hf => if_neg (h frame (mem_pipe hf))

theorem Counting.bound (h : Counting conf s)
    (hr : s.running = some (.bind fd reqId (some true))) :
    Counting conf (s.finishBind fd reqId true) := by
  have hnonce : (s.finishBind fd reqId true).nonce = some ⟨s.gen + 1, 0⟩ := by
    simp only [nonce, finishBind, SessionService.bind, if_true, SessionService.setIo,
      Function.update_self, SessionIo.new, Option.map_some]
  obtain ⟨hopened, hid, hkind⟩ := h.asked fd reqId none (.binding hr)
  have hasked : ∀ fd' reqId' what, (s.finishBind fd reqId true).Asked fd' reqId' what →
      s.Asked fd' reqId' what := by
    intro fd' reqId' what ha
    cases ha with
    | up hm => exact .up hm
    | loginIn hm => exact .loginIn hm
    | job hm => exact .job hm
    | bind hm => exact .bind hm
    | resume hm => exact .resume hm
    | binding hm => cases hm
    | resuming hm => cases hm
  have hissued : ∀ n, s.Issued n → (s.finishBind fd reqId true).Issued n :=
    fun n hn => .inl (Nat.lt_succ_of_le hn.le)
  refine ⟨h.client, h.tally, h.conn, fun n hn => hissued n (h.known n hn),
    fun g hg => Nat.le_succ_of_le (h.current g hg),
    fun fd' reqId' what ha => h.asked fd' reqId' what (hasked fd' reqId' what ha),
    fun fd' reqId' n recv ha => ?_, fun reqId' reply hg => ?_, ?_,
    fun fd' frame g hf hs => ?_, h.loginOut, fun g hg => h.future g (Nat.lt_of_succ_lt hg),
    h.sync, fun c hs _ ho => ?_⟩
  · obtain ⟨hi, _⟩ := h.resumption fd' reqId' n recv (hasked _ _ _ ha)
    refine ⟨hissued n hi, fun hn => ?_⟩
    rw [hnonce] at hn
    cases hn
    exact absurd hi.le (Nat.not_succ_le_self s.gen)
  · have hg : s.Granted reqId' reply ∨
        reqId' = reqId ∧ reply = ⟨some .OK, some 0, some ⟨s.gen + 1, 0⟩, none⟩ := by
      cases hg with
      | result hm ho =>
        rcases List.mem_append.mp hm with hm | hm
        · exact .inl (.result hm ho)
        · cases List.mem_singleton.mp hm
          exact .inr ⟨rfl, rfl⟩
      | loginOut hm hc ho => exact .inl (.loginOut hm hc ho)
      | frame hf hs hc ho => exact .inl (.frame hf hs hc ho)
      | phase ha ho => exact .inl (.phase ha ho)
    rcases hg with hg | ⟨rfl, rfl⟩
    · obtain ⟨hid, n, hn, hi, he⟩ := h.granted reqId' reply hg
      exact ⟨hid, n, hn, hissued n hi, he⟩
    · refine ⟨hid, ⟨s.gen + 1, 0⟩, rfl, .inr ⟨rfl, _, hnonce, Nat.le_refl _⟩, ?_, ?_⟩
      · intro ha
        cases hkind true ha
      · exact fun _ g' hg' => Nat.lt_succ_of_le (h.current g' hg')
  · have he := h.entity
    refine ⟨fun io hio => ?_, fun key c hc => ?_, fun c hc => ?_, (by rintro _ _ _ _ _ ⟨⟩),
      he.queued, (by rintro _ _ ⟨⟩)⟩
    · simp only [finishBind, SessionService.bind, if_true, SessionService.setIo,
        Function.update_self] at hio ⊢
      cases hio
      refine ⟨rfl, rfl, ?_, (by rintro _ _ ⟨⟩)⟩
      rw [h.future _ (Nat.lt_succ_self _)]
      exact .new conf.session _ _
    · simp only [finishBind, SessionService.bind, if_true, SessionService.setIo,
        SessionService.installConn, Function.update_apply] at hc
      split at hc
      · cases hc
        rfl
      · exact he.conns key c hc
    · simp only [finishBind, SessionService.bind, if_true, SessionService.setIo,
        SessionService.installConn, Function.update_self] at hc
      cases hc
      exact ⟨rfl, hopened⟩
  · obtain ⟨hg, hf⟩ := h.frames fd' frame g hf hs
    exact ⟨Nat.le_succ_of_le hg, hf⟩
  · have hnone : s.carried (s.gen + 1) c.key.fd = [] :=
      carried_eq_nil fun frame hf hs =>
        absurd (h.frames _ _ _ hf hs).1 (Nat.not_succ_le_self s.gen)
    have hmissing : s.missing (s.gen + 1) = [] := by
      rw [missing, h.future _ (Nat.lt_succ_self _), List.drop_nil, List.map_nil]
    exact hnone.trans hmissing.symm

theorem replay_carried (packs : List Pack) (cmds : List GateCmd) (gen : Nat)
    (hcmds : ∀ cmd ∈ cmds, ∃ key, cmd = .kick key) (key : Key) (g : Nat) (fd : Fd) :
    (((cmds ++ packs.map (GateCmd.push key)).map (command (some gen))).filterMap
      (EntityCmd.frameFor fd)).filterMap (Frame.contentOf g) =
      if g = gen ∧ key.fd = fd then packs.map Pack.content else [] := by
  have hkicks : (cmds.map (command (some gen))).filterMap (EntityCmd.frameFor fd) = [] := by
    refine List.filterMap_eq_nil_iff.mpr fun cmd hc => ?_
    obtain ⟨cmd', hc', rfl⟩ := List.mem_map.mp hc
    obtain ⟨key', rfl⟩ := hcmds cmd' hc'
    rfl
  rw [List.map_append, List.filterMap_append, hkicks, List.nil_append]
  induction packs with
  | nil => simp
  | cons pack packs ih =>
    rw [List.map_cons, List.map_cons, List.filterMap_cons]
    by_cases hfd : key.fd = fd
    · by_cases hg : g = gen
      · simp only [command, EntityCmd.frameFor, Frame.contentOf, hfd, hg, and_self, if_true,
          List.filterMap_cons, List.map_cons] at ih ⊢
        rw [ih]
      · simp only [command, EntityCmd.frameFor, Frame.contentOf, hfd, hg, false_and, if_true,
          if_false, List.filterMap_cons, Option.some.injEq, Ne.symm hg] at ih ⊢
        exact ih
    · simp only [command, EntityCmd.frameFor, hfd, and_false, if_false] at ih ⊢
      exact ih

theorem replay_moved (conn : Conn) (m : SessionService) (hs : m.session 0 = some conn)
    (hio : m.io 0 = some io)
    (hw : io.Wf conf.session packs) : m.replay 0 = (m.setIo 0 { io with replaying := false },
      (packs.drop io.acked).map (.push conn.key), true) := by
  simp only [SessionService.replay, hs, hio, hw.replayed, if_true, List.append_nil]

theorem retire_kicks (m : SessionService) (old : Option Conn) (key : Key) :
    ∀ cmd ∈ (m.retire old key).2, ∃ key', cmd = .kick key' := by
  rw [SessionService.retire.eq_def]
  split
  · rintro _ ⟨⟩
  · split
    · rintro _ ⟨⟩
    · intro cmd hc
      exact ⟨_, List.mem_singleton.mp hc⟩

theorem setIo_setIo (m : SessionService) (io io' : SessionIo) :
    (m.setIo 0 io).setIo 0 io' = m.setIo 0 io' := by
  simp only [SessionService.setIo, Function.update_idem]

/-- What a resume leaves when the count it was asked with is still in the replay buffer. -/
theorem finishResume_eq (h : s.EntityOk conf) (hio : s.service.io 0 = some io) {recv : Nat}
    (hr : io.outOfRange recv = false) (fd : Fd) (reqId : Nat) : ∃ kicks io',
    (∀ cmd ∈ kicks, ∃ key, cmd = .kick key) ∧ IoOk conf s.gen (s.log s.gen) io' ∧
    io'.nonce = ⟨s.gen, io.nonce.count + 1⟩ ∧ s.finishResume fd reqId recv true = { s with
      running := none
      results := s.results ++
        [⟨fd, reqId, ⟨some .OK, none, some ⟨s.gen, io.nonce.count + 1⟩, some io'.sent⟩⟩]
      service := (s.service.moved (keyOf fd) 0).setIo 0 io'
      entityOut := s.entityOut ++ (kicks ++ ((s.log s.gen).drop recv).map
        (GateCmd.push (keyOf fd))).map (command (some s.gen)) } := by
  have hok := h.io io hio
  have hnext : s.nextNonce = ⟨s.gen, io.nonce.count + 1⟩ := by
    simp only [nextNonce, hio, Option.map_some, Option.getD_some]
  have hreplaying : SessionIo.Wf conf.session { io with replaying := true } (s.log s.gen) :=
    hok.wf.congr rfl rfl rfl rfl
  have ha : (SessionIo.ack { io with replaying := true } (some (recv : Int))).acked = recv :=
    (hreplaying.ack_inRange (some recv) hr).2
  have hcache := (io.resumed_cache (some (recv : Int)) s.nextNonce s.clock).1
  have hwf := hok.wf.resumed (some (recv : Int)) s.nextNonce s.clock
  refine ⟨((s.service.installConn (keyOf fd) 0).retire (s.service.session 0) (keyOf fd)).2,
    { io.resumed (some (recv : Int)) s.nextNonce s.clock with replaying := false },
    retire_kicks _ _ _, ⟨?_, rfl, hwf.congr rfl rfl rfl rfl, ?_⟩, hnext, ?_⟩
  · exact congrArg Nonce.session hnext
  · rw [hcache]
    exact hok.cache
  · rcases s.service.resume_eq (keyOf fd) 0 true (some recv) s.nextNonce s.clock with
      ⟨hn, _⟩ | ⟨io', hio', _, hres⟩
    · rcases hn with hn | hn
      · cases hio.symm.trans hn
      · cases hn
    · cases hio.symm.trans hio'
      have hreplay := replay_moved ⟨s.service.serials, keyOf fd, 0⟩
        ((s.service.moved (keyOf fd) 0).setIo 0 (io.resumed (some recv) s.nextNonce s.clock))
        ?_ (by simp only [SessionService.setIo, Function.update_self]) hwf
      · have hacked : (io.resumed (some recv) s.nextNonce s.clock).acked = recv := ha
        simp only [finishResume, hres, if_true, serviceDid, hreplay, setIo_setIo, hacked]
        rw [hnext]
      · exact (SessionService.moved_session ..).trans (if_pos rfl)

/-- What a resume that is granted changes. -/
structure Resumed (conf : LinkConf) (s t : SessionLink) (fd : Fd) (reqId recv count : Nat) :
    Prop where
  client : t.client = s.client
  opened : t.opened = s.opened
  gate : t.gate = s.gate
  gen : t.gen = s.gen
  log : t.log = s.log
  loginOut : t.loginOut = s.loginOut
  nonce : t.nonce = some ⟨s.gen, count⟩
  session : ∀ c, t.service.session 0 = some c → c.key = keyOf fd
  entity : t.EntityOk conf
  asked : ∀ fd' reqId' what, t.Asked fd' reqId' what → s.Asked fd' reqId' what
  holds : ∀ fd' frame, t.Holds fd' frame → s.Holds fd' frame ∨
    frame.session = some s.gen ∧ fd' = fd
  granted : ∀ reqId' reply, t.Granted reqId' reply → s.Granted reqId' reply ∨
    reqId' = reqId ∧ reply.nonce = some ⟨s.gen, count⟩
  carried : ∀ g fd', t.carried g fd' = s.carried g fd' ++ if (s.gate fd').isSome then
    if g = s.gen ∧ fd = fd' then ((s.log s.gen).drop recv).map Pack.content else [] else []

theorem moved_entityOk (h : s.EntityOk conf) (hok : IoOk conf s.gen (s.log s.gen) io')
    (hopened : fd < s.opened) {results : List LoginResult} {out : List EntityCmd} :
    EntityOk conf { s with
      running := none
      results := results
      service := (s.service.moved (keyOf fd) 0).setIo 0 io'
      entityOut := out } := by
  refine ⟨fun io'' hi => ?_, fun key c hc => ?_, fun c hc => ?_, (by rintro _ _ _ _ _ ⟨⟩),
    h.queued, (by rintro _ _ ⟨⟩)⟩
  · simp only [SessionService.setIo, Function.update_self] at hi
    cases hi
    exact hok
  · have hc : (s.service.moved (keyOf fd) 0).conns key = some c := hc
    rw [SessionService.moved_conns] at hc
    split at hc
    · cases hc
      rfl
    · exact h.conns key c (Option.ite_none_left_eq_some.mp hc).2
  · have hc : (s.service.moved (keyOf fd) 0).session 0 = some c := hc
    rw [SessionService.moved_session, if_pos rfl] at hc
    cases hc
    exact ⟨rfl, hopened⟩

theorem finishResume_resumed (h : Counting conf s) {recv : Nat}
    (hr : s.running = some (.resume fd reqId n recv (some true)))
    (hio : s.service.io 0 = some io) (hrange : io.outOfRange recv = false) :
    Resumed conf s (s.finishResume fd reqId recv true) fd reqId recv (io.nonce.count + 1) := by
  obtain ⟨kicks, io', hkicks, hok, hnonce', heq⟩ := finishResume_eq h.entity hio hrange fd reqId
  obtain ⟨hopened, _⟩ := h.asked fd reqId _ (.resuming hr)
  rw [heq]
  have hholds : ∀ fd' frame, frame ∈ s.down fd' ∨ .push fd' frame ∈ s.entityOut ++
      (kicks ++ ((s.log s.gen).drop recv).map (GateCmd.push (keyOf fd))).map
        (command (some s.gen)) → s.Holds fd' frame ∨ frame.session = some s.gen ∧ fd' = fd := by
    rintro fd' frame (hf | hf)
    · exact .inl (.inl hf)
    · refine (List.mem_append.mp hf).imp .inr fun hf => ?_
      obtain ⟨cmd, hc, he⟩ := List.mem_map.mp hf
      rcases List.mem_append.mp hc with hc | hc
      · obtain ⟨key, rfl⟩ := hkicks cmd hc
        cases he
      · obtain ⟨pack, _, rfl⟩ := List.mem_map.mp hc
        cases he
        exact ⟨rfl, rfl⟩
  refine ⟨rfl, rfl, rfl, rfl, rfl, rfl, ?_, fun c hc => ?_, moved_entityOk h.entity hok hopened,
    fun fd' reqId' what ha => ?_, hholds, fun reqId' reply hg => ?_, fun g fd' => ?_⟩
  · simp only [nonce, SessionService.setIo, Function.update_self, Option.map_some, hnonce']
  · have hc : (s.service.moved (keyOf fd) 0).session 0 = some c := hc
    rw [SessionService.moved_session, if_pos rfl] at hc
    cases hc
    rfl
  · cases ha with
    | up hm => exact .up hm
    | loginIn hm => exact .loginIn hm
    | job hm => exact .job hm
    | bind hm => exact .bind hm
    | resume hm => exact .resume hm
    | binding hm => cases hm
    | resuming hm => cases hm
  · cases hg with
    | result hm ho =>
      rcases List.mem_append.mp hm with hm | hm
      · exact .inl (.result hm ho)
      · cases List.mem_singleton.mp hm
        exact .inr ⟨rfl, rfl⟩
    | loginOut hm hc ho => exact .inl (.loginOut hm hc ho)
    | frame hf hs hc ho =>
      rcases hholds _ _ hf with hf | ⟨hs', _⟩
      · exact .inl (.frame hf hs hc ho)
      · cases hs.symm.trans hs'
    | phase ha ho => exact .inl (.phase ha ho)
  · have hp := replay_carried ((s.log s.gen).drop recv) kicks s.gen hkicks (keyOf fd) g fd'
    refine (carried_append s _ g fd').trans ?_
    rw [hp]
    rfl

/-- A resume goes on with what the client has not counted, over a connection that has carried
nothing of the session. -/
theorem Counting.resumed (h : Counting conf s) {recv : Nat}
    (hr : s.running = some (.resume fd reqId n recv (some true)))
    (hio : s.service.io 0 = some io) (hrange : io.outOfRange recv = false) :
    Counting conf (s.finishResume fd reqId recv true) := by
  have ht := finishResume_resumed h hr hio hrange
  generalize s.finishResume fd reqId recv true = t at ht
  obtain ⟨hopened, hid, hkind⟩ := h.asked fd reqId _ (.resuming hr)
  obtain ⟨_, hwaits⟩ := h.resumption fd reqId n recv (.resuming hr)
  obtain ⟨hsession, hrecv, hclear, _⟩ := hwaits (h.entity.resuming _ _ _ _ _ hr)
  have hsn : s.nonce = some io.nonce := by rw [SessionLink.nonce, hio, Option.map_some]
  have hissued : ∀ n', s.Issued n' → t.Issued n' := by
    rintro n' (hlt | ⟨he, m, hm, hle⟩)
    · exact .inl (ht.gen ▸ hlt)
    · rw [hsn] at hm
      cases hm
      exact .inr ⟨ht.gen ▸ he, _, ht.nonce, Nat.le_succ_of_le hle⟩
  have hmissing : t.missing = s.missing := by
    funext g
    simp only [missing, base, ht.client, ht.log]
  have hrest : s.missing s.gen = ((s.log s.gen).drop recv).map Pack.content := by
    rw [missing, base, if_pos hsession, hrecv]
  refine ⟨ht.client ▸ h.client, ?_, ?_, fun n' hn' => hissued n' (h.known n' (ht.client ▸ hn')),
    ?_, fun fd' reqId' what ha => ?_, fun fd' reqId' n' recv' ha => ?_, fun reqId' reply hg => ?_,
    ht.entity, fun fd' frame g hf hs => ?_, ?_, ?_, fun fd' g hc hg => ?_, fun c hs hc ho => ?_⟩
  · rw [ht.client, ht.log]
    exact h.tally
  · rw [ht.client, ht.opened]
    exact h.conn
  · rw [ht.client, ht.gen]
    exact h.current
  · rw [ht.client, ht.opened]
    exact h.asked fd' reqId' what (ht.asked fd' reqId' what ha)
  · obtain ⟨hi, _⟩ := h.resumption fd' reqId' n' recv' (ht.asked _ _ _ ha)
    refine ⟨hissued n' hi, fun hn' => ?_⟩
    -- every credential handed out before is used up
    rw [ht.nonce] at hn'
    cases hn'
    rcases hi with hlt | ⟨_, m, hm, hle⟩
    · exact absurd hlt (Nat.lt_irrefl _)
    · rw [hsn] at hm
      cases hm
      exact absurd hle (Nat.not_succ_le_self _)
  · rw [ht.client]
    rcases ht.granted reqId' reply hg with hg | ⟨rfl, hn'⟩
    · obtain ⟨hid', n', hn', hi, he⟩ := h.granted reqId' reply hg
      exact ⟨hid', n', hn', hissued n' hi, he⟩
    · refine ⟨hid, _, hn', .inr ⟨ht.gen.symm, _, ht.nonce, Nat.le_refl _⟩, fun _ => hsession, ?_⟩
      intro ha
      cases hkind false ha
  · rw [ht.gen, ht.opened]
    rcases ht.holds fd' frame hf with hf | ⟨hs', rfl⟩
    · exact h.frames fd' frame g hf hs
    · cases hs.symm.trans hs'
      exact ⟨Nat.le_refl _, hopened⟩
  · rw [ht.loginOut]
    exact h.loginOut
  · rw [ht.gen, ht.log]
    exact h.future
  · rw [ht.client] at hc hg
    rw [ht.carried, hmissing]
    split
    · split
      · next he =>
        obtain ⟨rfl, rfl⟩ := he
        rw [hclear.carried, hrest]
        exact List.prefix_rfl
      · rw [List.append_nil]
        exact h.sync fd' g hc hg
    · rw [List.append_nil]
      exact h.sync fd' g hc hg
  · have hkey := ht.session c hs
    have hfd : c.key.fd = fd := congrArg Key.fd hkey
    rw [ht.gate, hfd] at ho
    rw [ht.gen, ht.carried, hfd, if_pos ho, if_pos ⟨rfl, rfl⟩, hmissing, hclear.carried, hrest]
    rfl

end SessionLink

end Skyext
