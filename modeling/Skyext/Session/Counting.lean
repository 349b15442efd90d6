import Skyext.Session.Cache
import Skyext.Session.Conns
import Skyext.Session.Handshake
import Skyext.Session.Link
import Skyext.Session.Replay

namespace Skyext
set_option autoImplicit true

def EntityCmd.frameFor (fd : Fd) : EntityCmd → Option Frame
  | .push fd' frame => if fd' = fd then some frame else none
  | .kick _ => none

def Frame.contentOf (g : Nat) (frame : Frame) : Option Content :=
  if frame.session = some g then some frame.content else none

namespace SessionLink

/-- What is on its way to the client over a connection. A gate drops what comes for a connection
it no longer has. -/
def pipe (s : SessionLink) (fd : Fd) : List Frame :=
  s.down fd ++ if (s.gate fd).isSome then s.entityOut.filterMap (EntityCmd.frameFor fd) else []

def carried (s : SessionLink) (g : Nat) (fd : Fd) : List Content :=
  (s.pipe fd).filterMap (Frame.contentOf g)

/-- How many packages of session `g` the client has. -/
def base (s : SessionLink) (g : Nat) : Nat :=
  if s.client.session = some g then s.client.recv else 0

def missing (s : SessionLink) (g : Nat) : List Content :=
  ((s.log g).drop (s.base g)).map Pack.content

def nonce (s : SessionLink) : Option Nonce := (s.service.io 0).map SessionIo.nonce

def Issued (s : SessionLink) (n : Nonce) : Prop :=
  n.session < s.gen ∨ n.session = s.gen ∧ ∃ m, s.nonce = some m ∧ n.count ≤ m.count

/-- Nothing of the latest session has ever gone over the connection. -/
structure Clear (s : SessionLink) (fd : Fd) : Prop where
  carried : s.carried s.gen fd = []
  session : ∀ c, s.service.session 0 = some c → c.key.fd ≠ fd

/-- The client waits for the latest session to be resumed with this count. -/
structure Waits (s : SessionLink) (fd : Fd) (recv : Nat) : Prop where
  session : s.client.session = some s.gen
  recv : s.client.recv = recv
  clear : s.Clear fd
  conn : ∀ fd', s.client.conn = some fd' → s.Clear fd'

/-- The requests on their way into the queue of the entity, or running, and what resumption each
asks for. -/
inductive Asking (up : Fd → List Request) (loginIn : List LoginMsg) (jobs : List LoginJob)
    (queue : List QueueTask) (running : Option Running) : Fd → Nat → Option (Nonce × Nat) → Prop
  | up : r ∈ up fd → Asking _ _ _ _ _ fd r.session r.param.resumption
  | loginIn : .msg fd r ∈ loginIn → Asking _ _ _ _ _ fd r.session r.param.resumption
  | job : job ∈ jobs →
    Asking _ _ _ _ _ job.fd job.request.session job.request.param.resumption
  | bind : .bind fd reqId ∈ queue → Asking _ _ _ _ _ fd reqId none
  | resume : .resume fd reqId n recv ∈ queue → Asking _ _ _ _ _ fd reqId (some (n, recv))
  | binding : running = some (.bind fd reqId answer) → Asking _ _ _ _ _ fd reqId none
  | resuming : running = some (.resume fd reqId n recv answer) →
    Asking _ _ _ _ _ fd reqId (some (n, recv))

def Asked (s : SessionLink) : Fd → Nat → Option (Nonce × Nat) → Prop :=
  Asking s.up s.loginIn s.jobs s.queue s.running

def Holds (s : SessionLink) (fd : Fd) (frame : Frame) : Prop :=
  frame ∈ s.down fd ∨ .push fd frame ∈ s.entityOut

/-- The answers on their way that say a handshake has succeeded. -/
inductive Granting (results : List LoginResult) (loginOut : List (Fd × Frame))
    (holds : Fd → Frame → Prop) (phase : Phase) : Nat → Reply → Prop
  | result : r ∈ results → r.reply.code = some .OK → Granting _ _ _ _ r.reqId r.reply
  | loginOut : (fd, frame) ∈ loginOut → frame.content = .response reqId reply →
    reply.code = some .OK → Granting _ _ _ _ reqId reply
  | frame : holds fd frame → frame.session = none → frame.content = .response reqId reply →
    reply.code = some .OK → Granting _ _ _ _ reqId reply
  | phase : phase.answered = some (reqId, reply) → reply.code = some .OK →
    Granting _ _ _ _ reqId reply

def Granted (s : SessionLink) : Nat → Reply → Prop :=
  Granting s.results s.loginOut s.Holds s.client.phase

/-- The content is no answer that says a handshake has succeeded. -/
def Plain (content : Content) : Prop :=
  ∀ reqId reply, content = .response reqId reply → reply.code ≠ some .OK

structure IoOk (conf : LinkConf) (gen : Nat) (log : List Pack) (io : SessionIo) : Prop where
  nonce : io.nonce.session = gen
  replaying : io.replaying = false
  wf : io.Wf conf.session log
  cache : ∀ reqId e, io.respCache reqId = some e → SessionService.uncountedResponse e.name = true →
    Plain e.pack.content

structure EntityOk (conf : LinkConf) (s : SessionLink) : Prop where
  io : ∀ io, s.service.io 0 = some io → IoOk conf s.gen (s.log s.gen) io
  conns : ∀ key c, s.service.conns key = some c → c.entity = 0
  session : ∀ c, s.service.session 0 = some c → c.key = keyOf c.key.fd ∧ c.key.fd < s.opened
  resuming : ∀ fd reqId n recv answer, s.running = some (.resume fd reqId n recv answer) →
    s.nonce = some n
  queued : ∀ conn r, .request conn r ∈ s.queue → r.param.proto ≠ .resume
  running : ∀ conn r, s.running = some (.request conn r) →
    SessionService.uncountedResponse r.param.proto = false

/-- What a run in which the client and the session never disagree about what is counted keeps. -/
structure Counting (conf : LinkConf) (s : SessionLink) : Prop where
  client : s.client.Wf
  tally : ∀ g, s.client.session = some g → s.client.recv ≤ (s.log g).length ∧
    s.client.counted = ((s.log g).take s.client.recv).map Pack.content
  conn : ∀ fd, s.client.conn = some fd → fd < s.opened
  known : ∀ n, s.client.nonce = some n → s.Issued n
  current : ∀ g, s.client.session = some g → g ≤ s.gen
  asked : ∀ fd reqId what, s.Asked fd reqId what → fd < s.opened ∧ reqId ≤ s.client.nextReqId ∧
    ∀ b, s.client.phase.awaited = some (reqId, b) → what.isSome = b
  resumption : ∀ fd reqId n recv, s.Asked fd reqId (some (n, recv)) →
    s.Issued n ∧ (s.nonce = some n → s.Waits fd recv)
  granted : ∀ reqId reply, s.Granted reqId reply → reqId ≤ s.client.nextReqId ∧
    ∃ n, reply.nonce = some n ∧ s.Issued n ∧ s.client.Expects reqId n.session
  entity : s.EntityOk conf
  frames : ∀ fd frame g, s.Holds fd frame → frame.session = some g → g ≤ s.gen ∧ fd < s.opened
  loginOut : ∀ fd frame, (fd, frame) ∈ s.loginOut → frame.session = none
  future : ∀ g, s.gen < g → s.log g = []
  sync : ∀ fd g, s.client.conn = some fd → (∀ g', s.client.session = some g' → g' ≤ g) →
    s.carried g fd <+: s.missing g
  full : ∀ c, s.service.session 0 = some c → s.client.conn = some c.key.fd →
    (s.gate c.key.fd).isSome → s.carried s.gen c.key.fd = s.missing s.gen

variable {conf : LinkConf} {s t : SessionLink} {conn : Conn} {r : Request} {content : Content}
  {c c' : Client} {sent : List (Fd × Request)} {cmds : List EntityCmd} {io io' : SessionIo}

/-- Nothing new has been asked or granted, nothing has been recorded, and what is on its way is
only the rest of it. -/
theorem Counting.frame (h : Counting conf s) (hclient : t.client = s.client)
    (hopened : t.opened = s.opened) (hgen : t.gen = s.gen) (hlog : t.log = s.log)
    (hentity : t.EntityOk conf) (hnonce : t.nonce = s.nonce)
    (hsession : ∀ c, t.service.session 0 = some c → s.service.session 0 = some c)
    (hgate : ∀ fd, (t.gate fd).isSome → (s.gate fd).isSome)
    (hcarried : ∀ g fd, t.carried g fd = s.carried g fd ∨
      t.gate fd = none ∧ t.carried g fd <+: s.carried g fd)
    (hframes : ∀ fd frame g, t.Holds fd frame → frame.session = some g → s.Holds fd frame)
    (hlogin : ∀ fd frame, (fd, frame) ∈ t.loginOut → frame.session = none)
    (hasked : ∀ fd reqId what, t.Asked fd reqId what → s.Asked fd reqId what)
    (hgranted : ∀ reqId reply, t.Granted reqId reply → s.Granted reqId reply) :
    Counting conf t := by
  have hissued : ∀ n, s.Issued n → t.Issued n := by
    intro n hn
    rwa [Issued, hgen, hnonce]
  have hshort : ∀ g fd, t.carried g fd <+: s.carried g fd := by
    intro g fd
    rcases hcarried g fd with he | ⟨_, hp⟩
    · exact he ▸ List.prefix_rfl
    · exact hp
  have hclear : ∀ fd, s.Clear fd → t.Clear fd := by
    intro fd hc
    refine ⟨?_, fun c hs => hc.session c (hsession c hs)⟩
    rw [hgen]
    exact List.prefix_nil.mp (hc.carried ▸ hshort s.gen fd)
  have hmissing : t.missing = s.missing := by
    funext g
    simp only [missing, base, hclient, hlog]
  refine ⟨hclient ▸ h.client, ?_, ?_, ?_, ?_, fun fd reqId what ha => ?_,
    fun fd reqId n recv ha => ?_, fun reqId reply hg => ?_, hentity, fun fd frame g hf hs => ?_,
    hlogin, ?_, fun fd g hc hg => ?_, fun c hs hc ho => ?_⟩
  · rw [hclient, hlog]
    exact h.tally
  · rw [hclient, hopened]
    exact h.conn
  · rw [hclient]
    exact fun n hn => hissued n (h.known n hn)
  · rw [hclient, hgen]
    exact h.current
  · rw [hclient, hopened]
    exact h.asked fd reqId what (hasked fd reqId what ha)
  · obtain ⟨hi, hw⟩ := h.resumption fd reqId n recv (hasked fd reqId _ ha)
    refine ⟨hissued n hi, fun hn => ?_⟩
    obtain ⟨hs, hr, hc, hconn⟩ := hw (hnonce ▸ hn)
    refine ⟨?_, hclient ▸ hr, hclear fd hc, fun fd' hf => hclear fd' (hconn fd' (hclient ▸ hf))⟩
    rw [hclient, hgen]
    exact hs
  · obtain ⟨hid, n, hn, hi, he⟩ := h.granted reqId reply (hgranted reqId reply hg)
    rw [hclient]
    exact ⟨hid, n, hn, hissued n hi, he⟩
  · rw [hgen, hopened]
    exact h.frames fd frame g (hframes fd frame g hf hs) hs
  · rw [hgen, hlog]
    exact h.future
  · rw [hmissing]
    rw [hclient] at hc hg
    exact (hshort g fd).trans (h.sync fd g hc hg)
  · rw [hmissing, hgen]
    have he := (hcarried s.gen c.key.fd).resolve_right fun hn => by
      rw [hn.1] at ho
      cases ho
    exact he.trans (h.full c (hsession c hs) (hclient ▸ hc) (hgate _ ho))

theorem carried_append (s : SessionLink) (cmds : List EntityCmd) (g : Nat) (fd : Fd) :
    SessionLink.carried { s with entityOut := s.entityOut ++ cmds } g fd = s.carried g fd ++
      if (s.gate fd).isSome then
        (cmds.filterMap (EntityCmd.frameFor fd)).filterMap (Frame.contentOf g) else [] := by
  simp only [carried, pipe]
  split <;> simp only [List.filterMap_append, List.append_assoc, List.append_nil]

theorem Counting.emit (h : Counting conf s) (cmds : List EntityCmd)
    (hcmds : ∀ fd frame, .push fd frame ∈ cmds →
      frame.session = none ∧ Plain frame.content) :
    Counting conf { s with entityOut := s.entityOut ++ cmds } := by
  have hnone : ∀ g fd,
      (cmds.filterMap (EntityCmd.frameFor fd)).filterMap (Frame.contentOf g) = [] := by
    intro g fd
    refine List.filterMap_eq_nil_iff.mpr fun frame hf => ?_
    obtain ⟨cmd, hc, he⟩ := List.mem_filterMap.mp hf
    cases cmd with
    | kick fd' => cases he
    | push fd' frame' =>
      obtain ⟨_, he⟩ := Option.ite_none_right_eq_some.mp he
      cases he
      simp only [Frame.contentOf, (hcmds fd' frame hc).1, reduceCtorEq, if_false]
  have hsame : ∀ g fd, SessionLink.carried { s with entityOut := s.entityOut ++ cmds } g fd =
      s.carried g fd := by
    intro g fd
    rw [carried_append, hnone, ite_self, List.append_nil]
  have hholds : ∀ fd frame, SessionLink.Holds { s with entityOut := s.entityOut ++ cmds } fd frame →
      s.Holds fd frame ∨ frame.session = none ∧ Plain frame.content := by
    rintro fd frame (hf | hf)
    · exact .inl (.inl hf)
    · exact (List.mem_append.mp hf).imp .inr (hcmds fd frame)
  have hentity := h.entity
  refine h.frame rfl rfl rfl rfl ⟨hentity.io, hentity.conns, hentity.session, hentity.resuming,
    hentity.queued, hentity.running⟩ rfl (fun _ hc => hc) (fun _ ho => ho)
    (fun g fd => .inl (hsame g fd)) (fun fd frame g hf hs => ?_) h.loginOut (fun _ _ _ ha => ha)
    fun reqId reply hg => ?_
  · refine (hholds fd frame hf).resolve_right fun hn => ?_
    cases hn.1.symm.trans hs
  · cases hg with
    | result hm ho => exact .result hm ho
    | loginOut hm hc ho => exact .loginOut hm hc ho
    | frame hf hs hc ho =>
      rcases hholds _ _ hf with hf | ⟨_, hp⟩
      · exact .frame hf hs hc ho
      · exact absurd ho (hp _ _ hc)
    | phase ha ho => exact .phase ha ho

theorem Counting.commit (h : Counting conf s) {m : SessionService}
    (he : EntityOk conf { s with service := m }) (hn : (m.io 0).map SessionIo.nonce = s.nonce)
    (hs : ∀ c, m.session 0 = some c → s.service.session 0 = some c) :
    Counting conf { s with service := m } :=
  h.frame rfl rfl rfl rfl he hn hs (fun _ ho => ho) (fun _ _ => .inl rfl) (fun _ _ _ hf _ => hf)
    h.loginOut (fun _ _ _ ha => ha) fun _ _ hg => hg

theorem nonce_setIo (io' : SessionIo) (hio : s.service.io 0 = some io) (hn : io'.nonce = io.nonce) :
    ((s.service.setIo 0 io').io 0).map SessionIo.nonce = s.nonce := by
  rw [SessionLink.nonce, hio]
  simp only [SessionService.setIo, Function.update_self, Option.map_some, hn]

theorem EntityOk.setIo (h : EntityOk conf s) (hio : s.service.io 0 = some io)
    (hok : IoOk conf s.gen (s.log s.gen) io') (hn : io'.nonce = io.nonce) :
    EntityOk conf { s with service := s.service.setIo 0 io' } := by
  refine ⟨fun io'' hi => ?_, h.conns, h.session, fun fd reqId n recv answer hr => ?_, h.queued,
    h.running⟩
  · simp only [SessionService.setIo, Function.update_self] at hi
    cases hi
    exact hok
  · exact (nonce_setIo io' hio hn).trans (h.resuming fd reqId n recv answer hr)

theorem Counting.setIo (h : Counting conf s) (hio : s.service.io 0 = some io)
    (hok : IoOk conf s.gen (s.log s.gen) io') (hn : io'.nonce = io.nonce) :
    Counting conf { s with service := s.service.setIo 0 io' } :=
  h.commit (h.entity.setIo hio hok hn) (nonce_setIo io' hio hn) fun _ hc => hc

def emission (s : SessionLink) (content : Content) : List EntityCmd :=
  (s.service.session 0).toList.map fun c => .push c.key.fd ⟨content, some s.gen⟩

def recorded (s : SessionLink) (io : SessionIo) (pack : Pack) : SessionLink :=
  { s with
    service := s.service.setIo 0 io
    entityOut := s.entityOut ++ s.emission pack.content
    log := Function.update s.log s.gen (s.log s.gen ++ [pack]) }

theorem emission_carried (s : SessionLink) (content : Content) (g : Nat) (fd : Fd) :
    ((s.emission content).filterMap (EntityCmd.frameFor fd)).filterMap (Frame.contentOf g) =
      if g = s.gen ∧ ∃ c, s.service.session 0 = some c ∧ c.key.fd = fd then [content] else [] := by
  rw [emission]
  cases hs : s.service.session 0 with
  | none => simp
  | some c =>
    by_cases hfd : c.key.fd = fd
    · by_cases hg : g = s.gen
      · simp [EntityCmd.frameFor, Frame.contentOf, hfd, hg]
      · simp [EntityCmd.frameFor, Frame.contentOf, hfd, hg, Ne.symm hg]
    · simp [EntityCmd.frameFor, hfd]

theorem holds_emission (h : SessionLink.Holds
      { s with entityOut := s.entityOut ++ s.emission content }
    fd frame) : s.Holds fd frame ∨ frame.session = some s.gen ∧
      ∃ c, s.service.session 0 = some c ∧ c.key.fd = fd := by
  rcases h with h | h
  · exact .inl (.inl h)
  · refine (List.mem_append.mp h).imp .inr fun h => ?_
    obtain ⟨c, hc, he⟩ := List.mem_map.mp h
    cases he
    exact ⟨rfl, c, Option.mem_toList.mp hc, rfl⟩

theorem Counting.record (h : Counting conf s) (hio : s.service.io 0 = some io) (pack : Pack)
    (hok : IoOk conf s.gen (s.log s.gen ++ [pack]) io') (hn : io'.nonce = io.nonce) :
    Counting conf (s.recorded io' pack) := by
  have hnonce := nonce_setIo io' hio hn
  have hlen : ∀ g, s.client.session = some g → s.client.recv ≤ (s.log g).length :=
    fun g hg => (h.tally g hg).1
  have hbase : s.base s.gen ≤ (s.log s.gen).length := by
    rw [base]
    split
    · next hg => exact hlen _ hg
    · exact Nat.zero_le _
  have hcarried : ∀ g fd, (s.recorded io' pack).carried g fd = s.carried g fd ++
        if (s.gate fd).isSome then
          if g = s.gen ∧ ∃ c, s.service.session 0 = some c ∧ c.key.fd = fd then [pack.content]
          else []
        else [] := by
    intro g fd
    rw [← emission_carried]
    exact carried_append s _ g fd
  have hmissing : ∀ g, (s.recorded io' pack).missing g =
        s.missing g ++ if g = s.gen then [pack.content] else [] := by
    intro g
    by_cases hg : g = s.gen
    · subst hg
      simp only [missing, recorded, Function.update_self, if_true]
      exact (congrArg _ (List.drop_append_of_le_length hbase)).trans List.map_append
    · simp only [missing, recorded, Function.update_of_ne hg, if_neg hg, List.append_nil]
      rfl
  have hclear : ∀ fd, s.Clear fd → (s.recorded io' pack).Clear fd := by
    intro fd hc
    have hnot : ¬ (s.gen = s.gen ∧ ∃ c, s.service.session 0 = some c ∧ c.key.fd = fd) := by
      rintro ⟨_, c, hs, hfd⟩
      exact hc.session c hs hfd
    refine ⟨(hcarried s.gen fd).trans ?_, hc.session⟩
    rw [hc.carried, if_neg hnot, ite_self, List.append_nil]
  refine ⟨h.client, fun g hg => ?_, h.conn, fun n hk => ?_, h.current, h.asked,
    fun fd reqId n recv ha => ?_, fun reqId reply hg => ?_, ?_, fun fd frame g hf hs => ?_,
    h.loginOut, fun g hg => ?_, fun fd g hc hg => ?_, fun c hs hc ho => ?_⟩
  · obtain ⟨hle, ht⟩ := h.tally g hg
    by_cases hgen : g = s.gen
    · subst hgen
      have hlog : (s.recorded io' pack).log s.gen = s.log s.gen ++ [pack] := Function.update_self ..
      have hrecv : (s.recorded io' pack).client.recv = s.client.recv := rfl
      rw [hlog, hrecv, List.take_append_of_le_length hle, List.length_append]
      exact ⟨Nat.le_add_right_of_le hle, ht⟩
    · have hlog : (s.recorded io' pack).log g = s.log g := Function.update_of_ne hgen ..
      rw [hlog]
      exact ⟨hle, ht⟩
  · have hi := h.known n hk
    rw [Issued, ← hnonce] at hi
    exact hi
  · obtain ⟨hi, hw⟩ := h.resumption fd reqId n recv ha
    rw [Issued, ← hnonce] at hi
    refine ⟨hi, fun he => ?_⟩
    obtain ⟨hs, hr, hc, hconn⟩ := hw (hnonce.symm.trans he)
    exact ⟨hs, hr, hclear fd hc, fun fd' hf => hclear fd' (hconn fd' hf)⟩
  · have hg : s.Granted reqId reply := by
      cases hg with
      | result hm ho => exact .result hm ho
      | loginOut hm hc ho => exact .loginOut hm hc ho
      | frame hf hs hc ho =>
        rcases holds_emission hf with hf | ⟨hs', _⟩
        · exact .frame hf hs hc ho
        · cases hs.symm.trans hs'
      | phase ha ho => exact .phase ha ho
    obtain ⟨hid, n, hrn, hi, he⟩ := h.granted reqId reply hg
    rw [Issued, ← hnonce] at hi
    exact ⟨hid, n, hrn, hi, he⟩
  · have he := h.entity
    refine ⟨fun io'' hi => ?_, he.conns, he.session, fun fd reqId n recv answer hr => ?_,
      he.queued, he.running⟩
    · simp only [recorded, SessionService.setIo, Function.update_self] at hi ⊢
      cases hi
      exact hok
    · exact hnonce.trans (he.resuming fd reqId n recv answer hr)
  · rcases holds_emission hf with hf | ⟨hs', c, hc, rfl⟩
    · exact h.frames fd frame g hf hs
    · cases hs.symm.trans hs'
      exact ⟨Nat.le_refl _, (h.entity.session c hc).2⟩
  · have hgen : g ≠ s.gen := Nat.ne_of_gt hg
    simp only [recorded, Function.update_of_ne hgen]
    exact h.future g hg
  · rw [hcarried, hmissing]
    have hp := h.sync fd g hc hg
    split
    · next ho =>
      split
      · next hcond =>
        -- the connection of the session has carried everything so far
        obtain ⟨rfl, c, hs, rfl⟩ := hcond
        rw [if_pos rfl]
        exact h.full c hs hc ho ▸ List.prefix_rfl
      · rw [List.append_nil]
        exact hp.trans (List.prefix_append _ _)
    · rw [List.append_nil]
      exact hp.trans (List.prefix_append _ _)
  · have hf := h.full c hs hc ho
    have hs : s.service.session 0 = some c := hs
    have ho : (s.gate c.key.fd).isSome := ho
    refine (hcarried s.gen c.key.fd).trans (Eq.trans ?_ (hmissing s.gen).symm)
    rw [if_pos ho, if_pos ⟨rfl, c, hs, rfl⟩, if_pos rfl, hf]

theorem IoOk.record {packs : List Pack} (h : IoOk conf g packs io) (pack : Pack) :
    IoOk conf g (packs ++ [pack]) (io.record conf.session pack) := by
  have hh := SessionIo.SameHead.record conf.session io pack
  refine ⟨hh.nonce ▸ h.nonce, hh.replaying ▸ h.replaying, h.wf.record pack, ?_⟩
  rw [(io.record_cache conf.session pack).1]
  exact h.cache

/-- A package for the entity is recorded and written, if the entity has a session. -/
theorem serviceDid_record (h : s.EntityOk conf) (hio : s.service.io 0 = some io) (pack : Pack) :
    (s.serviceDid (s.service.recordAndSend conf.session 0 pack) (some s.gen)).logged s.service
      pack = s.recorded (io.record conf.session pack) pack := by
  have hok := h.io io hio
  have hsent : (io.record conf.session pack).sent ≠ io.sent := by
    have := (hok.record pack).wf.sent
    have := hok.wf.sent
    rw [List.length_append, List.length_singleton] at *
    omega
  have hne : ¬ some io.sent = some (io.record conf.session pack).sent := fun he =>
    hsent (Option.some.inj he).symm
  cases hs : s.service.session 0 with
  | none =>
    simp only [SessionService.recordAndSend, hio, hs, serviceDid, logged, SessionService.setIo,
      Function.update_self, Option.map_some, if_neg hne, recorded, emission, List.map_nil,
      Option.toList_none]
  | some c =>
    simp only [SessionService.recordAndSend, hio, hs, hok.replaying, serviceDid, logged,
      SessionService.setIo, Function.update_self, Option.map_some, if_neg hne, recorded, emission,
      Option.toList_some, Bool.false_eq_true, if_false, List.map_cons, List.map_nil, command]

theorem serviceDid_nil (s : SessionLink) (session : Option Nat) :
    s.serviceDid (s.service, []) session = s := by
  simp only [serviceDid, List.map_nil, List.append_nil]

theorem Counting.recordAndSend (h : Counting conf s) (pack : Pack) :
    Counting conf ((s.serviceDid (s.service.recordAndSend conf.session 0 pack)
      (some s.gen)).logged s.service pack) := by
  cases hio : s.service.io 0 with
  | none =>
    simp only [SessionService.recordAndSend, hio, serviceDid_nil, logged, if_true]
    exact h
  | some io =>
    rw [serviceDid_record h.entity hio]
    exact h.record hio pack ((h.entity.io io hio).record pack)
      (SessionIo.SameHead.record conf.session io pack).nonce

theorem Counting.respond (h : Counting conf s) (fd : Fd) (pack : Pack) (name : Proto)
    (hp : SessionService.uncountedResponse name = true → Plain pack.content) :
    Counting conf (s.respond conf fd pack name) := by
  have hkeep : ∀ session, Counting conf ((s.serviceDid (s.service, []) session).logged s.service
      pack) := by
    intro session
    simp only [serviceDid_nil, logged, if_true]
    exact h
  rw [SessionLink.respond, SessionService.sender]
  split
  · exact hkeep _
  · next c hc =>
    split
    · exact hkeep _
    · cases hu : SessionService.uncountedResponse name with
      | true =>
        simp only [if_true]
        simp only [serviceDid, List.map_cons, List.map_nil, command, logged, if_true]
        refine h.emit _ fun fd' frame hf => ?_
        cases List.mem_singleton.mp hf
        exact ⟨rfl, hp hu⟩
      | false =>
        simp only [Bool.false_eq_true, if_false]
        rw [h.entity.conns _ c hc]
        exact h.recordAndSend pack

theorem Counting.kick (h : Counting conf s) (key : Key) :
    Counting conf (s.serviceDid (s.service, s.service.kick key) none) := by
  have hcmds : ∀ fd frame, .push fd frame ∈ (s.service.kick key).map (command none) →
      frame.session = none ∧ Plain frame.content := by
    intro fd frame hf
    obtain ⟨cmd, hc, he⟩ := List.mem_map.mp hf
    rw [SessionService.kick] at hc
    split at hc
    · cases hc
    · cases List.mem_singleton.mp hc
      cases he
  exact h.emit _ hcmds

/-- A refusal. -/
theorem Counting.reject (h : Counting conf s) (fd : Fd) (r : Request) (size : Nat)
    (hc : SessionService.uncountedResponse r.param.proto = true → code ≠ .OK) :
    Counting conf (s.reject conf fd r code size) := by
  rw [SessionLink.reject]
  split
  · refine h.respond fd _ _ fun hu => ?_
    intro reqId reply he
    cases he
    exact fun ho => hc hu (Option.some.inj ho)
  · exact h.kick _

theorem Counting.note (h : Counting conf s) (e : CallEvent) : Counting conf (s.note e) := by
  have he := h.entity
  exact h.frame rfl rfl rfl rfl
    ⟨he.io, he.conns, he.session, he.resuming, he.queued, he.running⟩ rfl (fun _ hc => hc)
    (fun _ ho => ho) (fun _ _ => .inl rfl) (fun _ _ _ hf _ => hf) h.loginOut (fun _ _ _ ha => ha)
    fun _ _ hg => hg

theorem Counting.enqueue (h : Counting conf s) (hr : r.param.proto ≠ .resume) :
    Counting conf { s with queue := s.queue ++ [.request conn r] } := by
  have he := h.entity
  refine h.frame rfl rfl rfl rfl
    ⟨he.io, he.conns, he.session, he.resuming, fun conn' r' hq => ?_, he.running⟩ rfl
    (fun _ hc => hc) (fun _ ho => ho) (fun _ _ => .inl rfl) (fun _ _ _ hf _ => hf) h.loginOut
    (fun fd reqId what ha => ?_) fun _ _ hg => hg
  · rcases List.mem_append.mp hq with hq | hq
    · exact he.queued conn' r' hq
    · cases List.mem_singleton.mp hq
      exact hr
  · cases ha with
    | up hm => exact .up hm
    | loginIn hm => exact .loginIn hm
    | job hm => exact .job hm
    | bind hm =>
      exact .bind ((List.mem_append.mp hm).resolve_right (by simp))
    | resume hm =>
      exact .resume ((List.mem_append.mp hm).resolve_right (by simp))
    | binding hm => exact .binding hm
    | resuming hm => exact .resuming hm

theorem Counting.lookup (h : Counting conf s) (he : conn.entity = 0)
    (hr : r.param.proto ≠ .resume) (size : Nat) : Counting conf (s.lookup conf conn r size) := by
  simp only [SessionLink.lookup, he]
  cases hio : s.service.io 0 with
  | none => exact h.enqueue hr
  | some io =>
    have hok := h.entity.io io hio
    have hlast : IoOk conf s.gen (s.log s.gen) { io with lastSeen := s.clock } :=
      ⟨hok.nonce, hok.replaying, hok.wf.congr rfl rfl rfl rfl, hok.cache⟩
    have hseen := h.setIo hio hlast rfl
    simp only
    split
    · next pack hl =>
      obtain ⟨entry, hentry, rfl, hname⟩ := SessionIo.lookup_hit hl
      exact (hseen.note _).respond _ _ _ fun hu => hok.cache _ _ hentry (hname ▸ hu)
    · exact (hseen.note _).reject _ _ _ (by rintro _ ⟨⟩)
    · exact (hseen.note _).reject _ _ _ (by rintro _ ⟨⟩)
    · exact hseen.enqueue hr

theorem Counting.receive (h : Counting conf s) (fd : Fd) (r : Request) (size : Nat) :
    Counting conf (s.receive conf fd r size) := by
  have hlook : ∀ conn, s.service.conns (keyOf fd) = some conn → r.param.proto ≠ .resume →
      Counting conf (s.lookup conf conn r size) :=
    fun conn hc hr => h.lookup (h.entity.conns _ _ hc) hr size
  cases hp : r.param with
  | login =>
    simp only [SessionLink.receive, hp]
    exact h.reject _ _ _ (by rintro _ ⟨⟩)
  | resume nonce recv =>
    simp only [SessionLink.receive, hp]
    exact h.reject _ _ _ (by rintro _ ⟨⟩)
  | ping recv =>
    simp only [SessionLink.receive, hp]
    split
    · exact h.reject _ _ _ (by rintro _ ⟨⟩)
    · next conn hc => exact hlook conn hc (by rw [hp]; rintro ⟨⟩)
  | business name =>
    simp only [SessionLink.receive, hp]
    split
    · exact h.reject _ _ _ (by rintro _ ⟨⟩)
    · next conn hc => exact hlook conn hc (by rw [hp]; rintro ⟨⟩)

theorem IoOk.cacheResponse {packs : List Pack} (h : IoOk conf g packs io) (reqId : Nat)
    (pack : Pack) (name : Proto)
    (hp : SessionService.uncountedResponse name = true → Plain pack.content) :
    IoOk conf g packs (io.cacheResponse conf.session reqId pack name).1 := by
  have hh := SessionIo.SameHead.cacheResponse conf.session io reqId pack name
  refine ⟨hh.nonce ▸ h.nonce, hh.replaying ▸ h.replaying, h.wf.cacheResponse .., ?_⟩
  intro r e hr hu
  rcases (io.cacheResponse_spec conf.session reqId pack name).1 r e hr with hr | ⟨_, rfl⟩
  · exact h.cache r e hr hu
  · exact hp hu

/-- A handler has ended; what it answers to an uncounted request is plain. -/
theorem Counting.complete (h : Counting conf s) (conn : Conn) (result : Option Pack)
    (size : Nat) (hp : ∀ pack, result = some pack →
      SessionService.uncountedResponse r.param.proto = true → Plain pack.content)
    (hc : SessionService.uncountedResponse r.param.proto = true → code ≠ .OK) :
    Counting conf (s.complete conf conn r result code size) := by
  simp only [SessionLink.complete]
  split
  · next pack io hio =>
    have hio : s.service.io 0 = some io := hio
    have hok := (h.entity.io io hio).cacheResponse r.session pack r.param.proto (hp pack rfl)
    have hcached := (h.note (.finished s.gen r.session (some pack))).setIo hio hok
      (SessionIo.SameHead.cacheResponse ..).nonce
    split
    · exact hcached.respond _ _ _ (hp pack rfl)
    · exact hcached.reject _ _ _ (by rintro _ ⟨⟩)
  · next pack hio => exact (h.note _).respond _ _ _ (hp pack rfl)
  · exact (h.note _).reject _ _ _ hc

theorem Counting.ack (h : Counting conf s) (recv : Option Int) :
    Counting conf { s with service := s.service.ack 0 recv } := by
  rw [SessionService.ack]
  split
  · exact h
  · next io hio =>
    have hok := h.entity.io io hio
    have hh := SessionIo.SameHead.ack io recv
    refine h.setIo hio ⟨hh.nonce ▸ hok.nonce, hh.replaying ▸ hok.replaying, hok.wf.ack recv, ?_⟩
      hh.nonce
    rw [(io.ack_cache recv).1]
    exact hok.cache

theorem Counting.runPing (h : Counting conf s) (conn : Conn) (r : Request) (recv size : Nat) :
    Counting conf (s.runPing conf conn r recv size) := by
  simp only [SessionLink.runPing]
  refine (h.ack (some recv)).complete conn _ size (fun pack hpack _ => ?_) (by rintro _ ⟨⟩)
  cases hpack
  intro reqId reply he
  cases he
  rintro ⟨⟩

theorem nonce_of_resumeCheck
    (h : SessionIo.resumeCheck (s.service.io 0) (some n) (some recv) = .OK) :
    s.nonce = some n := by
  cases hio : s.service.io 0 with
  | none =>
    rw [hio] at h
    cases h
  | some io =>
    rw [hio, SessionIo.resumeCheck] at h
    split at h
    · cases h
    · split at h
      · cases h
      · next hn =>
        rw [SessionLink.nonce, hio]
        exact (not_not.mp hn).symm

theorem Counting.narrow (h : Counting conf s) {m : SessionService}
    (hio : m.io = s.service.io)
    (hconns : ∀ key c, m.conns key = some c → s.service.conns key = some c)
    (hsession : ∀ c, m.session 0 = some c → s.service.session 0 = some c) :
    Counting conf { s with service := m } := by
  have he := h.entity
  have hn : (m.io 0).map SessionIo.nonce = s.nonce := by rw [hio, SessionLink.nonce]
  refine h.commit ⟨fun io hi => he.io io (hio ▸ hi),
      fun key c hc => he.conns key c (hconns key c hc),
    fun c hc => he.session c (hsession c hc), fun fd reqId n recv answer hr => ?_, he.queued,
    he.running⟩ hn hsession
  exact hn.trans (he.resuming fd reqId n recv answer hr)

theorem Counting.unbind (h : Counting conf s) (key : Key) :
    Counting conf { s with service := s.service.unbind key } := by
  cases hk : s.service.conns key with
  | none =>
    rw [SessionService.unbind, hk]
    exact h
  | some conn =>
    refine h.narrow ?_ (fun k c hc => ?_) fun c hc => ?_
    · simp only [SessionService.unbind, hk]
    · simp only [SessionService.unbind, hk, Function.update_apply,
        Option.ite_none_left_eq_some] at hc
      exact hc.2
    · simp only [SessionService.unbind, hk] at hc
      split at hc
      · simp only [Function.update_apply, Option.ite_none_left_eq_some] at hc
        exact hc.2
      · exact hc

theorem Counting.leaveOld (h : Counting conf s) (key : Key) :
    Counting conf (s.serviceDid (s.service.leaveOld 0 key) none) := by
  have hkeep : Counting conf (s.serviceDid (s.service, []) none) := by
    rw [serviceDid_nil]
    exact h
  rw [SessionService.leaveOld]
  split
  · exact hkeep
  · split
    · exact hkeep
    · rw [SessionService.unbindKick]
      split
      · exact hkeep
      · split
        · refine (h.unbind _).emit [.kick _] fun fd frame hf => ?_
          cases List.mem_singleton.mp hf
        · exact hkeep

theorem Counting.unbindClosed (h : Counting conf s) (key : Key) :
    Counting conf { s with service := s.service.unbindClosed 0 key } := by
  rw [SessionService.unbindClosed]
  split
  · exact h
  · split
    · exact h.unbind key
    · exact h

/-- The queue of the entity goes on: what was asked in it is now asked by what runs. -/
theorem Counting.next (h : Counting conf s) (queue : List QueueTask) (running : Option Running)
    (hq : ∀ conn r, .request conn r ∈ queue → .request conn r ∈ s.queue)
    (hr : ∀ conn r, running = some (.request conn r) →
      SessionService.uncountedResponse r.param.proto = false)
    (hn : ∀ fd reqId n recv answer, running = some (.resume fd reqId n recv answer) →
      s.nonce = some n)
    (ha : ∀ fd reqId what, Asking s.up s.loginIn s.jobs queue running fd reqId what →
      s.Asked fd reqId what) :
    Counting conf { s with queue := queue, running := running } := by
  have he := h.entity
  exact h.frame rfl rfl rfl rfl
    ⟨he.io, he.conns, he.session, hn, fun conn r hm => he.queued conn r (hq conn r hm), hr⟩ rfl
    (fun _ hc => hc) (fun _ ho => ho) (fun _ _ => .inl rfl) (fun _ _ _ hf _ => hf) h.loginOut ha
    fun _ _ hg => hg

theorem Counting.dequeue (h : Counting conf s) (hq : s.queue = task :: rest) :
    Counting conf { s with queue := rest } := by
  have hsub : ∀ task', task' ∈ rest → task' ∈ s.queue := fun task' hm => hq ▸ .tail _ hm
  refine h.next rest s.running (fun conn r hm => hsub _ hm) h.entity.running
    h.entity.resuming fun fd reqId what ha => ?_
  cases ha with
  | up hm => exact .up hm
  | loginIn hm => exact .loginIn hm
  | job hm => exact .job hm
  | bind hm => exact .bind (hsub _ hm)
  | resume hm => exact .resume (hsub _ hm)
  | binding hm => exact .binding hm
  | resuming hm => exact .resuming hm

theorem Counting.setRunning (h : Counting conf s) {running : Option Running}
    (hr : running = none ∨ ∃ conn r, running = some (.request conn r) ∧
      SessionService.uncountedResponse r.param.proto = false) :
    Counting conf { s with running := running } := by
  refine h.next s.queue running (fun _ _ hm => hm) (fun conn r he => ?_)
    (fun fd reqId n recv answer he => ?_) fun fd reqId what ha => ?_
  · rcases hr with rfl | ⟨conn', r', rfl, hu⟩
    · cases he
    · cases he
      exact hu
  · rcases hr with rfl | ⟨_, _, rfl, _⟩ <;> cases he
  · cases ha with
    | up hm => exact .up hm
    | loginIn hm => exact .loginIn hm
    | job hm => exact .job hm
    | bind hm => exact .bind hm
    | resume hm => exact .resume hm
    | binding hm => rcases hr with rfl | ⟨_, _, rfl, _⟩ <;> cases hm
    | resuming hm => rcases hr with rfl | ⟨_, _, rfl, _⟩ <;> cases hm

theorem Counting.refuse (h : Counting conf s) {res : LoginResult} (hc : res.reply.code ≠ some .OK) :
    Counting conf { s with results := s.results ++ [res] } := by
  have he := h.entity
  refine h.frame rfl rfl rfl rfl
    ⟨he.io, he.conns, he.session, he.resuming, he.queued, he.running⟩ rfl (fun _ hc => hc)
    (fun _ ho => ho) (fun _ _ => .inl rfl) (fun _ _ _ hf _ => hf) h.loginOut (fun _ _ _ ha => ha)
    fun reqId reply hg => ?_
  cases hg with
  | result hm ho =>
    rcases List.mem_append.mp hm with hm | hm
    · exact .result hm ho
    · cases List.mem_singleton.mp hm
      exact absurd ho hc
  | loginOut hm hc ho => exact .loginOut hm hc ho
  | frame hf hs hc ho => exact .frame hf hs hc ho
  | phase ha ho => exact .phase ha ho

theorem Counting.runRequest (h : Counting conf s) (hr : r.param.proto ≠ .resume) (size : Nat) :
    Counting conf (s.runRequest conf conn r size) := by
  simp only [SessionLink.runRequest]
  split
  · exact (h.note _).reject _ _ _ (by rintro _ ⟨⟩)
  · have hrun : SessionService.uncountedResponse r.param.proto = false →
        Counting conf { s.note (.started s.gen r.session) with
          running := some (.request conn r) } :=
      fun hu => (h.note _).setRunning (.inr ⟨conn, r, rfl, hu⟩)
    cases hp : r.param with
    | ping recv => exact (h.note _).runPing conn r recv size
    | login => exact hrun (by rw [hp]; rfl)
    | business name => exact hrun (by rw [hp]; rfl)
    | resume nonce recv =>
      rw [hp] at hr
      exact absurd rfl hr

theorem Counting.startTask (h : Counting conf s) (hq : s.queue = task :: rest) (size : Nat) :
    Counting conf (SessionLink.startTask conf { s with queue := rest } size task) := by
  have hd := h.dequeue hq
  have hhead : task ∈ s.queue := hq ▸ List.mem_cons_self
  have hsub : ∀ task', task' ∈ rest → task' ∈ s.queue := fun task' hm => hq ▸ .tail _ hm
  cases task with
  | bind fd reqId =>
    have hrun : Counting conf { s with
        queue := rest, running := some (.bind fd reqId none) } := by
      refine h.next _ _ (fun conn r hm => hsub _ hm) (by rintro _ _ ⟨⟩)
        (by rintro _ _ _ _ _ ⟨⟩) fun fd' reqId' what ha => ?_
      cases ha with
      | up hm => exact .up hm
      | loginIn hm => exact .loginIn hm
      | job hm => exact .job hm
      | bind hm => exact .bind (hsub _ hm)
      | resume hm => exact .resume (hsub _ hm)
      | binding hm =>
        cases hm
        exact .bind hhead
      | resuming hm => cases hm
    exact hrun.leaveOld (keyOf fd)
  | resume fd reqId n recv =>
    simp only [SessionLink.startTask]
    split
    · next hok =>
      refine h.next _ _ (fun conn r hm => hsub _ hm) (by rintro _ _ ⟨⟩)
        (fun fd' reqId' n' recv' answer he => ?_)
        fun fd' reqId' what ha => ?_
      · cases he
        exact nonce_of_resumeCheck hok
      · cases ha with
        | up hm => exact .up hm
        | loginIn hm => exact .loginIn hm
        | job hm => exact .job hm
        | bind hm => exact .bind (hsub _ hm)
        | resume hm => exact .resume (hsub _ hm)
        | binding hm => cases hm
        | resuming hm =>
          cases hm
          exact .resume hhead
    · next hne => exact hd.refuse fun he => hne (Option.some.inj he)
  | closed fd => exact hd.unbindClosed (keyOf fd)
  | request conn r => exact hd.runRequest (h.entity.queued conn r hhead) size

end SessionLink

end Skyext
