import Skyext.Session.Client

namespace Skyext
set_option autoImplicit true

def Param.resumption : Param → Option (Nonce × Nat)
  | .resume nonce recv => some (nonce, recv)
  | .login | .ping _ | .business _ => none

namespace Phase

/-- The handshake request that is waited for, and whether it is a resume. -/
def awaited : Phase → Option (Nat × Bool)
  | .resuming _ reqId _ => some (reqId, true)
  | .loggingIn _ reqId _ => some (reqId, false)
  | .idle | .loginParam _ => none

def answered : Phase → Option (Nat × Reply)
  | .resuming _ reqId response | .loggingIn _ reqId response => response.map (reqId, ·)
  | .idle | .loginParam _ => none

end Phase

namespace Client

def counts (c : Client) : Content → Bool
  | .undecodable | .push _ => true
  | .response reqId _ =>
    match c.findPending reqId with
    | none => true
    | some r => !uncountedResponse r.param.proto

structure Wf (c : Client) : Prop where
  pendingId : ∀ q ∈ c.pending, q.session ≤ c.nextReqId
  awaitedId : ∀ reqId b, c.phase.awaited = some (reqId, b) → reqId ≤ c.nextReqId
  awaitedKind : ∀ reqId b, c.phase.awaited = some (reqId, b) → ∀ q ∈ c.pending,
    q.session = reqId → uncountedResponse q.param.proto = true
  online : c.online = true → c.session ≠ none
  resuming : ∀ reqId, c.phase.awaited = some (reqId, true) → c.session ≠ none
  nonce : ∀ n, c.nonce = some n → c.session = some n.session

/-- What a credential of session `g` in an answer to this request says about the session the
client knows: a resume goes on with it, a login replaces it. -/
structure Expects (c : Client) (reqId g : Nat) : Prop where
  resume : c.phase.awaited = some (reqId, true) → c.session = some g
  login : c.phase.awaited = some (reqId, false) → ∀ g', c.session = some g' → g' < g

/-- A step of the client that neither counts anything nor changes its session or connects. -/
structure Moves (c c' : Client) (sent : List (Fd × Request)) : Prop where
  session : c'.session = c.session
  recv : c'.recv = c.recv
  counted : c'.counted = c.counted
  conn : ∀ fd, c'.conn = some fd → c.conn = some fd
  ids : c.nextReqId ≤ c'.nextReqId
  nonce : ∀ n, c'.nonce = some n → c.nonce = some n ∨ ∃ reqId reply,
    c.phase.answered = some (reqId, reply) ∧ reply.code = some .OK ∧ reply.nonce = some n
  awaited : ∀ reqId b, c'.phase.awaited = some (reqId, b) →
    c.phase.awaited = some (reqId, b) ∨ c.nextReqId < reqId
  answered : ∀ a, c'.phase.answered = some a → c.phase.answered = some a
  sent : ∀ m ∈ sent, c.conn = some m.1 ∧ m.2.session ≤ c'.nextReqId ∧
    m.2.param.resumption = none ∧ c'.phase.awaited ≠ some (m.2.session, true)

variable {c c' d : Client} {content : Content} {response : Option Reply} {p : Phase}
  {sent : List (Fd × Request)}

theorem Wf.fresh : fresh.Wf :=
  ⟨(by rintro _ ⟨⟩), (by rintro _ _ ⟨⟩), (by rintro _ _ ⟨⟩), (by rintro ⟨⟩), (by rintro _ ⟨⟩),
    (by rintro _ ⟨⟩)⟩

theorem answer_spec (c : Client) (reqId : Nat) (response : Reply) :
    (c.answer reqId response).phase.awaited = c.phase.awaited ∧
    ∀ a, (c.answer reqId response).phase.answered = some a →
      c.phase.answered = some a ∨
      a = (reqId, response) ∧ ∃ b, c.phase.awaited = some (reqId, b) := by
  simp only [answer]
  split
  · split
    · next h hr =>
      rw [h, hr]
      exact ⟨rfl, fun a ha => .inr ⟨(Option.some.inj ha).symm, true, rfl⟩⟩
    · exact ⟨rfl, fun a ha => .inl ha⟩
  · split
    · next h hr =>
      rw [h, hr]
      exact ⟨rfl, fun a ha => .inr ⟨(Option.some.inj ha).symm, false, rfl⟩⟩
    · exact ⟨rfl, fun a ha => .inl ha⟩
  · exact ⟨rfl, fun a ha => .inl ha⟩

theorem findPending_mem (h : c.findPending reqId = some q) : q ∈ c.pending ∧ q.session = reqId := by
  rw [findPending] at h
  have hid := List.find?_some h
  exact ⟨List.mem_of_find?_eq_some h, of_decide_eq_true hid⟩

/-- What a package from the server changes. -/
structure Handles (c c' : Client) (content : Content) : Prop where
  session : c'.session = c.session
  conn : c'.conn = c.conn
  online : c'.online = c.online
  nonce : c'.nonce = c.nonce
  ids : c'.nextReqId = c.nextReqId
  pending : ∀ q ∈ c'.pending, q ∈ c.pending
  awaited : c'.phase.awaited = c.phase.awaited
  answered : ∀ a, c'.phase.answered = some a →
    c.phase.answered = some a ∨ c.counts content = false ∧ content = .response a.1 a.2
  recv : c'.recv = c.recv + (c.counts content).toNat
  counted : c'.counted = c.counted ++ if c.counts content then [content] else []

theorem Wf.handle (h : c.Wf) (content : Content) : Handles c (c.handle content) content := by
  have hcount : c.counts content = true → Handles c (c.count content) content := fun hc =>
    ⟨rfl, rfl, rfl, rfl, rfl, fun _ hq => hq, rfl, fun _ ha => .inl ha, by rw [hc]; rfl,
      by rw [hc]; rfl⟩
  cases content with
  | push payload => exact hcount rfl
  | undecodable => exact hcount rfl
  | response reqId args =>
    simp only [Client.handle]
    cases hp : c.findPending reqId with
    | none => exact hcount (by simp only [counts, hp])
    | some q =>
      obtain ⟨hq, hid⟩ := findPending_mem hp
      cases hu : uncountedResponse q.param.proto with
      | true =>
        have hc : c.counts (.response reqId args) = false := by
          simp only [counts, hp, hu, Bool.not_true]
        simp only [hu, if_true]
        obtain ⟨hw, ha⟩ := answer_spec
          { c with pending := c.pending.filter fun r => decide (r.session ≠ reqId) } reqId args
        refine ⟨rfl, rfl, rfl, rfl, rfl, fun _ hq => (List.mem_filter.mp hq).1, hw,
          fun a hans => ?_, by rw [hc]; rfl, by rw [hc]; exact (List.append_nil _).symm⟩
        refine (ha a hans).imp id fun he => ⟨hc, ?_⟩
        rw [he.1]
      | false =>
        have hc : c.counts (.response reqId args) = true := by
          simp only [counts, hp, hu, Bool.not_false]
        simp only [hu, Bool.false_eq_true, if_false]
        obtain ⟨hw, ha⟩ := answer_spec (Client.count
          { c with pending := c.pending.filter fun r => decide (r.session ≠ reqId) }
          (.response reqId args)) reqId args
        refine ⟨rfl, rfl, rfl, rfl, rfl, fun _ hq => (List.mem_filter.mp hq).1, hw,
          fun a hans => .inl ((ha a hans).resolve_right ?_), by rw [hc]; rfl, by rw [hc]; rfl⟩
        -- a request that is waited for is a handshake
        rintro ⟨_, b, hb⟩
        cases hu.symm.trans (h.awaitedKind reqId b hb q hq hid)

theorem Wf.handles (h : c.Wf) (hh : Handles c c' content) : c'.Wf := by
  refine ⟨fun q hq => ?_, ?_, ?_, ?_, ?_, ?_⟩
  · rw [hh.ids]
    exact h.pendingId q (hh.pending q hq)
  · rw [hh.awaited, hh.ids]
    exact h.awaitedId
  · rw [hh.awaited]
    exact fun reqId b hb q hq => h.awaitedKind reqId b hb q (hh.pending q hq)
  · rw [hh.online, hh.session]
    exact h.online
  · rw [hh.awaited, hh.session]
    exact h.resuming
  · rw [hh.nonce, hh.session]
    exact h.nonce

theorem Wf.request (h : c.Wf) (param : Param) : (c.request param).1.Wf := by
  refine ⟨fun q hq => ?_, fun reqId b hb => Nat.le_succ_of_le (h.awaitedId reqId b hb),
    fun reqId b hb q hq hid => ?_, h.online, h.resuming, h.nonce⟩
  · rcases List.mem_append.mp hq with hq | hq
    · exact Nat.le_succ_of_le (h.pendingId q hq)
    · cases List.mem_singleton.mp hq
      exact Nat.le_refl _
  · rcases List.mem_append.mp hq with hq | hq
    · exact h.awaitedKind reqId b hb q hq hid
    · cases List.mem_singleton.mp hq
      have := h.awaitedId reqId b hb
      simp only at hid
      omega

theorem Wf.await (h : c.Wf) (hu : uncountedResponse param.proto = true)
    (ha : p.awaited = some (c.nextReqId + 1, b)) (hs : b = true → c.session ≠ none) :
    Wf { (c.request param).1 with phase := p } := by
  have hr := h.request param
  refine ⟨hr.pendingId, fun reqId b' hb => ?_, fun reqId b' hb q hq hid => ?_, hr.online,
    fun reqId hb => ?_, hr.nonce⟩
  · cases ha.symm.trans hb
    exact Nat.le_refl _
  · cases ha.symm.trans hb
    rcases List.mem_append.mp hq with hq | hq
    · have := h.pendingId q hq
      omega
    · cases List.mem_singleton.mp hq
      exact hu
  · cases ha.symm.trans hb
    exact hs rfl

theorem Wf.settle (h : c.Wf) (hp : ∀ q ∈ c'.pending, q ∈ c.pending)
    (hid : c'.nextReqId = c.nextReqId) (ha : c'.phase.awaited = none)
    (ho : c'.online = true → c'.session ≠ none)
    (hn : ∀ n, c'.nonce = some n → c'.session = some n.session) : c'.Wf := by
  refine ⟨fun q hq => hid ▸ h.pendingId q (hp q hq), ?_, ?_, ho, ?_, hn⟩ <;>
  · rw [ha]
    simp

theorem mem_send {r q : Request} (h : (fd, q) ∈ c.send r) : c.conn = some fd ∧ q = r := by
  obtain ⟨a, ha, he⟩ := Option.map_eq_some_iff.mp (Option.mem_toList.mp h)
  cases he
  exact ⟨ha, rfl⟩

theorem Moves.request (param : Param) (c : Client) (hr : param.resumption = none)
    (ha : ∀ b, c.phase.awaited ≠ some (c.nextReqId + 1, b)) :
    Moves c (c.request param).1 (c.request param).2 := by
  refine ⟨rfl, rfl, rfl, fun _ h => h, Nat.le_succ _, fun _ h => .inl h, fun _ _ h => .inl h,
    fun _ h => h, fun m hm => ?_⟩
  obtain ⟨hc, hq⟩ := mem_send hm
  rw [hq]
  exact ⟨hc, Nat.le_refl _, hr, ha true⟩

theorem Wf.drop (h : c.Wf) (fd : Fd) : (c.drop fd).Wf := by
  rw [Client.drop]
  split
  · exact ⟨h.pendingId, h.awaitedId, h.awaitedKind, (by rintro ⟨⟩), h.resuming, h.nonce⟩
  · exact h

theorem Moves.drop (c : Client) (fd : Fd) : Moves c (c.drop fd) [] := by
  rw [Client.drop]
  split
  · exact ⟨rfl, rfl, rfl, (by rintro _ ⟨⟩), Nat.le_refl _, fun _ h => .inl h, fun _ _ h => .inl h,
      fun _ h => h, (by rintro _ ⟨⟩)⟩
  · exact ⟨rfl, rfl, rfl, fun _ h => h, Nat.le_refl _, fun _ h => .inl h, fun _ _ h => .inl h,
      fun _ h => h, (by rintro _ ⟨⟩)⟩

theorem Moves.trans (h : Moves c c' []) (h' : Moves c' d sent) : Moves c d sent := by
  refine ⟨h'.session.trans h.session, h'.recv.trans h.recv, h'.counted.trans h.counted,
    fun fd hf => h.conn fd (h'.conn fd hf), Nat.le_trans h.ids h'.ids, fun n hn => ?_,
    fun reqId b hb => ?_, fun a ha => h.answered a (h'.answered a ha), fun m hm => ?_⟩
  · rcases h'.nonce n hn with hn | ⟨reqId, reply, ha, ho, hn⟩
    · exact h.nonce n hn
    · exact .inr ⟨reqId, reply, h.answered _ ha, ho, hn⟩
  · rcases h'.awaited reqId b hb with hb | hlt
    · exact h.awaited reqId b hb
    · exact .inr (Nat.lt_of_le_of_lt h.ids hlt)
  · obtain ⟨hc, hid, hr, ha⟩ := h'.sent m hm
    exact ⟨h.conn _ hc, hid, hr, ha⟩

theorem Moves.phase (c : Client) (ha : p.awaited = none) (hr : p.answered = none) :
    Moves c { c with phase := p } [] := by
  refine ⟨rfl, rfl, rfl, fun _ h => h, Nat.le_refl _, fun _ h => .inl h, ?_, ?_, (by rintro _ ⟨⟩)⟩
  · simp only [ha]
    rintro _ _ ⟨⟩
  · simp only [hr]
    rintro _ ⟨⟩

theorem Wf.phase (h : c.Wf) (ha : p.awaited = none) : Wf { c with phase := p } :=
  h.settle (fun _ hq => hq) rfl ha h.online h.nonce

theorem Wf.doLogin (h : c.Wf) (fd : Fd) (ok : Bool) :
    (c.doLogin fd ok).1.Wf ∧ Moves c (c.doLogin fd ok).1 (c.doLogin fd ok).2 := by
  cases ok with
  | true =>
    refine ⟨h.await rfl rfl (by rintro ⟨⟩), ?_⟩
    refine ⟨rfl, rfl, rfl, fun _ h => h, Nat.le_succ _, fun _ h => .inl h, fun reqId b hb => ?_,
      (by rintro _ ⟨⟩), fun m hm => ?_⟩
    · cases hb
      exact .inr (Nat.lt_succ_self _)
    · obtain ⟨hc, hq⟩ := mem_send hm
      rw [hq]
      exact ⟨hc, Nat.le_refl _, rfl, (by rintro ⟨⟩)⟩
  | false => exact ⟨(h.phase rfl).drop fd, .trans (.phase c rfl rfl) (.drop _ fd)⟩

theorem Wf.ping (h : c.Wf) : c.ping.1.Wf ∧ Moves c c.ping.1 c.ping.2 := by
  have hr := h.request (.ping c.recv)
  have hm := Moves.request (.ping c.recv) c rfl fun b hb => by
    have := h.awaitedId _ b hb
    omega
  exact ⟨⟨hr.pendingId, hr.awaitedId, hr.awaitedKind, hr.online, hr.resuming, hr.nonce⟩,
    ⟨hm.session, hm.recv, hm.counted, hm.conn, hm.ids, hm.nonce, hm.awaited, hm.answered,
      hm.sent⟩⟩

theorem Wf.call (h : c.Wf) (name : Nat) : (c.request (.business name)).1.Wf ∧
    Moves c (c.request (.business name)).1 (c.request (.business name)).2 :=
  ⟨h.request _, .request _ c rfl fun b hb => by
    have := h.awaitedId _ b hb
    omega⟩

theorem Wf.pong (h : c.Wf) (hb : Heartbeat) : (c.pong hb).Wf ∧ Moves c (c.pong hb) [] := by
  have hkeep : Wf { c with heartbeat := none } ∧ Moves c { c with heartbeat := none } [] :=
    ⟨⟨h.pendingId, h.awaitedId, h.awaitedKind, h.online, h.resuming, h.nonce⟩,
      ⟨rfl, rfl, rfl, fun _ h => h, Nat.le_refl _, fun _ h => .inl h, fun _ _ h => .inl h,
        fun _ h => h, (by rintro _ ⟨⟩)⟩⟩
  have hforget : Wf { c with heartbeat := none, nonce := none } ∧
      Moves c { c with heartbeat := none, nonce := none } [] :=
    ⟨⟨h.pendingId, h.awaitedId, h.awaitedKind, h.online, h.resuming, (by rintro _ ⟨⟩)⟩,
      ⟨rfl, rfl, rfl, fun _ h => h, Nat.le_refl _, (by rintro _ ⟨⟩), fun _ _ h => .inl h,
        fun _ h => h,
        (by rintro _ ⟨⟩)⟩⟩
  rw [Client.pong]
  split
  · exact hkeep
  · split
    · split
      · exact hforget
      · exact ⟨hforget.1.drop _, hforget.2.trans (.drop ..)⟩
    · exact hkeep

theorem Wf.resumed (h : c.Wf) (hp : c.phase = .resuming fd' reqId response)
    (hn : ∀ reply, response = some reply → reply.code = some .OK →
      ∃ n, reply.nonce = some n ∧ c.session = some n.session) (fd : Fd) :
    (c.resumed fd response).1.Wf ∧
    Moves c (c.resumed fd response).1 (c.resumed fd response).2 := by
  rw [Client.resumed.eq_def]
  split
  · next rid nonce sent =>
    obtain ⟨n, hnonce, hs⟩ := hn _ rfl rfl
    constructor
    · refine h.settle (fun q hq => (List.mem_filter.mp hq).1) rfl rfl (fun _ => ?_) fun n' hn' => ?_
      · intro hnone
        cases hnone.symm.trans hs
      · cases hnonce.symm.trans hn'
        exact hs
    · refine ⟨rfl, rfl, rfl, fun _ h => h, Nat.le_refl _, fun n' hn' => .inr ?_,
        (by rintro _ _ ⟨⟩), (by rintro _ ⟨⟩),
        fun m hm => ?_⟩
      · exact ⟨reqId, _, by rw [hp]; rfl, rfl, hn'⟩
      · obtain ⟨q, hq, hm⟩ := List.mem_flatMap.mp hm
        obtain ⟨hq, hu⟩ := List.mem_filter.mp hq
        obtain ⟨hc, rfl⟩ := mem_send hm
        refine ⟨hc, h.pendingId _ hq, ?_, (by rintro ⟨⟩)⟩
        cases hparam : m.2.param with
        | resume nonce recv =>
          simp only [hparam, Param.proto, uncountedResponse, Bool.not_true] at hu
          cases hu
        | _ => rfl
  · exact ⟨h.phase rfl, .phase c rfl rfl⟩

theorem Wf.loginFailed (h : c.Wf) (fd : Fd)
    (hr : ∀ reply, response = some reply → reply.code ≠ some .OK) :
    (c.loggedIn fd response).Wf ∧ Moves c (c.loggedIn fd response) [] := by
  rw [Client.loggedIn.eq_def]
  split
  · next => cases hr _ rfl rfl
  · exact ⟨(h.phase rfl).drop fd, .trans (.phase c rfl rfl) (.drop _ fd)⟩

theorem Wf.loggedIn (h : c.Wf) (fd : Fd) (hn : reply.nonce = some n) (hc : reply.code = some .OK) :
    (c.loggedIn fd (some reply)).Wf := by
  obtain ⟨code, rid, nonce, sent⟩ := reply
  cases hc
  cases hn
  refine h.settle (by rintro _ ⟨⟩) rfl rfl (fun _ => (by rintro ⟨⟩)) fun n' hn' => ?_
  cases hn'
  rfl

theorem establish_eq (c : Client) (fd : Fd) :
    c.establish fd = ({ c with conn := some fd, phase := .loginParam fd }, []) ∨
    ∃ n, c.nonce = some n ∧ c.establish fd =
      ({ (request { c with conn := some fd } (.resume n c.recv)).1 with
        phase := .resuming fd (c.nextReqId + 1) none },
        (request { c with conn := some fd } (.resume n c.recv)).2) := by
  simp only [establish]
  split
  · next n _ hn _ => exact .inr ⟨n, hn, rfl⟩
  · exact .inl rfl

end Client

end Skyext
