import Skyext.Session.Cache
import Skyext.Session.Conns
import Skyext.Session.Link

namespace Skyext
set_option autoImplicit true

def CallEvent.session : CallEvent → Nat
  | .started session _ | .finished session _ _ | .served session _ _ | .refused session _ _ =>
    session

namespace SessionLink

variable {conf : LinkConf} {s t : SessionLink} {conn : Conn} {r : Request}

def isLive (m : SessionService) (conn : Conn) : Bool := decide (m.conns conn.key = some conn)

def liveId (m : SessionService) : QueueTask → Option Nat
  | .request conn r => if isLive m conn then some r.session else none
  | _ => none

/-- The ids of the queued requests whose handlers will run. -/
def liveIds (s : SessionLink) : List Nat := s.queue.filterMap (liveId s.service)

def runningId : Option Running → Option Nat
  | some (.request _ r) => some r.session
  | _ => none

/-- A copy of a request passes the lookup while another copy of it waits to run or runs, or after
a copy has ended without a response to cache. -/
def repeats (s : SessionLink) : LinkAction → Bool
  | .entityRecv _ =>
    match s.entityIn with
    | .msg fd r :: _ =>
      match r.param, s.service.conns (keyOf fd) with
      | .ping _, some conn | .business _, some conn =>
        match s.service.io conn.entity with
        | some io =>
          decide (io.lookup r.session r.param.proto = .miss) &&
            (decide (r.session ∈ s.liveIds) || decide (runningId s.running = some r.session) ||
              decide (.finished s.gen r.session none ∈ s.history))
        | none => false
      | _, _ => false
    | _ => false
  | _ => false

/-- The condition on a step that it does not. -/
def NoRepeat (s : SessionLink) (a : LinkAction) : Prop := s.repeats a = false

instance (s : SessionLink) (a : LinkAction) : Decidable (s.NoRepeat a) :=
  inferInstanceAs (Decidable (_ = false))

/-- Within one session the handler of a request id starts at most once, and a copy that is not
refused gets the response of that execution. -/
structure AtMostOnce (history : List CallEvent) : Prop where
  once : ∀ g reqId, history.count (.started g reqId) ≤ 1
  served : ∀ g reqId pack, .served g reqId pack ∈ history →
    .finished g reqId (some pack) ∈ history

/-- `active` is the id whose handler is running. -/
structure CallInv (s : SessionLink) (active : Option Nat) : Prop where
  conns : ∀ key c, s.service.conns key = some c →
    c.key = key ∧ c.entity = 0 ∧ c.serial < s.service.serials ∧ s.service.io 0 ≠ none
  queued : ∀ conn r, .request conn r ∈ s.queue → conn.serial < s.service.serials
  sessions : ∀ e ∈ s.history, e.session ≤ s.gen
  live : s.liveIds.Nodup
  unstarted : ∀ reqId ∈ s.liveIds, .started s.gen reqId ∉ s.history
  ended : ∀ reqId, .started s.gen reqId ∈ s.history →
    active = some reqId ∨ ∃ res, .finished s.gen reqId res ∈ s.history
  cached : ∀ io, s.service.io 0 = some io → ∀ reqId e, io.respCache reqId = some e →
    .finished s.gen reqId (some e.pack) ∈ s.history
  settled : ∀ io, s.service.io 0 = some io → ∀ reqId p,
    .finished s.gen reqId (some p) ∈ s.history → io.Settled reqId
  calls : AtMostOnce s.history

structure SameCache (m n : SessionService) : Prop where
  conns : n.conns = m.conns
  serials : n.serials = m.serials
  io : ∀ io', n.io 0 = some io' → ∃ io, m.io 0 = some io ∧
    io'.respCache = io.respCache ∧ io'.minCachedReqId = io.minCachedReqId
  isSome : m.io 0 ≠ none → n.io 0 ≠ none

theorem SameCache.refl (m : SessionService) : SameCache m m :=
  ⟨rfl, rfl, fun io h => ⟨io, h, rfl, rfl⟩, id⟩

theorem SameCache.trans (h : SameCache m n) (h' : SameCache n o) : SameCache m o := by
  refine ⟨h'.conns.trans h.conns, h'.serials.trans h.serials, fun io'' hio'' => ?_,
    fun hm => h'.isSome (h.isSome hm)⟩
  obtain ⟨io', hio', hc', hm'⟩ := h'.io io'' hio''
  obtain ⟨io, hio, hc, hm⟩ := h.io io' hio'
  exact ⟨io, hio, hc'.trans hc, hm'.trans hm⟩

theorem SameCache.setIo {m : SessionService} {io io' : SessionIo} (e : EntityId)
    (h : m.io e = some io)
    (hc : io'.respCache = io.respCache ∧ io'.minCachedReqId = io.minCachedReqId) :
    SameCache m (m.setIo e io') := by
  refine ⟨rfl, rfl, fun io'' hio'' => ?_, fun hm => ?_⟩
  · by_cases he : e = 0
    · subst he
      simp only [SessionService.setIo, Function.update_self] at hio''
      cases hio''
      exact ⟨io, h, hc⟩
    · simp only [SessionService.setIo, Function.update_of_ne (Ne.symm he)] at hio''
      exact ⟨io'', hio'', rfl, rfl⟩
  · by_cases he : e = 0
    · subst he
      simp only [SessionService.setIo, Function.update_self]
      rintro ⟨⟩
    · simpa only [SessionService.setIo, Function.update_of_ne (Ne.symm he)] using hm

theorem SameCache.recordAndSend (m : SessionService) (conf : SessionConf) (e : EntityId)
    (pack : Pack) : SameCache m (m.recordAndSend conf e pack).1 := by
  rw [SessionService.recordAndSend]
  split
  · exact .refl m
  · next io hio => split <;> exact .setIo e hio (io.record_cache conf pack)

theorem SameCache.sender (m : SessionService) (conf : SessionConf) (key : Key) (pack : Pack)
    (name : Proto) : SameCache m (m.sender conf key pack name).1 := by
  rw [SessionService.sender]
  split
  · exact .refl m
  · split
    · exact .refl m
    · split
      · exact .refl m
      · exact .recordAndSend ..

theorem SameCache.ack (m : SessionService) (e : EntityId) (recv : Option Int) :
    SameCache m (m.ack e recv) := by
  rw [SessionService.ack]
  split
  · exact .refl m
  · next io hio => exact .setIo e hio (io.ack_cache recv)

/-- Nothing that matters to the copies of a request has changed. -/
structure SameCalls (s t : SessionLink) : Prop where
  service : SameCache s.service t.service
  queue : t.queue = s.queue
  running : t.running = s.running
  gen : t.gen = s.gen
  history : t.history = s.history

theorem SameCalls.refl (s : SessionLink) : SameCalls s s := ⟨.refl _, rfl, rfl, rfl, rfl⟩

theorem SameCalls.trans (h : SameCalls s t) (h' : SameCalls t u) : SameCalls s u :=
  ⟨h.service.trans h'.service, h'.queue.trans h.queue, h'.running.trans h.running,
    h'.gen.trans h.gen, h'.history.trans h.history⟩

theorem SameCalls.logged (s : SessionLink) (old : SessionService) (pack : Pack) :
    SameCalls s (s.logged old pack) := by
  rw [SessionLink.logged]
  split <;> exact ⟨.refl _, rfl, rfl, rfl, rfl⟩

theorem SameCalls.record (conf : LinkConf) (s : SessionLink) (pack : Pack) :
    SameCalls s (s.record conf pack) := by
  refine .trans ?_ (.logged _ s.service pack)
  exact ⟨.recordAndSend .., rfl, rfl, rfl, rfl⟩

theorem SameCalls.respond (conf : LinkConf) (s : SessionLink) (fd : Fd) (pack : Pack)
    (name : Proto) : SameCalls s (s.respond conf fd pack name) := by
  refine .trans ?_ (.logged _ s.service pack)
  exact ⟨.sender .., rfl, rfl, rfl, rfl⟩

theorem SameCalls.reject (conf : LinkConf) (s : SessionLink) (fd : Fd) (r : Request)
    (code : ErrCode) (size : Nat) : SameCalls s (s.reject conf fd r code size) := by
  rw [SessionLink.reject]
  split
  · exact .respond ..
  · exact ⟨.refl _, rfl, rfl, rfl, rfl⟩

theorem CallInv.empty : CallInv empty none :=
  ⟨(by rintro _ _ ⟨⟩), (by rintro _ _ ⟨⟩), (by rintro _ ⟨⟩), .nil, (by rintro _ ⟨⟩),
    (by rintro _ ⟨⟩), (by rintro _ ⟨⟩), (by rintro _ ⟨⟩), fun _ _ => Nat.zero_le _,
    (by rintro _ _ _ ⟨⟩)⟩

theorem CallInv.same (h : CallInv s active) (hst : SameCalls s t) : CallInv t active := by
  obtain ⟨⟨hc, hs, hio, hsome⟩, hq, _, hg, hh⟩ := hst
  have hlive : t.liveIds = s.liveIds := by
    have hl : liveId t.service = liveId s.service := by
      funext task
      cases task <;> simp [liveId, isLive, hc]
    rw [liveIds, liveIds, hq, hl]
  refine ⟨fun key c hk => ?_, fun conn r hr => ?_, ?_, hlive ▸ h.live, ?_, ?_, ?_, ?_, ?_⟩
  · obtain ⟨hkc, he, hlt, hn⟩ := h.conns key c (hc ▸ hk)
    exact ⟨hkc, he, hs ▸ hlt, hsome hn⟩
  · exact hs ▸ h.queued conn r (hq ▸ hr)
  · rw [hh, hg]
    exact h.sessions
  · rw [hh, hg, hlive]
    exact h.unstarted
  · rw [hh, hg]
    exact h.ended
  · intro io' hio' reqId e he
    obtain ⟨io, hi, hcache, _⟩ := hio io' hio'
    rw [hh, hg]
    exact h.cached io hi reqId e (hcache ▸ he)
  · intro io' hio' reqId p hp
    obtain ⟨io, hi, hcache, hmin⟩ := hio io' hio'
    rw [hh, hg] at hp
    rw [SessionIo.Settled, hcache, hmin]
    exact h.settled io hi reqId p hp
  · exact hh ▸ h.calls

theorem CallInv.note (h : CallInv s active) (hses : e.session ≤ s.gen)
    (hstart : ∀ g reqId, e ≠ .started g reqId) (hfin : ∀ g reqId res, e ≠ .finished g reqId res)
    (hserved : ∀ g reqId pack, e = .served g reqId pack →
      .finished g reqId (some pack) ∈ s.history) : CallInv (s.note e) active := by
  have hmem : ∀ e', e ≠ e' → e' ∈ (s.note e).history → e' ∈ s.history :=
    fun e' hne he => (List.mem_cons.mp he).resolve_left hne.symm
  refine ⟨h.conns, h.queued, fun e' he => ?_, h.live, fun reqId hr hs => ?_, fun reqId hs => ?_,
    fun io hio reqId e' he => .tail _ (h.cached io hio reqId e' he), fun io hio reqId p hp => ?_,
    fun g reqId => ?_, fun g reqId pack hp => ?_⟩
  · rcases List.mem_cons.mp he with rfl | he
    · exact hses
    · exact h.sessions e' he
  · exact h.unstarted reqId hr (hmem _ (hstart _ _) hs)
  · exact (h.ended reqId (hmem _ (hstart _ _) hs)).imp id fun he => he.imp fun _ => .tail _
  · exact h.settled io hio reqId p (hmem _ (hfin _ _ _) hp)
  · rw [SessionLink.note, List.count_cons_of_ne (hstart g reqId)]
    exact h.calls.once g reqId
  · rcases List.mem_cons.mp hp with rfl | hp
    · exact .tail _ (hserved g reqId pack rfl)
    · exact .tail _ (h.calls.served g reqId pack hp)

theorem CallInv.note_refused (h : CallInv s active) (reqId : Nat) (code : ErrCode) :
    CallInv (s.note (.refused s.gen reqId code)) active :=
  h.note (Nat.le_refl _) (by rintro _ _ ⟨⟩) (by rintro _ _ _ ⟨⟩) (by rintro _ _ _ ⟨⟩)

theorem CallInv.note_served (h : CallInv s active) (hio : s.service.io 0 = some io)
    (hc : io.respCache reqId = some entry) :
    CallInv (s.note (.served s.gen reqId entry.pack)) active := by
  refine h.note (Nat.le_refl _) (by rintro _ _ ⟨⟩) (by rintro _ _ _ ⟨⟩) fun g r pack he => ?_
  cases he
  exact h.cached io hio reqId entry hc

theorem CallInv.enqueue (h : CallInv s active) (hl : liveId s.service task = none)
    (hq : ∀ conn r, task = .request conn r → conn.serial < s.service.serials) :
    CallInv { s with queue := s.queue ++ [task] } active := by
  have hlive : SessionLink.liveIds { s with queue := s.queue ++ [task] } = s.liveIds := by
    simp only [liveIds, List.filterMap_append, List.filterMap_cons, hl, List.filterMap_nil,
      List.append_nil]
  refine ⟨h.conns, fun conn r hr => ?_, h.sessions, hlive ▸ h.live, ?_, h.ended, h.cached,
    h.settled, h.calls⟩
  · rcases List.mem_append.mp hr with hr | hr
    · exact h.queued conn r hr
    · exact hq conn r (List.mem_singleton.mp hr).symm
  · rw [hlive]
    exact h.unstarted

/-- A request that may run is queued when no copy of it waits to run or has started. -/
theorem CallInv.enqueue_live (h : CallInv s active) (hc : s.service.conns conn.key = some conn)
    (hw : r.session ∉ s.liveIds) (hs : .started s.gen r.session ∉ s.history) :
    CallInv { s with queue := s.queue ++ [.request conn r] } active := by
  have hlive : SessionLink.liveIds { s with queue := s.queue ++ [.request conn r] } =
      s.liveIds ++ [r.session] := by
    simp only [liveIds, List.filterMap_append, List.filterMap_cons, liveId, isLive, hc,
      decide_true, if_true, List.filterMap_nil]
  refine ⟨h.conns, fun conn' r' hr => ?_, h.sessions, ?_, fun reqId hr => ?_, h.ended, h.cached,
    h.settled, h.calls⟩
  · rcases List.mem_append.mp hr with hr | hr
    · exact h.queued conn' r' hr
    · cases List.mem_singleton.mp hr
      exact (h.conns _ _ hc).2.2.1
  · rw [hlive]
    exact List.nodup_append.mpr ⟨h.live, List.nodup_cons.mpr ⟨(by rintro ⟨⟩), .nil⟩,
      fun a ha b hb hab =>
      hw (List.mem_singleton.mp hb ▸ hab ▸ ha)⟩
  · rw [hlive] at hr
    rcases List.mem_append.mp hr with hr | hr
    · exact h.unstarted reqId hr
    · exact List.mem_singleton.mp hr ▸ hs

theorem CallInv.dequeue (h : CallInv s active) (hq : s.queue = task :: rest) :
    CallInv { s with queue := rest } active := by
  have hsub : List.Sublist (SessionLink.liveIds { s with queue := rest }) s.liveIds := by
    rw [liveIds, liveIds, hq]
    exact (List.sublist_cons_self task rest).filterMap _
  refine ⟨h.conns, fun conn r hr => h.queued conn r ?_, h.sessions, h.live.sublist hsub,
    fun reqId hr => h.unstarted reqId (hsub.subset hr), h.ended, h.cached, h.settled, h.calls⟩
  rw [hq]
  exact .tail _ hr

/-- Connections are lost, or one is added that no queued request came over. -/
theorem CallInv.reconnect (h : CallInv s active) {m : SessionService}
    (hconns : ∀ key c, m.conns key = some c → s.service.conns key = some c ∨
      (c.key = key ∧ c.entity = 0 ∧ c.serial = s.service.serials ∧
        s.service.serials < m.serials ∧ s.service.io 0 ≠ none))
    (hserials : s.service.serials ≤ m.serials)
    (hio : ∀ io', m.io 0 = some io' → ∃ io, s.service.io 0 = some io ∧
      io'.respCache = io.respCache ∧ io'.minCachedReqId = io.minCachedReqId)
    (hsome : s.service.io 0 ≠ none → m.io 0 ≠ none) :
    CallInv { s with service := m } active := by
  have hsub : List.Sublist (SessionLink.liveIds { s with service := m }) s.liveIds := by
    have hall : ∀ task ∈ s.queue, liveId m task = none ∨ liveId m task = liveId s.service task := by
      intro task ht
      cases task with
      | request conn r =>
        simp only [liveId, isLive]
        by_cases hm : m.conns conn.key = some conn
        · rcases hconns conn.key conn hm with hc | ⟨_, _, hser, _⟩
          · exact .inr (by simp [hm, hc])
          · have := h.queued conn r ht
            omega
        · exact .inl (by simp [hm])
      | _ => exact .inl rfl
    simp only [liveIds]
    generalize s.queue = queue at hall
    induction queue with
    | nil => exact .slnil
    | cons task queue ih =>
      have ih := ih fun task' ht => hall task' (.tail _ ht)
      rcases hall task List.mem_cons_self with hn | he
      · rw [List.filterMap_cons_none hn]
        cases hs : liveId s.service task with
        | none => rwa [List.filterMap_cons_none hs]
        | some reqId =>
          rw [List.filterMap_cons_some hs]
          exact ih.cons _
      · cases hs : liveId s.service task with
        | none => rwa [List.filterMap_cons_none hs, List.filterMap_cons_none (he.trans hs)]
        | some reqId =>
          rw [List.filterMap_cons_some hs, List.filterMap_cons_some (he.trans hs)]
          exact ih.cons_cons _
  refine ⟨fun key c hk => ?_, fun conn r hr => ?_, h.sessions, h.live.sublist hsub,
    fun reqId hr => h.unstarted reqId (hsub.subset hr), h.ended, fun io' hi reqId e he => ?_,
    fun io' hi reqId p hp => ?_, h.calls⟩
  · rcases hconns key c hk with hc | ⟨hkc, he, hser, hlt, hn⟩
    · obtain ⟨hkc, he, hlt, hn⟩ := h.conns key c hc
      exact ⟨hkc, he, Nat.lt_of_lt_of_le hlt hserials, hsome hn⟩
    · exact ⟨hkc, he, hser ▸ hlt, hsome hn⟩
  · exact Nat.lt_of_lt_of_le (h.queued conn r hr) hserials
  · obtain ⟨io, hio, hcache, _⟩ := hio io' hi
    exact h.cached io hio reqId e (hcache ▸ he)
  · obtain ⟨io, hio, hcache, hmin⟩ := hio io' hi
    rw [SessionIo.Settled, hcache, hmin]
    exact h.settled io hio reqId p hp

theorem CallInv.start (h : CallInv s none) (hq : s.queue = .request conn r :: rest)
    (hc : s.service.conns conn.key = some conn) :
    CallInv (({ s with queue := rest } : SessionLink).note (.started s.gen r.session))
      (some r.session) := by
  have hlive : s.liveIds = r.session :: SessionLink.liveIds { s with queue := rest } := by
    simp only [liveIds, hq, List.filterMap_cons, liveId, isLive, hc, decide_true, if_true]
  have hnew : .started s.gen r.session ∉ s.history :=
    h.unstarted r.session (hlive ▸ List.mem_cons_self)
  obtain ⟨hfresh, hnodup⟩ := List.nodup_cons.mp (hlive ▸ h.live)
  have hd := h.dequeue hq
  refine ⟨hd.conns, hd.queued, fun e he => ?_, hnodup, fun reqId hr hs => ?_, fun reqId hs => ?_,
    fun io hio reqId e he => .tail _ (h.cached io hio reqId e he), fun io hio reqId p hp => ?_,
    fun g reqId => ?_, fun g reqId pack hp => ?_⟩
  · rcases List.mem_cons.mp he with rfl | he
    · exact Nat.le_refl _
    · exact h.sessions e he
  · rcases List.mem_cons.mp hs with he | hs
    · cases he
      exact hfresh hr
    · exact hd.unstarted reqId hr hs
  · rcases List.mem_cons.mp hs with he | hs
    · cases he
      exact .inl rfl
    · obtain hn | ⟨res, hres⟩ := h.ended reqId hs
      · cases hn
      · exact .inr ⟨res, .tail _ hres⟩
  · exact h.settled io hio reqId p ((List.mem_cons.mp hp).resolve_left (by rintro ⟨⟩))
  · rw [SessionLink.note, List.count_cons]
    split
    · next he =>
      cases eq_of_beq he
      have hz : s.history.count (.started s.gen r.session) = 0 := List.count_eq_zero.mpr hnew
      exact Nat.le_of_eq (congrArg (· + 1) hz)
    · exact h.calls.once g reqId
  · exact .tail _ (h.calls.served g reqId pack ((List.mem_cons.mp hp).resolve_left (by rintro ⟨⟩)))

theorem CallInv.note_finished (h : CallInv s (some reqId)) (result : Option Pack)
    {m : SessionService}
    (hconns : m.conns = s.service.conns) (hserials : m.serials = s.service.serials)
    (hio : ∀ io', m.io 0 = some io' → ∃ io, s.service.io 0 = some io ∧
      (∀ r e, io'.respCache r = some e → io.respCache r = some e ∨
        (r = reqId ∧ result = some e.pack)) ∧
      ∀ r, io.Settled r ∨ (r = reqId ∧ result ≠ none) → io'.Settled r)
    (hsome : s.service.io 0 ≠ none → m.io 0 ≠ none) :
    CallInv (({ s with service := m } : SessionLink).note (.finished s.gen reqId result))
      none := by
  have hlive : SessionLink.liveIds { s with service := m } = s.liveIds := by
    have hl : liveId m = liveId s.service := by
      funext task
      cases task <;> simp [liveId, isLive, hconns]
    rw [liveIds, liveIds, hl]
  refine ⟨fun key c hk => ?_, fun conn r hr => hserials ▸ h.queued conn r hr, fun e he => ?_,
    hlive ▸ h.live, fun r hr hs => ?_, fun r hs => .inr ?_, fun io' hi r e he => ?_,
    fun io' hi r p hp => ?_, fun g r => ?_, fun g r pack hp => ?_⟩
  · obtain ⟨hkc, he, hlt, hn⟩ := h.conns key c (hconns ▸ hk)
    exact ⟨hkc, he, hserials ▸ hlt, hsome hn⟩
  · rcases List.mem_cons.mp he with rfl | he
    · exact Nat.le_refl _
    · exact h.sessions e he
  · exact h.unstarted r (hlive ▸ hr) ((List.mem_cons.mp hs).resolve_left (by rintro ⟨⟩))
  · obtain hr | ⟨res, hres⟩ := h.ended r ((List.mem_cons.mp hs).resolve_left (by rintro ⟨⟩))
    · cases hr
      exact ⟨result, List.mem_cons_self⟩
    · exact ⟨res, .tail _ hres⟩
  · obtain ⟨io, hio, hcache, _⟩ := hio io' hi
    rcases hcache r e he with he | ⟨rfl, rfl⟩
    · exact .tail _ (h.cached io hio r e he)
    · exact List.mem_cons_self
  · obtain ⟨io, hio, _, hsettled⟩ := hio io' hi
    apply hsettled r
    rcases List.mem_cons.mp hp with he | hp
    · cases he
      exact .inr ⟨rfl, (by rintro ⟨⟩)⟩
    · exact .inl (h.settled io hio r p hp)
  · have hne : CallEvent.finished s.gen reqId result ≠ .started g r := (by rintro ⟨⟩)
    exact Nat.le_trans (Nat.le_of_eq (List.count_cons_of_ne hne)) (h.calls.once g r)
  · exact .tail _ (h.calls.served g r pack ((List.mem_cons.mp hp).resolve_left (by rintro ⟨⟩)))

theorem CallInv.complete (h : CallInv s (some r.session)) (conf : LinkConf) (conn : Conn)
    (result : Option Pack) (code : ErrCode) (size : Nat) :
    CallInv (s.complete conf conn r result code size) none := by
  have hkeep : result = none ∨ s.service.io 0 = none →
      CallInv (s.note (.finished s.gen r.session result)) none := by
    intro hn
    refine h.note_finished result rfl rfl (fun io hio => ⟨io, hio, fun _ _ he => .inl he, ?_⟩) id
    intro reqId hs
    refine hs.resolve_right fun he => ?_
    rcases hn with hn | hn
    · exact he.2 hn
    · cases hn.symm.trans hio
  cases result with
  | none =>
    simp only [SessionLink.complete]
    exact (hkeep (.inl rfl)).same (.reject ..)
  | some pack =>
    cases hio : s.service.io 0 with
    | none =>
      simp only [SessionLink.complete, SessionLink.note, hio]
      exact (hkeep (.inr hio)).same (.respond ..)
    | some io =>
      obtain ⟨hcache, hsettled⟩ := io.cacheResponse_spec conf.session r.session pack r.param.proto
      have hf := h.note_finished (some pack)
        (m := s.service.setIo 0 (io.cacheResponse conf.session r.session pack r.param.proto).1)
        rfl rfl (fun io' hi => ?_) fun _ => ?_
      · simp only [SessionLink.complete, SessionLink.note, hio]
        split
        · exact hf.same (.respond ..)
        · exact hf.same (.reject ..)
      · simp only [SessionService.setIo, Function.update_self] at hi
        cases hi
        refine ⟨io, hio, fun reqId e he => (hcache reqId e he).imp id fun hr => ?_,
          fun reqId hs => hsettled reqId (hs.imp id And.left)⟩
        exact ⟨hr.1, hr.2 ▸ rfl⟩
      · simp only [SessionService.setIo, Function.update_self]
        rintro ⟨⟩

/-- A login makes a session in which nothing has been called yet. -/
theorem CallInv.newSession (h : CallInv s none) (nonce : Nonce) (now : Nat) :
    CallInv { s with service := s.service.setIo 0 (.new nonce now), gen := s.gen + 1 } none := by
  have hold : ∀ e ∈ s.history, e.session ≠ s.gen + 1 := fun e he =>
    Nat.ne_of_lt (Nat.lt_succ_of_le (h.sessions e he))
  refine ⟨fun key c hk => ?_, h.queued, fun e he => Nat.le_succ_of_le (h.sessions e he), h.live,
    fun reqId _ hs => hold _ hs rfl, fun reqId hs => absurd rfl (hold _ hs),
    fun io hio reqId e he => ?_, fun io hio reqId p hp => absurd rfl (hold _ hp), h.calls⟩
  · obtain ⟨hkc, he, hlt, _⟩ := h.conns key c hk
    refine ⟨hkc, he, hlt, ?_⟩
    simp only [SessionService.setIo, Function.update_self]
    rintro ⟨⟩
  · simp only [SessionService.setIo, Function.update_self] at hio
    cases hio
    cases he

/-- An id that passes the lookup has never been started, unless it is running or has spoiled. -/
theorem CallInv.unstarted_of_miss (h : CallInv s active) (hio : s.service.io 0 = some io)
    (hm : io.lookup reqId name = .miss) (ha : active ≠ some reqId)
    (hf : .finished s.gen reqId none ∉ s.history) : .started s.gen reqId ∉ s.history := by
  intro hs
  obtain hr | ⟨res, hres⟩ := h.ended reqId hs
  · exact ha hr
  · cases res with
    | none => exact hf hres
    | some p => exact SessionIo.lookup_miss hm (h.settled io hio reqId p hres)

theorem CallInv.lookup (h : CallInv s active) (hc : s.service.conns conn.key = some conn)
    (hok : ∀ io, s.service.io conn.entity = some io →
      io.lookup r.session r.param.proto = .miss → r.session ∉ s.liveIds ∧
        active ≠ some r.session ∧ .finished s.gen r.session none ∉ s.history)
    (conf : LinkConf) (size : Nat) : CallInv (s.lookup conf conn r size) active ∧
      (s.lookup conf conn r size).running = s.running := by
  obtain ⟨_, he, _, hn⟩ := h.conns _ _ hc
  obtain ⟨io, hio⟩ := Option.ne_none_iff_exists'.mp hn
  rw [he] at hok
  have hseen := h.same (t := { s with
    service := s.service.setIo 0 { io with lastSeen := s.clock } })
    ⟨.setIo 0 hio ⟨rfl, rfl⟩, rfl, rfl, rfl, rfl⟩
  have hio' : (s.service.setIo 0 { io with lastSeen := s.clock }).io 0 =
      some { io with lastSeen := s.clock } := by
    simp only [SessionService.setIo, Function.update_self]
  simp only [SessionLink.lookup, he, hio]
  split
  · next pack hl =>
    obtain ⟨entry, hentry, rfl, _⟩ := SessionIo.lookup_hit hl
    exact ⟨(hseen.note_served hio' hentry).same (.respond ..), (SameCalls.respond ..).running⟩
  · exact ⟨(hseen.note_refused _ _).same (.reject ..), (SameCalls.reject ..).running⟩
  · exact ⟨(hseen.note_refused _ _).same (.reject ..), (SameCalls.reject ..).running⟩
  · next hl =>
    obtain ⟨hw, ha, hf⟩ := hok io hio hl
    exact ⟨hseen.enqueue_live hc hw (h.unstarted_of_miss hio hl ha hf), rfl⟩

theorem CallInv.receive (h : CallInv s (runningId s.running)) {rest : List EntityMsg}
    (hm : s.entityIn = .msg fd r :: rest) (hok : s.NoRepeat (.entityRecv size))
    (conf : LinkConf) :
    let t := SessionLink.receive conf { s with entityIn := rest } fd r size
    CallInv t (runningId s.running) ∧ t.running = s.running := by
  have hpop := h.same (t := { s with entityIn := rest }) ⟨.refl _, rfl, rfl, rfl, rfl⟩
  have hreject : ∀ code, CallInv (SessionLink.reject conf { s with entityIn := rest } fd r code
      size) (runningId s.running) ∧ (SessionLink.reject conf { s with entityIn := rest } fd r code
      size).running = s.running :=
    fun code => ⟨hpop.same (.reject ..), (SameCalls.reject ..).running⟩
  have hlook : ∀ conn, s.service.conns (keyOf fd) = some conn →
      (∀ nonce recv, r.param ≠ .resume nonce recv) → r.param ≠ .login →
      CallInv (SessionLink.lookup conf { s with entityIn := rest } conn r size)
        (runningId s.running) ∧
      (SessionLink.lookup conf { s with entityIn := rest } conn r size).running = s.running := by
    intro conn hc hres hlog
    refine hpop.lookup ((h.conns _ _ hc).1.symm ▸ hc) (fun io hio hl => ?_) conf size
    have hio : s.service.io conn.entity = some io := hio
    have hok : s.repeats (.entityRecv size) = false := hok
    rw [repeats, hm] at hok
    cases hp : r.param with
    | login => exact absurd hp hlog
    | resume nonce recv => exact absurd hp (hres nonce recv)
    | ping recv => simp_all [liveIds]
    | business name => simp_all [liveIds]
  cases hp : r.param with
  | login =>
    simp only [SessionLink.receive, hp]
    exact hreject _
  | resume nonce recv =>
    simp only [SessionLink.receive, hp]
    exact hreject _
  | ping recv =>
    simp only [SessionLink.receive, hp]
    split
    · exact hreject _
    · next conn hc => exact hlook conn hc (by simp [hp]) (by simp [hp])
  | business name =>
    simp only [SessionLink.receive, hp]
    split
    · exact hreject _
    · next conn hc => exact hlook conn hc (by simp [hp]) (by simp [hp])

theorem complete_running (conf : LinkConf) (s : SessionLink) (conn : Conn) (r : Request)
    (result : Option Pack) (code : ErrCode) (size : Nat) :
    (s.complete conf conn r result code size).running = s.running := by
  simp only [SessionLink.complete]
  split
  · split
    · exact (SameCalls.respond ..).running
    · exact (SameCalls.reject ..).running
  · exact (SameCalls.respond ..).running
  · exact (SameCalls.reject ..).running

theorem CallInv.setRunning (h : CallInv s active) (running : Option Running) :
    CallInv { s with running := running } active :=
  ⟨h.conns, h.queued, h.sessions, h.live, h.unstarted, h.ended, h.cached, h.settled, h.calls⟩

theorem CallInv.idle (h : CallInv s none) (hn : s.running = none) :
    CallInv s (runningId s.running) := by
  rw [hn]
  exact h

theorem CallInv.runRequest (h : CallInv s none) (hn : s.running = none)
    (hq : s.queue = .request conn r :: rest) (conf : LinkConf) (size : Nat) :
    let t := SessionLink.runRequest conf { s with queue := rest } conn r size
    CallInv t (runningId t.running) := by
  simp only [SessionLink.runRequest]
  split
  · have hr := (h.dequeue hq).note_refused r.session .ENTITY_NOT_FOUND
    have hs := SameCalls.reject conf (({ s with queue := rest } : SessionLink).note
      (.refused s.gen r.session .ENTITY_NOT_FOUND)) conn.key.fd r .ENTITY_NOT_FOUND size
    exact (hr.same hs).idle (hs.running.trans hn)
  · next hc =>
    have hs := h.start hq (not_not.mp hc)
    cases hp : r.param with
    | ping recv =>
      simp only [SessionLink.runPing]
      refine CallInv.idle (CallInv.complete ?_ ..) ((complete_running ..).trans hn)
      exact hs.same ⟨.ack .., rfl, rfl, rfl, rfl⟩
    | login => exact hs.setRunning _
    | resume nonce recv => exact hs.setRunning _
    | business name => exact hs.setRunning _

theorem CallInv.narrow (h : CallInv s active) {m : SessionService}
    (hconns : ∀ key c, m.conns key = some c → s.service.conns key = some c)
    (hserials : m.serials = s.service.serials) (hio : m.io = s.service.io) :
    CallInv { s with service := m } active := by
  refine h.reconnect (fun key c hk => .inl (hconns key c hk)) (Nat.le_of_eq hserials.symm)
    (fun io' hi => ⟨io', hio ▸ hi, rfl, rfl⟩) fun hn => hio ▸ hn

theorem unbind_narrows (m : SessionService) (key : Key) :
    (∀ k c, (m.unbind key).conns k = some c → m.conns k = some c) ∧
    (m.unbind key).serials = m.serials ∧ (m.unbind key).io = m.io := by
  cases hk : m.conns key with
  | none =>
    simp only [SessionService.unbind, hk]
    exact ⟨fun _ _ h => h, trivial, trivial⟩
  | some conn =>
    refine ⟨fun k c hc => ?_, by simp only [SessionService.unbind, hk],
      by simp only [SessionService.unbind, hk]⟩
    simp only [SessionService.unbind, hk, Function.update_apply, Option.ite_none_left_eq_some] at hc
    exact hc.2

theorem CallInv.leaveOld (h : CallInv s active) (e : EntityId) (key : Key) :
    CallInv { s with service := (s.service.leaveOld e key).1 } active := by
  rw [SessionService.leaveOld]
  split
  · exact h
  · split
    · exact h
    · rw [SessionService.unbindKick]
      split
      · exact h
      · split
        · obtain ⟨hc, hs, hi⟩ := unbind_narrows s.service (Conn.key _)
          exact h.narrow hc hs hi
        · exact h

theorem CallInv.unbindClosed (h : CallInv s active) (e : EntityId) (key : Key) :
    CallInv { s with service := s.service.unbindClosed e key } active := by
  rw [SessionService.unbindClosed]
  split
  · exact h
  · split
    · obtain ⟨hc, hs, hi⟩ := unbind_narrows s.service key
      exact h.narrow hc hs hi
    · exact h

theorem CallInv.startTask (h : CallInv s none) (hn : s.running = none)
    (hq : s.queue = task :: rest) (conf : LinkConf) (size : Nat) :
    let t := SessionLink.startTask conf { s with queue := rest } size task
    CallInv t (runningId t.running) := by
  have hd := h.dequeue hq
  cases task with
  | bind fd reqId =>
    have hl := hd.leaveOld 0 (keyOf fd)
    exact hl.setRunning _ |>.same ⟨.refl _, rfl, rfl, rfl, rfl⟩
  | resume fd reqId nonce recv =>
    simp only [SessionLink.startTask]
    split
    · exact hd.setRunning _
    · exact CallInv.idle (hd.same ⟨.refl _, rfl, rfl, rfl, rfl⟩) hn
  | closed fd => exact (hd.unbindClosed 0 (keyOf fd)).idle hn
  | request conn r => exact h.runRequest hn hq conf size

theorem CallInv.finishBind (h : CallInv s none) (fd : Fd) (reqId : Nat) (bound : Bool) :
    CallInv (s.finishBind fd reqId bound) none := by
  cases bound with
  | false => exact (h.setRunning none).same ⟨.refl _, rfl, rfl, rfl, rfl⟩
  | true =>
    have hn := h.newSession ⟨s.gen + 1, 0⟩ s.clock
    have hr := hn.reconnect
      (m := ((s.service.setIo 0 (.new ⟨s.gen + 1, 0⟩ s.clock)).installConn (keyOf fd) 0))
      (fun key c hk => ?_) (Nat.le_succ _) (fun io' hi => ⟨io', hi, rfl, rfl⟩) id
    · exact (hr.setRunning none).same ⟨.refl _, rfl, rfl, rfl, rfl⟩
    · simp only [SessionService.installConn, Function.update_apply] at hk
      split at hk
      · next he =>
        cases hk
        refine .inr ⟨he.symm, rfl, rfl, Nat.lt_succ_self _, ?_⟩
        simp only [SessionService.setIo, Function.update_self]
        rintro ⟨⟩
      · exact .inl hk

theorem CallInv.moved (h : CallInv s active) (key : Key) (hio : s.service.io 0 = some io)
    (hc : io'.respCache = io.respCache ∧ io'.minCachedReqId = io.minCachedReqId) :
    CallInv { s with service := (s.service.moved key 0).setIo 0 io' } active := by
  have hserials : (s.service.moved key 0).serials = s.service.serials + 1 :=
    s.service.moved_serials key 0
  refine h.reconnect (fun k c hk => ?_) ?_ (fun io'' hi => ?_) fun _ => ?_
  · have hk : (s.service.moved key 0).conns k = some c := hk
    rw [SessionService.moved_conns] at hk
    split at hk
    · next he =>
      cases hk
      refine .inr ⟨he.symm, rfl, rfl, ?_, hio ▸ (by rintro ⟨⟩)⟩
      exact hserials ▸ Nat.lt_succ_self _
    · exact .inl (Option.ite_none_left_eq_some.mp hk).2
  · exact hserials ▸ Nat.le_succ _
  · simp only [SessionService.setIo, Function.update_self] at hi
    cases hi
    exact ⟨io, hio, hc⟩
  · simp only [SessionService.setIo, Function.update_self]
    rintro ⟨⟩

theorem SameCache.replay (m : SessionService) (e : EntityId) : SameCache m (m.replay e).1 := by
  rw [SessionService.replay]
  split
  · next io _ hio _ => exact .setIo e hio ⟨rfl, rfl⟩
  · exact .refl m

theorem CallInv.finishResume (h : CallInv s none) (fd : Fd) (reqId recv : Nat) (bound : Bool) :
    CallInv (s.finishResume fd reqId recv bound) none ∧
    (s.finishResume fd reqId recv bound).running = none := by
  rcases s.service.resume_eq (keyOf fd) 0 bound (some recv) s.nextNonce s.clock with
    ⟨_, hr⟩ | ⟨io, hio, _, hr⟩
  · simp only [SessionLink.finishResume, hr]
    exact ⟨(h.setRunning none).same ⟨.refl _, rfl, rfl, rfl, rfl⟩, rfl⟩
  · simp only [SessionLink.finishResume, hr, if_true]
    have hm := h.moved (keyOf fd) hio (io.resumed_cache (some recv) s.nextNonce s.clock)
    exact ⟨(hm.setRunning none).same ⟨.replay _ 0, rfl, rfl, rfl, rfl⟩, rfl⟩

def Inv (s : SessionLink) : Prop := CallInv s (runningId s.running)

theorem Inv.same (h : Inv s) (hst : SameCalls s t) : Inv t := by
  rw [Inv, hst.running]
  exact CallInv.same h hst

theorem SameCalls.gateRecv (ht : step conf s (.gateRecv fd) = some t) : SameCalls s t := by
  simp only [step] at ht
  split at ht
  · cases ht
  · cases ht
    split <;> exact ⟨.refl _, rfl, rfl, rfl, rfl⟩

theorem SameCalls.gateLogin (ht : step conf s .gateLogin = some t) : SameCalls s t := by
  simp only [step] at ht
  split at ht
  · cases ht
  · cases ht
    split <;> exact ⟨.refl _, rfl, rfl, rfl, rfl⟩

theorem SameCalls.gateEntity (ht : step conf s .gateEntity = some t) : SameCalls s t := by
  simp only [step] at ht
  split at ht
  · cases ht
  · cases ht
    exact ⟨.refl _, rfl, rfl, rfl, rfl⟩
  · cases ht
    split <;> exact ⟨.refl _, rfl, rfl, rfl, rfl⟩

theorem SameCalls.loginSend (s : SessionLink) (fd : Fd) (reqId : Nat) (reply : Reply) :
    SameCalls s (s.loginSend fd reqId reply) := by
  rw [SessionLink.loginSend]
  split
  · exact ⟨.refl _, rfl, rfl, rfl, rfl⟩
  · exact .refl s

theorem SameCalls.loginReceive (conf : LinkConf) (s : SessionLink) (m : LoginMsg) :
    SameCalls s (s.loginReceive conf m) := by
  cases m with
  | opened fd => exact ⟨.refl _, rfl, rfl, rfl, rfl⟩
  | disconnect fd => exact ⟨.refl _, rfl, rfl, rfl, rfl⟩
  | msg fd r =>
    simp only [SessionLink.loginReceive]
    split
    · split
      · exact ⟨.refl _, rfl, rfl, rfl, rfl⟩
      · exact .loginSend ..
    · split
      · exact ⟨.refl _, rfl, rfl, rfl, rfl⟩
      · exact .loginSend ..
    · exact .loginSend ..
    · split
      · exact .loginSend ..
      · exact .refl s

theorem SameCalls.loginReply (s : SessionLink) (r : LoginResult) :
    SameCalls s (s.loginReply r) := by
  rw [SessionLink.loginReply]
  split
  · apply SameCalls.trans ?_ (.loginSend ..)
    exact ⟨.refl _, rfl, rfl, rfl, rfl⟩
  · exact .loginSend ..

theorem Inv.gateBind (h : Inv s) (ht : step conf s .gateBind = some t) : Inv t := by
  simp only [step] at ht
  split at ht
  · next hr =>
    cases ht
    rw [Inv, hr] at h
    exact (CallInv.setRunning h _).same ⟨.refl _, rfl, rfl, rfl, rfl⟩
  · next hr =>
    cases ht
    rw [Inv, hr] at h
    exact (CallInv.setRunning h _).same ⟨.refl _, rfl, rfl, rfl, rfl⟩
  · cases ht

theorem Inv.enqueueJob (h : Inv s) (job : LoginJob) : Inv (s.enqueueJob job) := by
  rw [SessionLink.enqueueJob]
  split
  · exact h.enqueue rfl (by rintro _ _ ⟨⟩)
  · exact h.enqueue rfl (by rintro _ _ ⟨⟩)

theorem Inv.entityRecv (h : Inv s) (hok : s.NoRepeat (.entityRecv size))
    (ht : step conf s (.entityRecv size) = some t) : Inv t := by
  simp only [step] at ht
  split at ht
  · cases ht
  · next fd rest hm =>
    cases ht
    have hpop := h.same (t := { s with entityIn := rest }) ⟨.refl _, rfl, rfl, rfl, rfl⟩
    split
    · exact hpop.enqueue rfl (by rintro _ _ ⟨⟩)
    · exact hpop
  · next fd r rest hm =>
    cases ht
    obtain ⟨hi, hr⟩ := CallInv.receive h hm hok conf
    rw [Inv, hr]
    exact hi

theorem Inv.answered (h : Inv s) (ht : step conf s .answered = some t) : Inv t := by
  simp only [step] at ht
  split at ht
  · next hr =>
    cases ht
    rw [Inv, hr] at h
    exact (CallInv.finishBind h ..).idle rfl
  · next hr =>
    cases ht
    rw [Inv, hr] at h
    obtain ⟨hi, hn⟩ := CallInv.finishResume h ..
    exact hi.idle hn
  · cases ht

theorem Inv.step (h : Inv s) (hok : s.NoRepeat a) (ht : SessionLink.step conf s a = some t) :
    Inv t := by
  cases a with
  | connect =>
    obtain ⟨_, ht⟩ := Option.ite_none_right_eq_some.mp ht
    cases ht
    exact h.same ⟨.refl _, rfl, rfl, rfl, rfl⟩
  | loginParam ok =>
    simp only [SessionLink.step] at ht
    split at ht
    · cases ht
      exact h.same ⟨.refl _, rfl, rfl, rfl, rfl⟩
    · cases ht
  | wake =>
    obtain ⟨r, _, rfl⟩ := Option.map_eq_some_iff.mp ht
    exact h.same ⟨.refl _, rfl, rfl, rfl, rfl⟩
  | timeout =>
    obtain ⟨r, _, rfl⟩ := Option.map_eq_some_iff.mp ht
    exact h.same ⟨.refl _, rfl, rfl, rfl, rfl⟩
  | call name =>
    cases ht
    exact h.same ⟨.refl _, rfl, rfl, rfl, rfl⟩
  | ping =>
    obtain ⟨_, ht⟩ := Option.ite_none_right_eq_some.mp ht
    cases ht
    exact h.same ⟨.refl _, rfl, rfl, rfl, rfl⟩
  | pong =>
    obtain ⟨r, _, rfl⟩ := Option.map_eq_some_iff.mp ht
    exact h.same ⟨.refl _, rfl, rfl, rfl, rfl⟩
  | drop =>
    obtain ⟨fd, _, rfl⟩ := Option.map_eq_some_iff.mp ht
    exact h.same ⟨.refl _, rfl, rfl, rfl, rfl⟩
  | deliver fd =>
    simp only [SessionLink.step] at ht
    split at ht
    · cases ht
    · cases ht
      split <;> exact h.same ⟨.refl _, rfl, rfl, rfl, rfl⟩
  | gateRecv fd => exact h.same (.gateRecv ht)
  | gateLogin => exact h.same (.gateLogin ht)
  | gateEntity => exact h.same (.gateEntity ht)
  | gateBind => exact h.gateBind ht
  | close fd =>
    obtain ⟨bound, _, rfl⟩ := Option.map_eq_some_iff.mp ht
    simp only
    split <;> exact h.same ⟨.refl _, rfl, rfl, rfl, rfl⟩
  | loginRecv =>
    simp only [SessionLink.step] at ht
    split at ht
    · cases ht
    · cases ht
      apply Inv.same ?_ (.loginReceive ..)
      exact h.same ⟨.refl _, rfl, rfl, rfl, rfl⟩
  | refuse i code =>
    obtain ⟨_, ht⟩ := Option.ite_none_left_eq_some.mp ht
    obtain ⟨job, _, rfl⟩ := Option.map_eq_some_iff.mp ht
    exact h.same ⟨.refl _, rfl, rfl, rfl, rfl⟩
  | arrive i =>
    obtain ⟨job, _, rfl⟩ := Option.map_eq_some_iff.mp ht
    apply Inv.enqueueJob
    exact h.same ⟨.refl _, rfl, rfl, rfl, rfl⟩
  | reply i =>
    obtain ⟨r, _, rfl⟩ := Option.map_eq_some_iff.mp ht
    apply Inv.same ?_ (.loginReply ..)
    exact h.same ⟨.refl _, rfl, rfl, rfl, rfl⟩
  | entityRecv size => exact h.entityRecv hok ht
  | start size =>
    simp only [SessionLink.step] at ht
    split at ht
    · next hn hq =>
      cases ht
      rw [Inv, hn] at h
      exact CallInv.startTask h hn hq conf size
    · cases ht
  | answered => exact h.answered ht
  | finish result code size =>
    simp only [SessionLink.step] at ht
    split at ht
    · next conn r hr =>
      cases ht
      rw [Inv, hr] at h
      exact ((CallInv.setRunning h none).complete conf conn _ code size).idle
        (complete_running ..)
    · cases ht
  | push payload size =>
    cases ht
    exact h.same (.record ..)
  | elapse ticks =>
    cases ht
    exact h.same ⟨.refl _, rfl, rfl, rfl, rfl⟩

/-- Unless a copy of a request passes the lookup a second time, the handler of a request id starts
at most once in its session, and every copy that is answered gets the response of that
execution. -/
theorem request_at_most_once (h : (system conf).Reaches NoRepeat s) : AtMostOnce s.history := by
  have hinv : Inv s := h.invariant (fun s hs => hs ▸ CallInv.empty)
    fun s a t hi hok ht => hi.step hok ht
  exact hinv.calls

/-- A request goes out before the resume has been answered and runs; it is answered, and its copy,
sent after the resume, is answered from the cache. -/
def servedTwice : SessionLink :=
  (system standard).run NoRepeat empty (resumeRun ++ [.call 7, .gateRecv 1, .entityRecv 0, .start 0,
    .finish (some (⟨none, none, none, none⟩, 5)) .OK 0, .reply 0, .gateLogin, .deliver 1, .wake,
    .gateRecv 1, .entityRecv 0]) (by decide +kernel)

def servedAnswer : Pack := ⟨.response 3 ⟨none, none, none, none⟩, 5⟩

theorem request_served_twice : AtMostOnce servedTwice.history ∧
    servedTwice.history = [.served 1 3 servedAnswer, .finished 1 3 (some servedAnswer),
      .started 1 3] :=
  ⟨request_at_most_once ((system standard).run_reaches NoRepeat _ rfl (by decide +kernel)),
    by decide +kernel⟩

/-- The same, but the copy arrives while the request still runs. -/
def startedTwice : SessionLink :=
  (system standard).run Machine.anyStep empty (resumeRun ++ [.call 7, .gateRecv 1, .entityRecv 0,
    .start 0, .reply 0, .gateLogin, .deliver 1, .wake, .gateRecv 1, .entityRecv 0,
    .finish (some (⟨none, none, none, none⟩, 5)) .OK 0, .start 0]) (by decide +kernel)

theorem request_started_twice :
    ¬ ∀ s, (system standard).Reaches Machine.anyStep s → AtMostOnce s.history := by
  intro h
  have hc := (h startedTwice ((system standard).run_reaches _ _ rfl (by decide +kernel))).once 1 3
  exact absurd hc (by decide +kernel)

end SessionLink

end Skyext
