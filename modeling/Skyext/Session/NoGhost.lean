import Skyext.Session.Cluster
import Skyext.Session.Conns

namespace Skyext
set_option autoImplicit true

namespace SessionCluster

variable {s t : SessionCluster} {m : SessionService} {conn : Conn} {p q : ServiceId × EntityId}
  {σ : ServiceId} {key k : Key}

/-- The service has a record of the connection for the entity, or will make one when it hears
the gate's reply. -/
def Held (s : SessionCluster) (p : ServiceId × EntityId) (key : Key) : Prop :=
  (∃ c, (s.services p.1).conns key = some c ∧ c.entity = p.2) ∨
    ∃ h, s.calls p = some ⟨key, h, some true⟩

/-- The gate forwards the connection to the service, or the service will be told it is gone. -/
def Tracked (s : SessionCluster) (p : ServiceId × EntityId) (key : Key) : Prop :=
  s.Forwards p.1 key ∨ (p.1, key) ∈ s.closed ∨ Task.closed key ∈ s.queues p

structure Inv (s : SessionCluster) : Prop where
  wf : ∀ σ, (s.services σ).Wf
  held : ∀ p key, s.Held p key → s.caller key = some p ∧ s.Tracked p key
  login : ∀ p key ans c, s.calls p = some ⟨key, .login, ans⟩ →
    (s.services p.1).session p.2 = some c → c.key = key
  opened : ∀ key g, s.gate key = some g → key ∈ s.opened

theorem Inv.empty : Inv empty :=
  ⟨fun _ => .fresh, by rintro _ _ (⟨_, ⟨⟩, _⟩ | ⟨_, ⟨⟩⟩), (by rintro _ _ _ _ ⟨⟩),
    (by rintro _ _ ⟨⟩)⟩

/-- A step that adds no record and no call and forgets no connection still held. -/
theorem Inv.frame (h : Inv s)
    (hs : ∀ σ, (t.services σ).Wf ∧ (s.services σ).Narrows (t.services σ))
    (hcalls : ∀ p c, t.calls p = some c → s.calls p = some c) (hcaller : t.caller = s.caller)
    (htracked : ∀ p key, t.Held p key → s.Tracked p key → t.Tracked p key)
    (hopened : ∀ key g, t.gate key = some g → key ∈ t.opened) : Inv t := by
  have hheld : ∀ p key, t.Held p key → s.Held p key := by
    rintro p key (⟨c, hc, he⟩ | ⟨h, hc⟩)
    · exact .inl ⟨c, (hs p.1).2.conns key c hc, he⟩
    · exact .inr ⟨h, hcalls p _ hc⟩
  refine ⟨fun σ => (hs σ).1, fun p key hk => ?_, fun p key ans c hc hses => ?_, hopened⟩
  · obtain ⟨hcal, ht⟩ := h.held p key (hheld p key hk)
    exact ⟨hcaller ▸ hcal, htracked p key hk ht⟩
  · exact h.login p key ans c (hcalls p _ hc) ((hs p.1).2.session p.2 c hses)

theorem Tracked.congr (h : s.Tracked p key) (hg : t.gate = s.gate) (hc : t.closed = s.closed)
    (hq : t.queues = s.queues) : t.Tracked p key := by
  rw [Tracked, Forwards] at h ⊢
  rwa [hg, hc, hq]

theorem Inv.narrow (h : Inv s) (hm : m.Wf ∧ (s.services σ).Narrows m) :
    Inv (s.setService σ m) := by
  refine h.frame (fun τ => ?_) (fun _ _ hc => hc) rfl (fun _ _ _ ht => ht.congr rfl rfl rfl)
    h.opened
  simp only [setService, Function.update_apply]
  split
  · next he =>
    subst he
    exact hm
  · exact ⟨h.wf τ, .refl _⟩

theorem Inv.congr (h : Inv s) (hs : t.services = s.services) (hcalls : t.calls = s.calls)
    (hcaller : t.caller = s.caller) (hg : t.gate = s.gate) (hc : t.closed = s.closed)
    (hq : t.queues = s.queues) (ho : t.opened = s.opened) : Inv t := by
  refine h.frame (fun σ => ?_) (fun _ _ h => hcalls ▸ h) hcaller
    (fun _ _ _ ht => ht.congr hg hc hq) fun key g h' => ?_
  · rw [hs]
    exact ⟨h.wf σ, .refl _⟩
  · rw [ho]
    exact h.opened key g (hg ▸ h')

theorem Inv.commit {r : SessionService × List GateCmd} (h : Inv s)
    (hm : r.1.Wf ∧ (s.services σ).Narrows r.1) : Inv (s.commit σ r) :=
  (h.narrow hm).congr rfl rfl rfl rfl rfl rfl rfl

theorem Inv.connect (h : Inv s) (hk : key ∉ s.opened) :
    Inv { s with
      gate := Function.update s.gate key (some ⟨none, false⟩)
      opened := key :: s.opened } := by
  refine h.frame (fun σ => ⟨h.wf σ, .refl _⟩) (fun _ _ hc => hc) rfl (fun p k _ ht => ?_) ?_
  · rcases ht with ⟨g, hg, ho⟩ | ht
    · have hne : k ≠ key := fun heq => hk (heq ▸ h.opened k g hg)
      exact .inl ⟨g, (Function.update_of_ne hne ..).trans hg, ho⟩
    · exact .inr ht
  · intro k g hg
    by_cases hkk : k = key
    · exact hkk ▸ List.mem_cons_self
    · exact .tail _ (h.opened k g ((Function.update_of_ne hkk ..).symm.trans hg))

theorem Inv.enqueue (h : Inv s) (p : ServiceId × EntityId) (task : Task) :
    Inv { s with queues := Function.update s.queues p (s.queues p ++ [task]) } := by
  refine h.frame (fun σ => ⟨h.wf σ, .refl _⟩) (fun _ _ hc => hc) rfl (fun q k _ ht => ?_) h.opened
  refine ht.imp id (Or.imp id fun hq => ?_)
  by_cases heq : q = p
  · subst heq
    simp only [Function.update_self]
    exact List.mem_append_left _ hq
  · simpa only [Function.update_of_ne heq] using hq

theorem Inv.close (h : Inv s) (hg : s.gate key = some g) :
    Inv { s with
      gate := Function.update s.gate key none
      closed := s.closed ++ (g.owner.map fun σ => (σ, key)).toList } := by
  refine h.frame (fun σ => ⟨h.wf σ, .refl _⟩) (fun _ _ hc => hc) rfl (fun p k _ ht => ?_) ?_
  · rcases ht with ⟨g', hg', ho⟩ | hc | hq
    · by_cases hk : k = key
      · subst hk
        rw [hg] at hg'
        cases hg'
        refine .inr (.inl (List.mem_append_right _ ?_))
        rw [ho]
        exact List.mem_singleton_self _
      · exact .inl ⟨g', (Function.update_of_ne hk ..).trans hg', ho⟩
    · exact .inr (.inl (List.mem_append_left _ hc))
    · exact .inr (.inr hq)
  · intro k g' hg'
    by_cases hk : k = key
    · simp only [hk, Function.update_self] at hg'
      cases hg'
    · exact h.opened k g' ((Function.update_of_ne hk ..).symm.trans hg')

theorem Inv.kicked (h : Inv s) (key : Key) (kicks : List Key) :
    Inv { s with
      kicks := kicks
      gate := Function.update s.gate key
        ((s.gate key).map fun g => { g with kicked := true }) } := by
  refine h.frame (fun σ => ⟨h.wf σ, .refl _⟩) (fun _ _ hc => hc) rfl (fun p k _ ht => ?_) ?_
  · rcases ht with ⟨g, hg, ho⟩ | ht
    · by_cases hk : k = key
      · subst hk
        refine .inl ⟨{ g with kicked := true }, ?_, ho⟩
        simp only [Function.update_self, hg, Option.map_some]
      · exact .inl ⟨g, (Function.update_of_ne hk ..).trans hg, ho⟩
    · exact .inr ht
  · intro k g hg
    by_cases hk : k = key
    · subst hk
      simp only [Function.update_self, Option.map_eq_some_iff] at hg
      obtain ⟨g', hg', _⟩ := hg
      exact h.opened k g' hg'
    · exact h.opened k g ((Function.update_of_ne hk ..).symm.trans hg)

theorem Held.holds (h : Inv s) (hk : s.Held p key) : s.holds p key = true := by
  rcases hk with ⟨c, hc, he⟩ | ⟨h', hc⟩
  · obtain ⟨hck, hcs⟩ := (h.wf p.1).conns key c hc
    rw [he] at hcs
    simp [SessionCluster.holds, hcs, hck]
  · simp [SessionCluster.holds, hc]

theorem Inv.refuseBind (h : Inv s) (hc : s.calls p = some ⟨key, hs, none⟩) :
    Inv (s.setCall p (some ⟨key, hs, some false⟩)) := by
  have hother : ∀ q k h', (s.setCall p (some ⟨key, hs, some false⟩)).calls q =
      some ⟨k, h', some true⟩ → s.calls q = some ⟨k, h', some true⟩ := by
    intro q k h' hq
    by_cases heq : q = p
    · simp only [heq, setCall, Function.update_self] at hq
      cases hq
    · simpa only [setCall, Function.update_of_ne heq] using hq
  refine ⟨h.wf, fun q k hk => ?_, fun q k ans c hq hses => ?_, h.opened⟩
  · obtain ⟨hcal, ht⟩ := h.held q k (hk.imp id fun hq => hq.imp fun h' => hother q k h')
    exact ⟨hcal, ht.congr rfl rfl rfl⟩
  · by_cases heq : q = p
    · subst heq
      simp only [setCall, Function.update_self] at hq
      cases hq
      exact h.login q _ none c hc hses
    · simp only [setCall, Function.update_of_ne heq] at hq
      exact h.login q k ans c hq hses

theorem Inv.acceptBind (h : Inv s) (hc : s.calls p = some ⟨key, hs, none⟩)
    (hg : s.gate key = some g) (hok : s.rebinds (.bind p) = false) :
    Inv { s.setCall p (some ⟨key, hs, some true⟩) with
      gate := Function.update s.gate key (some { g with owner := some p.1 })
      caller := Function.update s.caller key (some p) } := by
  -- whoever holds the connection already is the caller itself
  have hself : ∀ q, s.Held q key → q = p := by
    intro q hq
    have hcal := (h.held q key hq).1
    simp only [rebinds, hc, hcal, Option.any_some, Bool.and_eq_false_iff, decide_eq_false_iff_not,
      not_not, hq.holds h, Bool.true_eq_false, or_false] at hok
    exact hok
  refine ⟨h.wf, fun q k hk => ?_, fun q k ans c hq hses => ?_, fun k g' hg' => ?_⟩
  · have hcase : (q = p ∧ k = key) ∨ s.Held q k := by
      rcases hk with hk | ⟨h', hq⟩
      · exact .inr (.inl hk)
      · by_cases heq : q = p
        · subst heq
          simp only [setCall, Function.update_self] at hq
          cases hq
          exact .inl ⟨rfl, rfl⟩
        · simp only [setCall, Function.update_of_ne heq] at hq
          exact .inr (.inr ⟨h', hq⟩)
    by_cases hkk : k = key
    · subst hkk
      have hq : q = p := hcase.elim And.left (hself q)
      subst hq
      exact ⟨Function.update_self .., .inl ⟨_, Function.update_self .., rfl⟩⟩
    · obtain ⟨hcal, ht⟩ := h.held q k (hcase.resolve_left fun hp => hkk hp.2)
      refine ⟨(Function.update_of_ne hkk ..).trans hcal, ht.imp ?_ id⟩
      rintro ⟨g', hg', ho⟩
      exact ⟨g', (Function.update_of_ne hkk ..).trans hg', ho⟩
  · by_cases heq : q = p
    · subst heq
      simp only [setCall, Function.update_self] at hq
      cases hq
      exact h.login q _ none c hc hses
    · simp only [setCall, Function.update_of_ne heq] at hq
      exact h.login q k ans c hq hses
  · by_cases hkk : k = key
    · exact hkk ▸ h.opened key g hg
    · exact h.opened k g' ((Function.update_of_ne hkk ..).symm.trans hg')

theorem mem_eraseIdx_of_ne {l : List α} (hi : l[i]? = some a) (hb : b ∈ l) (hne : b ≠ a) :
    b ∈ l.eraseIdx i := by
  obtain ⟨j, hj⟩ := List.getElem?_of_mem hb
  refine List.mem_eraseIdx_iff_getElem?.mpr ⟨j, fun heq => ?_, hj⟩
  rw [heq, hi] at hj
  exact hne (Option.some.inj hj).symm

theorem Inv.dropNotice (h : Inv s) (hi : s.closed[i]? = some (σ, key))
    (hk : (s.services σ).conns key = none) (hp : s.replyPending σ key = false) :
    Inv { s with closed := s.closed.eraseIdx i } := by
  refine h.frame (fun σ => ⟨h.wf σ, .refl _⟩) (fun _ _ hc => hc) rfl (fun p k hheld ht => ?_)
    h.opened
  refine ht.imp id (Or.imp (fun hc => ?_) id)
  refine mem_eraseIdx_of_ne hi hc fun heq => ?_
  cases heq
  rcases hheld with ⟨c, hcon, _⟩ | ⟨h', hcall⟩
  · cases hk.symm.trans hcon
  · have hcal := (h.held p key (.inr ⟨h', hcall⟩)).1
    have hcall : s.calls p = some ⟨key, h', some true⟩ := hcall
    simp [replyPending, hcal, hcall] at hp

/-- A notice of a known connection waits in the queue of its entity. -/
theorem Inv.queueNotice (h : Inv s) (hi : s.closed[i]? = some (σ, key))
    (hk : (s.services σ).conns key = some conn) :
    Inv { s with
      closed := s.closed.eraseIdx i
      queues := Function.update s.queues (σ, conn.entity)
        (s.queues (σ, conn.entity) ++ [.closed key]) } := by
  have hq := h.enqueue (σ, conn.entity) (.closed key)
  refine hq.frame (fun σ => ⟨hq.wf σ, .refl _⟩) (fun _ _ hc => hc) rfl (fun p k hheld ht => ?_)
    h.opened
  by_cases heq : (p.1, k) = (σ, key)
  · cases heq
    have hcal := (hq.held p key hheld).1
    have hown := (h.held (p.1, conn.entity) key (.inl ⟨conn, hk, rfl⟩)).1
    have hpe : p = (p.1, conn.entity) := Option.some.inj (hcal.symm.trans hown)
    refine .inr (.inr ?_)
    rw [hpe]
    simp only [Function.update_self]
    exact List.mem_append_right _ (List.mem_singleton_self _)
  · exact ht.imp id (Or.imp (fun hc => mem_eraseIdx_of_ne hi hc heq) id)

theorem Inv.runClosed (h : Inv s) (hp : s.calls p = none)
    (hq : s.queues p = .closed key :: ts) :
    Inv ({ s with queues := Function.update s.queues p ts }.begin p (.closed key)) := by
  obtain ⟨hm, hgone⟩ := (h.wf p.1).unbindClosed p.2 key
  refine h.frame (fun σ => ?_) (fun _ _ hc => hc) rfl (fun q k hheld ht => ?_) h.opened
  · simp only [begin, setService, Function.update_apply]
    split
    · next he => exact he ▸ hm
    · exact ⟨h.wf σ, .refl _⟩
  · refine ht.imp id (Or.imp id fun hk => ?_)
    simp only [begin, setService, Function.update_apply]
    split
    · next he =>
      subst he
      rw [hq] at hk
      cases hk with
      | tail _ hk => exact hk
      | head =>
        rcases hheld with ⟨c, hc, hce⟩ | ⟨h', hc⟩
        · simp only [begin, setService, Function.update_self] at hc
          exact absurd hce (hgone c hc)
        · cases hp.symm.trans hc
    · exact hk

theorem Inv.dequeue (h : Inv s) (hq : s.queues p = .handshake key hs :: ts) :
    Inv { s with queues := Function.update s.queues p ts } := by
  refine h.frame (fun σ => ⟨h.wf σ, .refl _⟩) (fun _ _ hc => hc) rfl (fun q k _ ht => ?_) h.opened
  refine ht.imp id (Or.imp id fun hk => ?_)
  simp only [Function.update_apply]
  split
  · next he =>
    subst he
    rw [hq] at hk
    cases hk with
    | tail _ hk => exact hk
  · exact hk

theorem Inv.call (h : Inv s)
    (hl : ∀ c, hs = .login → (s.services p.1).session p.2 = some c → c.key = key) :
    Inv (s.setCall p (some ⟨key, hs, none⟩)) := by
  refine ⟨h.wf, fun q k hk => ?_, fun q k ans c hq hses => ?_, h.opened⟩
  · have hk' : s.Held q k := by
      refine hk.imp id fun hq => hq.imp fun h' hq => ?_
      by_cases heq : q = p
      · simp only [heq, setCall, Function.update_self] at hq
        cases hq
      · simpa only [setCall, Function.update_of_ne heq] using hq
    obtain ⟨hcal, ht⟩ := h.held q k hk'
    exact ⟨hcal, ht.congr rfl rfl rfl⟩
  · by_cases heq : q = p
    · subst heq
      simp only [setCall, Function.update_self] at hq
      cases hq
      exact hl c rfl hses
    · simp only [setCall, Function.update_of_ne heq] at hq
      exact h.login q k ans c hq hses

theorem Inv.begin (h : Inv s) (hp : s.calls p = none) (hq : s.queues p = task :: ts) :
    Inv ({ s with queues := Function.update s.queues p ts }.begin p task) := by
  cases task with
  | closed key => exact h.runClosed hp hq
  | handshake key hs =>
    have hd := h.dequeue hq
    cases hs with
    | login =>
      obtain ⟨hm, hses⟩ := (hd.wf p.1).leaveOld p.2 key
      refine (hd.commit hm).call fun c _ hc => ?_
      simp only [SessionCluster.commit, setService, Function.update_self] at hc
      exact hses c hc
    | resume credential recv =>
      simp only [SessionCluster.begin]
      split
      · exact hd.call (by rintro _ ⟨⟩)
      · exact hd

theorem Inv.endCall (h : Inv s) (p : ServiceId × EntityId) : Inv (s.setCall p none) := by
  refine h.frame (fun σ => ⟨h.wf σ, .refl _⟩) (fun q c hc => ?_) rfl
    (fun _ _ _ ht => ht.congr rfl rfl rfl) h.opened
  by_cases heq : q = p
  · simp only [heq, setCall, Function.update_self] at hc
    cases hc
  · simpa only [setCall, Function.update_of_ne heq] using hc

/-- A connection that is held is held for one entity only. -/
theorem Inv.held_unique (h : Inv s) (hp : s.Held p key) (hq : s.Held q key) : p = q :=
  Option.some.inj ((h.held p key hp).1.symm.trans (h.held q key hq).1)

/-- The handshake whose connection the gate has bound moves its entity there. -/
theorem Inv.move (h : Inv s) (hc : s.calls p = some ⟨key, hs, some true⟩)
    (hcon : m.conns = ((s.services p.1).moved key p.2).conns)
    (hses : m.session = ((s.services p.1).moved key p.2).session) :
    Inv ((s.setCall p none).setService p.1 m) := by
  have hp : s.Held p key := .inr ⟨hs, hc⟩
  have hmoved : m.Wf := by
    refine ((h.wf p.1).moved fun c hk => ?_).congr hcon hses |>.1
    exact (congrArg Prod.snd (h.held_unique (p := (p.1, c.entity)) (.inl ⟨c, hk, rfl⟩) hp))
  have hcalls : ∀ q c, (s.setCall p none).calls q = some c → q ≠ p ∧ s.calls q = some c := by
    intro q c hq
    by_cases heq : q = p
    · simp only [heq, setCall, Function.update_self] at hq
      cases hq
    · exact ⟨heq, by simpa only [setCall, Function.update_of_ne heq] using hq⟩
  have hheld : ∀ q k, ((s.setCall p none).setService p.1 m).Held q k → s.Held q k := by
    rintro q k (⟨c, hk, he⟩ | ⟨h', hq⟩)
    · simp only [setService, Function.update_apply] at hk
      split at hk
      · next hqp =>
        rw [hcon, SessionService.moved_conns] at hk
        split at hk
        · next hkk =>
          cases hk
          have hq : q = p := Prod.ext hqp he.symm
          exact hq ▸ hkk ▸ hp
        · rw [Option.ite_none_left_eq_some] at hk
          exact .inl ⟨c, hqp ▸ hk.2, he⟩
      · exact .inl ⟨c, hk, he⟩
    · exact .inr ⟨h', (hcalls q _ hq).2⟩
  refine ⟨fun σ => ?_, fun q k hk => ?_, fun q k ans c hq hc' => ?_, h.opened⟩
  · simp only [setService, Function.update_apply]
    split
    · exact hmoved
    · exact h.wf σ
  · obtain ⟨hcal, ht⟩ := h.held q k (hheld q k hk)
    exact ⟨hcal, ht.congr rfl rfl rfl⟩
  · obtain ⟨hne, hq⟩ := hcalls q _ hq
    refine h.login q k ans c hq ?_
    simp only [setService, Function.update_apply] at hc'
    split at hc'
    · next hqp =>
      rw [hses, SessionService.moved_session, if_neg fun he => hne (Prod.ext hqp he)] at hc'
      exact hqp ▸ hc'
    · exact hc'

theorem Inv.finish (h : Inv s) (hc : s.calls p = some ⟨key, hs, some bound⟩) :
    Inv ((s.setCall p none).finish p key bound hs) := by
  cases hs with
  | login =>
    cases bound with
    | false =>
      exact ((h.endCall p).narrow ⟨h.wf p.1, .refl _⟩).congr rfl rfl rfl rfl rfl rfl rfl
    | true =>
      have hmoved := SessionService.installConn_eq_moved fun c => h.login p key _ c hc
      refine (h.move
        (m := ((s.services p.1).bind key p.2 true ⟨s.nonces, 0⟩ s.clock).1) hc ?_ ?_).congr
        rfl rfl rfl rfl rfl rfl rfl
      · rw [← hmoved]
        rfl
      · rw [← hmoved]
        rfl
  | resume credential recv =>
    simp only [SessionCluster.finish]
    split
    · next hok =>
      obtain ⟨rfl, hcon, hses⟩ := SessionService.resume_conns hok
      obtain ⟨hcon', hses'⟩ := SessionService.replay_conns
        ((s.services p.1).resume key p.2 true recv ⟨s.nonces, 0⟩ s.clock).1 p.2
      exact (h.move hc (hcon'.trans hcon) (hses'.trans hses)).congr rfl rfl rfl rfl rfl rfl rfl
    · exact h.endCall p

theorem Inv.hear (h : Inv s) (σ : ServiceId) (e : EntityId) (io : SessionIo) :
    Inv (s.setService σ ((s.services σ).setIo e io)) := h.narrow ((h.wf σ).setIo e io)

theorem Inv.bind (h : Inv s) (hok : s.Orderly (.bind p)) (hs : step s (.bind p) = some t) :
    Inv t := by
  simp only [SessionCluster.step] at hs
  split at hs
  · next hc =>
    split at hs
    · cases hs
      exact h.refuseBind hc
    · next hg =>
      cases hs
      exact h.acceptBind hc hg hok.2
  · cases hs

theorem Inv.notify (h : Inv s) (hok : s.Orderly (.notify i))
    (hs : step s (.notify i) = some t) : Inv t := by
  simp only [SessionCluster.step] at hs
  split at hs
  · cases hs
  · next σ key hi =>
    split at hs
    · cases hs
    · split at hs
      · next hk =>
        cases hs
        have hp := hok.1
        simp only [overtakes, hi, hk, Option.isNone_none, Bool.true_and] at hp
        exact h.dropNotice hi hk hp
      · next hk =>
        cases hs
        exact h.queueNotice hi hk

theorem Inv.step (h : Inv s) (hok : s.Orderly a) (hs : step s a = some t) : Inv t := by
  cases a with
  | connect key =>
    simp only [SessionCluster.step] at hs
    split at hs
    · cases hs
    · next hk =>
      cases hs
      exact h.connect hk
  | request key p hs' =>
    simp only [SessionCluster.step] at hs
    split at hs
    · cases hs
      exact h.congr rfl rfl rfl rfl rfl rfl rfl
    · cases hs
  | arrive i =>
    obtain ⟨r, _, rfl⟩ := Option.map_eq_some_iff.mp hs
    exact (h.enqueue r.1 r.2).congr rfl rfl rfl rfl rfl rfl rfl
  | start p =>
    simp only [SessionCluster.step] at hs
    split at hs
    · next hp hq =>
      cases hs
      exact h.begin hp hq
    · cases hs
  | bind p => exact h.bind hok hs
  | answer p =>
    simp only [SessionCluster.step] at hs
    split at hs
    · next hc =>
      cases hs
      exact h.finish hc
    · cases hs
  | close key =>
    obtain ⟨g, hg, rfl⟩ := Option.map_eq_some_iff.mp hs
    exact h.close hg
  | kicked i =>
    obtain ⟨key, _, rfl⟩ := Option.map_eq_some_iff.mp hs
    exact h.kicked key _
  | notify i => exact h.notify hok hs
  | hear σ key =>
    simp only [SessionCluster.step] at hs
    split at hs
    · cases hs
    · obtain ⟨io, _, rfl⟩ := Option.map_eq_some_iff.mp hs
      exact h.hear σ _ _
  | push p pack =>
    cases hs
    exact h.commit ((h.wf p.1).recordAndSend _ p.2 pack)
  | kick σ key =>
    cases hs
    exact h.commit ⟨h.wf σ, .refl _⟩
  | unbindKick p key =>
    cases hs
    exact h.commit ((h.wf p.1).unbindKick key p.2)
  | sweep σ key =>
    cases hs
    exact (h.commit ⟨h.wf σ, .refl _⟩).congr rfl rfl rfl rfl rfl rfl rfl
  | elapse ticks =>
    cases hs
    exact h.congr rfl rfl rfl rfl rfl rfl rfl

theorem inv_reaches (h : system.Reaches Orderly s) : Inv s :=
  h.invariant (fun _ hs => hs ▸ .empty) fun _ _ _ hi hok hs => hi.step hok hs

theorem Inv.noGhost (h : Inv s) (hq : s.Quiet) : s.NoGhost := by
  have hforwards : ∀ p key, s.Held p key → s.Forwards p.1 key := by
    intro p key hk
    rcases (h.held p key hk).2 with hf | hc | hc
    · exact hf
    · rw [hq.closed] at hc
      cases hc
    · rw [hq.queues p] at hc
      cases hc
  have hconns : ∀ σ key conn, (s.services σ).conns key = some conn → s.Forwards σ key :=
    fun σ key conn hc => hforwards (σ, conn.entity) key (.inl ⟨conn, hc, rfl⟩)
  exact ⟨hconns, fun σ e conn hc => hconns σ conn.key conn ((h.wf σ).session e conn hc).1⟩

/-- In every run in which no notice overtakes the reply to its binding and no gate binds one
connection for two entities, a quiet state has no ghost sessions. -/
theorem no_ghost_sessions (h : system.Reaches Orderly s) (hq : s.Quiet) : s.NoGhost :=
  (inv_reaches h).noGhost hq

def player : ServiceId × EntityId := (⟨0, 0⟩, 0)

def remote : Key := ⟨1, 5⟩

/-- A login through a gate on another node, up to the binding. -/
def remoteLogin : List SessionAction :=
  [.connect remote, .request remote player .login, .arrive 0, .start player, .bind player]

def online : SessionCluster :=
  system.run Orderly empty (remoteLogin ++ [.answer player]) (by decide)

theorem online_quiet : online.Quiet := by
  have hq : online.queues = Function.update (Function.update (fun _ => []) player
    [.handshake remote .login]) player [] := rfl
  have hc : online.calls = Function.update (Function.update (Function.update (fun _ => none)
    player (some ⟨remote, .login, none⟩)) player (some ⟨remote, .login, some true⟩))
    player none := rfl
  have hg : online.gate = Function.update (Function.update (fun _ => none) remote
    (some ⟨none, false⟩)) remote (some ⟨some player.1, false⟩) := rfl
  refine ⟨rfl, fun p => ?_, fun p => ?_, rfl, rfl, fun key g h => ?_⟩
  · simp only [hq, Function.update_apply]
    split <;> rfl
  · simp only [hc, Function.update_apply]
    split <;> rfl
  · simp only [hg, Function.update_apply] at h
    split at h <;> cases h
    rfl

theorem no_ghost_sessions_online : online.NoGhost ∧ online.Forwards player.1 remote :=
  have h := no_ghost_sessions (system.run_reaches Orderly _ rfl (by decide)) online_quiet
  ⟨h, h.conns player.1 remote ⟨0, remote, 0⟩ rfl⟩

/-- The connection closes before the reply to its binding arrives, and the notice of that comes
first; a minute later the idle check kicks a connection the gate no longer knows. -/
def ghost : SessionCluster :=
  system.run Machine.anyStep empty (remoteLogin ++ [.close remote, .notify 0, .answer player,
    .elapse 6001, .sweep player.1 remote, .kicked 0]) (by decide)

theorem ghost_quiet : ghost.Quiet := by
  have hq : ghost.queues = online.queues := rfl
  have hc : ghost.calls = online.calls := rfl
  have hg : ghost.gate = Function.update (Function.update (Function.update (Function.update
    (fun _ => none) remote (some ⟨none, false⟩)) remote (some ⟨some player.1, false⟩)) remote
    none) remote none := rfl
  refine ⟨rfl, fun p => ?_, fun p => ?_, rfl, rfl, fun key g h => ?_⟩
  · rw [hq]
    exact online_quiet.queues p
  · rw [hc]
    exact online_quiet.calls p
  · simp only [hg, Function.update_apply] at h
    split at h <;> cases h

theorem ghost_swept : ghost.Swept := by
  have hs : ghost.services = Function.update (Function.update (Function.update (fun _ => .fresh)
    player.1 _) player.1 _) player.1 _ := rfl
  have hcon : (ghost.services player.1).conns = Function.update (fun _ => none) remote
    (some ⟨0, remote, 0⟩) := rfl
  intro σ key conn io hc hio
  have hσ : σ = player.1 := by
    by_contra hne
    simp only [hs, Function.update_of_ne hne] at hc
    cases hc
  subst hσ
  have hk : key = remote := by
    by_contra hne
    rw [hcon, Function.update_of_ne hne] at hc
    cases hc
  subst hk
  cases hc
  cases hio
  exact ⟨6001, List.mem_singleton_self _, by decide⟩

theorem ghost_sessions : ¬ ∀ s, system.Reaches Machine.anyStep s → s.Quiet → s.Swept →
    s.NoGhost := by
  intro h
  have hn := h ghost (system.run_reaches Machine.anyStep _ rfl (by decide)) ghost_quiet ghost_swept
  obtain ⟨g, hg, _⟩ := hn.conns player.1 remote ⟨0, remote, 0⟩ rfl
  cases hg

end SessionCluster

end Skyext
