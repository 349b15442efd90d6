import Skyext.Session.Service

namespace Skyext
set_option autoImplicit true

namespace SessionService

/-- `g_conns` and the sessions of the entities name each other. -/
structure Wf (m : SessionService) : Prop where
  session : ∀ e c, m.session e = some c → m.conns c.key = some c ∧ c.entity = e
  conns : ∀ key c, m.conns key = some c → c.key = key ∧ m.session c.entity = some c

structure Narrows (m n : SessionService) : Prop where
  conns : ∀ key c, n.conns key = some c → m.conns key = some c
  session : ∀ e c, n.session e = some c → m.session e = some c

variable {m n o : SessionService} {conn : Conn}

theorem Narrows.refl (m : SessionService) : Narrows m m := ⟨fun _ _ h => h, fun _ _ h => h⟩

theorem Wf.fresh : fresh.Wf := ⟨(by rintro _ _ ⟨⟩), (by rintro _ _ ⟨⟩)⟩

theorem Wf.congr (h : m.Wf) (hc : n.conns = m.conns) (hs : n.session = m.session) :
    n.Wf ∧ Narrows m n := by
  obtain ⟨hsession, hconns⟩ := h
  constructor
  · constructor
    · rw [hs, hc]
      exact hsession
    · rw [hc, hs]
      exact hconns
  · constructor
    · rw [hc]
      exact fun _ _ h => h
    · rw [hs]
      exact fun _ _ h => h

theorem Wf.setIo (h : m.Wf) (e : EntityId) (io : SessionIo) :
    (m.setIo e io).Wf ∧ Narrows m (m.setIo e io) := h.congr rfl rfl

theorem Wf.recordAndSend (h : m.Wf) (conf : SessionConf) (e : EntityId) (pack : Pack) :
    (m.recordAndSend conf e pack).1.Wf ∧ Narrows m (m.recordAndSend conf e pack).1 := by
  rw [SessionService.recordAndSend]
  split
  · exact ⟨h, .refl m⟩
  · split <;> exact h.setIo ..

theorem Wf.eq_of_entity (h : m.Wf) (hk : m.conns key = some conn) (hs : m.session e = some c)
    (he : conn.entity = e) : c = conn := by
  obtain ⟨_, hsession⟩ := h.conns key conn hk
  rw [he, hs] at hsession
  exact Option.some.inj hsession

theorem unbind_conns (hk : m.conns key = some conn) (k : Key) :
    (m.unbind key).conns k = if k = key then none else m.conns k := by
  simp only [unbind, hk, Function.update_apply]

theorem unbind_session (h : m.Wf) (hk : m.conns key = some conn) (e : EntityId) :
    (m.unbind key).session e = if e = conn.entity then none else m.session e := by
  simp only [unbind, hk, (h.conns key conn hk).2, if_true, Function.update_apply]

theorem Wf.unbind (h : m.Wf) (key : Key) : (m.unbind key).Wf ∧ Narrows m (m.unbind key) := by
  cases hk : m.conns key with
  | none =>
    simp only [SessionService.unbind, hk]
    exact ⟨h, .refl m⟩
  | some conn =>
    have hn : Narrows m (m.unbind key) := by
      constructor
      · intro k c hc
        rw [unbind_conns hk, Option.ite_none_left_eq_some] at hc
        exact hc.2
      · intro e c hc
        rw [unbind_session h hk, Option.ite_none_left_eq_some] at hc
        exact hc.2
    refine ⟨⟨fun e c hc => ?_, fun k c hc => ?_⟩, hn⟩
    · obtain ⟨hck, hce⟩ := h.session e c (hn.session e c hc)
      rw [unbind_session h hk, Option.ite_none_left_eq_some] at hc
      have hne : c.key ≠ key := by
        rintro rfl
        rw [hk] at hck
        cases hck
        exact hc.1 hce.symm
      rw [unbind_conns hk, if_neg hne]
      exact ⟨hck, hce⟩
    · obtain ⟨hck, hcs⟩ := h.conns k c (hn.conns k c hc)
      rw [unbind_conns hk, Option.ite_none_left_eq_some] at hc
      have hne : c.entity ≠ conn.entity := by
        intro he
        rw [h.eq_of_entity hk hcs he.symm, (h.conns key conn hk).1] at hck
        exact hc.1 hck.symm
      rw [unbind_session h hk, if_neg hne]
      exact ⟨hck, hcs⟩

theorem Wf.unbindKick (h : m.Wf) (key : Key) (e : EntityId) :
    (m.unbindKick key e).1.Wf ∧ Narrows m (m.unbindKick key e).1 := by
  rw [SessionService.unbindKick]
  split
  · exact ⟨h, .refl m⟩
  · split
    · exact h.unbind key
    · exact ⟨h, .refl m⟩

/-- The state after an entity has moved to a connection: `install_conn` and the retirement of
the connection it had. -/
def moved (m : SessionService) (key : Key) (e : EntityId) : SessionService :=
  ((m.installConn key e).retire (m.session e) key).1

theorem moved_serials (m : SessionService) (key : Key) (e : EntityId) :
    (m.moved key e).serials = m.serials + 1 := by
  rw [moved, retire.eq_def]
  split
  · rfl
  · split <;> rfl

theorem moved_session (m : SessionService) (key : Key) (e e' : EntityId) :
    (m.moved key e).session e' =
      if e' = e then some ⟨m.serials, key, e⟩ else m.session e' := by
  rw [moved, retire.eq_def]
  split
  · simp only [installConn, Function.update_apply]
  · split <;> simp only [installConn, Function.update_apply]

theorem moved_conns (m : SessionService) (key : Key) (e : EntityId) (k : Key) :
    (m.moved key e).conns k =
      if k = key then some ⟨m.serials, key, e⟩
      else if (m.session e).any (decide <| ·.key = k) then none else m.conns k := by
  rw [moved, retire.eq_def]
  split
  · next ho => simp [installConn, Function.update_apply, ho]
  · next old ho =>
    split
    · next hk =>
      simp only [installConn, Function.update_apply, ho, Option.any_some, decide_eq_true_eq]
      grind
    · simp only [installConn, Function.update_apply, ho, Option.any_some, decide_eq_true_eq]
      grind

theorem Wf.moved (h : m.Wf) (hkey : ∀ c, m.conns key = some c → c.entity = e) :
    (m.moved key e).Wf := by
  constructor
  · intro e' c hc
    rw [moved_session] at hc
    rw [moved_conns]
    split at hc
    · next he =>
      cases hc
      exact ⟨if_pos rfl, he.symm⟩
    · next he =>
      obtain ⟨hck, rfl⟩ := h.session e' c hc
      have hne : c.key ≠ key := fun heq => he (hkey c (heq ▸ hck))
      have hold : (m.session e).any (decide <| ·.key = c.key) = false := by
        cases ho : m.session e with
        | none => rfl
        | some old =>
          refine decide_eq_false fun heq => ?_
          obtain ⟨hok, hoe⟩ := h.session e old ho
          rw [heq, hck] at hok
          cases hok
          exact he hoe
      rw [if_neg hne, hold]
      exact ⟨hck, rfl⟩
  · intro k c hc
    rw [moved_conns] at hc
    rw [moved_session]
    split at hc
    · next hk =>
      cases hc
      exact ⟨hk.symm, if_pos rfl⟩
    · rw [Option.ite_none_left_eq_some] at hc
      obtain ⟨hck, hcs⟩ := h.conns k c hc.2
      have hne : c.entity ≠ e := by
        intro heq
        rw [heq] at hcs
        rw [hcs] at hc
        exact hc.1 (decide_eq_true hck)
      rw [if_neg hne]
      exact ⟨hck, hcs⟩

theorem replay_conns (m : SessionService) (e : EntityId) :
    (m.replay e).1.conns = m.conns ∧ (m.replay e).1.session = m.session := by
  rw [SessionService.replay]
  split <;> exact ⟨rfl, rfl⟩

/-- What a resume does: refused it leaves everything as it is, else it moves the entity. -/
theorem resume_eq (m : SessionService) (key : Key) (e : EntityId) (bound : Bool)
    (recv : Option Int) (nonce : Nonce) (now : Nat) :
    (m.io e = none ∨ bound = false) ∧
      m.resume key e bound recv nonce now = (m, [], ⟨.SESSION_CLOSED, none, none⟩) ∨
    ∃ io, m.io e = some io ∧ bound = true ∧ m.resume key e bound recv nonce now =
      ((m.moved key e).setIo e (io.resumed recv nonce now),
        ((m.installConn key e).retire (m.session e) key).2,
        ⟨.OK, some nonce, some (io.resumed recv nonce now).sent⟩) := by
  cases hio : m.io e with
  | none => exact .inl ⟨.inl rfl, by simp only [resume, hio]⟩
  | some io =>
    cases bound with
    | false => exact .inl ⟨.inr rfl, by simp only [resume, hio]⟩
    | true => exact .inr ⟨io, rfl, rfl, by simp only [resume, hio, moved]⟩

theorem resume_conns (h : (m.resume key e bound recv nonce now).2.2.code = .OK) :
    bound = true ∧ (m.resume key e bound recv nonce now).1.conns = (m.moved key e).conns ∧
    (m.resume key e bound recv nonce now).1.session = (m.moved key e).session := by
  rw [resume.eq_def] at h ⊢
  split at h
  · exact ⟨rfl, rfl, rfl⟩
  · cases h

/-- A login whose entity has left its old connection is a move too. -/
theorem installConn_eq_moved (hold : ∀ c, m.session e = some c → c.key = key) :
    m.installConn key e = m.moved key e := by
  rw [SessionService.moved]
  cases ho : m.session e with
  | none => rfl
  | some old => simp only [retire, hold old ho, if_true]

theorem Wf.leaveOld (h : m.Wf) (e : EntityId) (key : Key) :
    ((m.leaveOld e key).1.Wf ∧ Narrows m (m.leaveOld e key).1) ∧
    ∀ c, (m.leaveOld e key).1.session e = some c → c.key = key := by
  rw [SessionService.leaveOld]
  cases ho : m.session e with
  | none =>
    refine ⟨⟨h, .refl m⟩, fun c hc => ?_⟩
    cases ho.symm.trans hc
  | some old =>
    simp only
    split
    · next hk =>
      refine ⟨⟨h, .refl m⟩, fun c hc => ?_⟩
      rw [ho] at hc
      exact Option.some.inj hc ▸ hk
    · refine ⟨h.unbindKick old.key e, fun c hc => ?_⟩
      obtain ⟨hok, hoe⟩ := h.session e old ho
      simp only [SessionService.unbindKick, hok, hoe, if_true, unbind_session h hok] at hc
      cases hc

theorem Wf.unbindClosed (h : m.Wf) (e : EntityId) (key : Key) :
    ((m.unbindClosed e key).Wf ∧ Narrows m (m.unbindClosed e key)) ∧
    ∀ c, (m.unbindClosed e key).conns key = some c → c.entity ≠ e := by
  rw [SessionService.unbindClosed]
  cases hk : m.conns key with
  | none =>
    refine ⟨⟨h, .refl m⟩, fun c hc => ?_⟩
    cases hk.symm.trans hc
  | some conn =>
    simp only
    split
    · refine ⟨h.unbind key, fun c hc => ?_⟩
      rw [unbind_conns hk, if_pos rfl] at hc
      cases hc
    · next hne =>
      refine ⟨⟨h, .refl m⟩, fun c hc => ?_⟩
      rw [hk] at hc
      exact Option.some.inj hc ▸ hne

end SessionService

end Skyext
