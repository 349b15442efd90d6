import Skyext.Session.Uplink

namespace Skyext
set_option autoImplicit true

open Machine

namespace Uplink

variable {s t : Uplink} {fd id : Nat}

/-- The requests of a connection that are not at a gate that would keep them from the entity. -/
def routed (s : Uplink) (fd : Nat) : List Nat :=
  along fd s.queue ++ along fd s.entityIn ++ if s.gate fd = some true then s.up fd else []

/-- The request has been started, or will be refused for good. -/
def Settled (s : Uplink) (id : Nat) : Prop := id ∈ s.started ∨ id < s.minCached

/-- The client may still resume this session: it has the current credential, waits for a resume
that shows it, or for the answer that carries it. -/
def Resumable (s : Uplink) : Prop :=
  s.nonce = some s.ioNonce ∨ ∃ fd, s.phase = .resuming fd ∧
    (s.resumes fd = some s.ioNonce ∨ s.answers fd = some s.ioNonce)

structure Inv (s : Uplink) : Prop where
  ids : (∀ fd, ∀ x ∈ s.stream fd, x ≤ s.nextReqId) ∧ (∀ x ∈ s.pending, x ≤ s.nextReqId) ∧
    ∀ x ∈ s.started, x ≤ s.nextReqId
  pending : s.pending.Pairwise (· < ·)
  sorted : ∀ fd, (s.stream fd).Pairwise (· < ·)
  quiet : ∀ fd, s.phase = .resuming fd → s.stream fd = []
  unopened : ∀ fd, s.opened ≤ fd → s.stream fd = [] ∧ s.resumes fd = none ∧
    s.answers fd = none ∧ s.live ≠ some fd
  conn : ∀ fd, s.conn = some fd → fd + 1 = s.opened
  phase : ∀ fd, s.phase.fd = some fd → fd + 1 = s.opened
  nonce : ∀ n, s.nonce = some n → n ≤ s.ioNonce
  shown : ∀ fd n, s.resumes fd = some n → n ≤ s.ioNonce
  answered : ∀ fd n, s.answers fd = some n →
    n ≤ s.ioNonce ∧ s.resumes fd = none ∧ (s.live = some fd → n = s.ioNonce)
  binding : ∀ fd b, s.binding = some (fd, b) → s.resumes fd = some s.ioNonce
  executed : (∀ id, s.running = some id → id ∈ s.started) ∧ ∀ id ∈ s.cached, id ∈ s.started
  /-- What waits in the queue is newer than everything started, or started before. -/
  queued : ∀ fd, s.live = some fd → ∀ x ∈ along fd s.queue, x ∈ s.started ∨ ∀ y ∈ s.started, y < x
  arriving : ∀ fd, s.live = some fd → ∀ x ∈ s.stream fd, s.Settled x ∨ ∀ y ∈ s.started, y < x
  /-- What has gone into a connection that may take the session over is newer than what may have
  been started by then. -/
  asked : ∀ fd, s.resumes fd = some s.ioNonce → (∀ fd', s.live = some fd' → fd' < fd) ∧
    ∀ x ∈ s.stream fd, (∀ y ∈ s.started, y < x) ∧
      ∀ fd', s.live = some fd' → ∀ y ∈ s.stream fd', y < x
  behind : s.nonce = some s.ioNonce → ∀ fd, s.phase.fd = some fd →
    ∀ fd', s.live = some fd' → fd' < fd
  /-- What the client may send again is newer than what was started, or will not be. -/
  known : s.Resumable → ∀ x ∈ s.pending, ∀ y ∈ s.started, x < y → s.Settled x
  ahead : s.Resumable → ∀ fd, s.live = some fd → ∀ y ∈ s.routed fd, ∀ x ∈ s.pending, x < y →
    s.Settled x ∨ x ∈ s.routed fd
  sent : s.Resumable → s.phase.isResuming = false → ∀ fd, s.conn = some fd → s.live = some fd →
    s.gate fd = some true → ∀ x ∈ s.pending, s.Settled x ∨ x ∈ s.routed fd
  calls : OrderedCalls s.started

@[simp] theorem along_nil (fd : Nat) : along fd [] = [] := rfl

@[simp] theorem along_append (fd : Nat) (l l' : List (Nat × Nat)) :
    along fd (l ++ l') = along fd l ++ along fd l' := List.filterMap_append

theorem along_cons_self (fd id : Nat) (l : List (Nat × Nat)) :
    along fd ((fd, id) :: l) = id :: along fd l := by
  simp [along]

theorem along_cons_of_ne {fd' : Nat} (h : fd' ≠ fd) (l : List (Nat × Nat)) :
    along fd ((fd', id) :: l) = along fd l := by
  simp [along, h]

theorem mem_stream_of_routed {x : Nat} (h : x ∈ s.routed fd) : x ∈ s.stream fd := by
  rcases List.mem_append.mp h with h | h
  · exact List.mem_append.mpr (.inl h)
  · rw [List.mem_ite_nil_right] at h
    exact List.mem_append.mpr (.inr h.2)

theorem write_of_ne (h : s.conn ≠ some fd) (ids : List Nat) : s.write ids fd = s.up fd := by
  cases hc : s.conn with
  | none => simp only [write, hc]
  | some fd' =>
    simp only [write, hc]
    exact Function.update_of_ne (fun he => h (by rw [hc, he])) ..

theorem write_self (h : s.conn = some fd) (ids : List Nat) : s.write ids fd = s.up fd ++ ids := by
  simp only [write, h]
  exact Function.update_self ..

/-- A step in which nothing is sent or started and the session gets no new connection. -/
structure Shrinks (s t : Uplink) : Prop where
  ids : s.nextReqId ≤ t.nextReqId
  pending : t.pending.Sublist s.pending
  started : t.started = s.started
  stream : ∀ fd, (t.stream fd).Sublist (s.stream fd)
  opened : t.opened = s.opened
  ioNonce : t.ioNonce = s.ioNonce
  conn : ∀ fd, t.conn = some fd → s.conn = some fd
  phase : ∀ fd, t.phase.fd = some fd → s.phase.fd = some fd
  resuming : ∀ fd, t.phase = .resuming fd → s.phase = .resuming fd
  nonce : ∀ n, t.nonce = some n → s.nonce = some n
  resumes : ∀ fd n, t.resumes fd = some n → s.resumes fd = some n
  answers : t.answers = s.answers
  binding : ∀ fd b, t.binding = some (fd, b) → t.resumes fd = some s.ioNonce
  live : ∀ fd, t.live = some fd → s.live = some fd
  running : ∀ id, t.running = some id → id ∈ s.started
  cached : ∀ id ∈ t.cached, id ∈ s.started
  minCached : s.minCached ≤ t.minCached
  queued : ∀ fd, t.live = some fd → ∀ x ∈ along fd t.queue,
    x ∈ along fd s.queue ∨ x ∈ s.stream fd ∧ s.minCached ≤ x
  routed : ∀ fd, t.live = some fd → ∀ x ∈ t.routed fd, x ∈ s.routed fd
  /-- What is no longer on its way is settled, or all that is still on its way is older. -/
  lost : ∀ fd, t.live = some fd → ∀ x ∈ s.routed fd,
    x ∈ t.routed fd ∨ t.Settled x ∨ ∀ y ∈ t.routed fd, y < x
  sent : t.Resumable → t.phase.isResuming = false → ∀ fd, t.conn = some fd → t.live = some fd →
    t.gate fd = some true → s.phase.isResuming = false ∧ s.gate fd = some true ∧
      ∀ x ∈ s.routed fd, x ∈ t.routed fd ∨ t.Settled x

theorem Inv.same (h : s.Inv) : Shrinks s s where
  ids := Nat.le_refl _
  pending := List.Sublist.refl _
  started := rfl
  stream := fun _ => List.Sublist.refl _
  opened := rfl
  ioNonce := rfl
  conn := fun _ hc => hc
  phase := fun _ hp => hp
  resuming := fun _ hp => hp
  nonce := fun _ hn => hn
  resumes := fun _ _ hr => hr
  answers := rfl
  binding := h.binding
  live := fun _ hl => hl
  running := h.executed.1
  cached := h.executed.2
  minCached := Nat.le_refl _
  queued := fun _ _ _ hx => .inl hx
  routed := fun _ _ _ hx => hx
  lost := fun _ _ _ hx => .inl hx
  sent := fun _ hp _ _ _ hg => ⟨hp, hg, fun _ hx => .inl hx⟩

theorem Shrinks.resumable (hs : Shrinks s t) (h : t.Resumable) : s.Resumable := by
  rw [Resumable, hs.ioNonce] at h
  refine h.imp (hs.nonce _) ?_
  rintro ⟨fd, hp, ha⟩
  exact ⟨fd, hs.resuming fd hp, ha.imp (hs.resumes fd _) fun ha => hs.answers ▸ ha⟩

theorem Shrinks.settled (hs : Shrinks s t) {x : Nat} (h : s.Settled x) : t.Settled x := by
  rw [Settled, hs.started]
  exact h.imp_right fun h => Nat.lt_of_lt_of_le h hs.minCached

theorem Inv.shrink (h : s.Inv) (hs : Shrinks s t) : t.Inv := by
  have hstream {fd x : Nat} (hx : x ∈ t.stream fd) : x ∈ s.stream fd := (hs.stream fd).mem hx
  have hpending {x : Nat} (hx : x ∈ t.pending) : x ∈ s.pending := hs.pending.mem hx
  constructor
  case ids =>
    rw [hs.started]
    exact ⟨fun fd x hx => Nat.le_trans (h.ids.1 fd x (hstream hx)) hs.ids,
      fun x hx => Nat.le_trans (h.ids.2.1 x (hpending hx)) hs.ids,
      fun x hx => Nat.le_trans (h.ids.2.2 x hx) hs.ids⟩
  case pending => exact h.pending.sublist hs.pending
  case sorted => exact fun fd => (h.sorted fd).sublist (hs.stream fd)
  case quiet =>
    intro fd hp
    have hsub := hs.stream fd
    rw [h.quiet fd (hs.resuming fd hp)] at hsub
    exact List.sublist_nil.mp hsub
  case unopened =>
    intro fd hfd
    rw [hs.opened] at hfd
    obtain ⟨hempty, hresumes, hanswers, hlive⟩ := h.unopened fd hfd
    have hsub := hs.stream fd
    rw [hempty] at hsub
    refine ⟨List.sublist_nil.mp hsub, ?_, hs.answers ▸ hanswers, fun hl => hlive (hs.live fd hl)⟩
    cases hr : t.resumes fd with
    | none => rfl
    | some n => cases hresumes.symm.trans (hs.resumes fd n hr)
  case conn => exact fun fd hc => hs.opened ▸ h.conn fd (hs.conn fd hc)
  case phase => exact fun fd hp => hs.opened ▸ h.phase fd (hs.phase fd hp)
  case nonce => exact fun n hn => hs.ioNonce ▸ h.nonce n (hs.nonce n hn)
  case shown => exact fun fd n hr => hs.ioNonce ▸ h.shown fd n (hs.resumes fd n hr)
  case answered =>
    intro fd n ha
    obtain ⟨hle, hresumes, hlive⟩ := h.answered fd n (hs.answers ▸ ha)
    rw [hs.ioNonce]
    refine ⟨hle, ?_, fun hl => hlive (hs.live fd hl)⟩
    cases hr : t.resumes fd with
    | none => rfl
    | some n => cases hresumes.symm.trans (hs.resumes fd n hr)
  case binding => exact fun fd b hb => hs.ioNonce ▸ hs.binding fd b hb
  case executed =>
    rw [hs.started]
    exact ⟨hs.running, hs.cached⟩
  case queued =>
    intro fd hl x hx
    rw [hs.started]
    have hl := hs.live fd hl
    rcases hs.queued fd ‹_› x hx with hx | ⟨hx, hmin⟩
    · exact h.queued fd hl x hx
    · rcases h.arriving fd hl x hx with (hx | hlt) | hx
      · exact .inl hx
      · exact absurd hlt (Nat.not_lt.mpr hmin)
      · exact .inr hx
  case arriving =>
    intro fd hl x hx
    rw [hs.started]
    exact (h.arriving fd (hs.live fd hl) x (hstream hx)).imp_left hs.settled
  case asked =>
    intro fd hr
    rw [hs.ioNonce] at hr
    rw [hs.started]
    obtain ⟨hlive, hnew⟩ := h.asked fd (hs.resumes fd _ hr)
    refine ⟨fun fd' hl => hlive fd' (hs.live fd' hl), fun x hx => ?_⟩
    obtain ⟨hstarted, hon⟩ := hnew x (hstream hx)
    exact ⟨hstarted, fun fd' hl y hy => hon fd' (hs.live fd' hl) y (hstream hy)⟩
  case behind =>
    intro hn fd hp fd' hl
    rw [hs.ioNonce] at hn
    exact h.behind (hs.nonce _ hn) fd (hs.phase fd hp) fd' (hs.live fd' hl)
  case known =>
    intro hr x hx y hy hlt
    rw [hs.started] at hy
    exact hs.settled (h.known (hs.resumable hr) x (hpending hx) y hy hlt)
  case ahead =>
    intro hr fd hl y hy x hx hlt
    have hy' := hs.routed fd hl y hy
    rcases h.ahead (hs.resumable hr) fd (hs.live fd hl) y hy' x (hpending hx) hlt with hx | hx
    · exact .inl (hs.settled hx)
    · rcases hs.lost fd hl x hx with hx | hx | hx
      · exact .inr hx
      · exact .inl hx
      · exact absurd hlt (Nat.lt_asymm (hx y hy))
  case sent =>
    intro hr hp fd hc hl hg x hx
    obtain ⟨hp', hg', hlost⟩ := hs.sent hr hp fd hc hl hg
    rcases h.sent (hs.resumable hr) hp' fd (hs.conn fd hc) (hs.live fd hl) hg' x (hpending hx)
      with hx | hx
    · exact .inl (hs.settled hx)
    · exact (hlost x hx).symm
  case calls => exact hs.started ▸ h.calls

theorem Inv.client (h : s.Inv) (ids : Nat) (hids : s.nextReqId ≤ ids) {pending : List Nat}
    (hpending : pending.Sublist s.pending) {conn : Option Nat}
    (hconn : ∀ fd, conn = some fd → s.conn = some fd) {nonce : Option Nat}
    (hnonce : ∀ n, nonce = some n → s.nonce = some n) :
    ({ s with nextReqId := ids, pending := pending, conn := conn, nonce := nonce } : Uplink).Inv :=
  h.shrink { h.same with
    ids := hids
    pending := hpending
    conn := hconn
    nonce := hnonce
    sent := fun _ hp _ _ _ hg => ⟨hp, hg, fun _ hx => .inl hx⟩ }

theorem Inv.resumeFailed (h : s.Inv) (hp : s.phase = .resuming fd) :
    ({ s with phase := .login fd } : Uplink).Inv := by
  have hfd : s.phase.fd = some fd := by rw [hp]; rfl
  refine h.shrink { h.same with
    phase := fun fd' hfd' => hfd.trans hfd'
    resuming := by rintro _ ⟨⟩
    sent := fun hr _ fd' hc hl _ => ?_ }
  have hn : s.nonce = some s.ioNonce := hr.resolve_right (by rintro ⟨_, ⟨⟩, _⟩)
  have hlt := h.behind hn fd hfd fd' hl
  have hopened := h.conn fd' hc
  have hopened' := h.phase fd hfd
  omega

theorem Inv.loginFailed (h : s.Inv) : ({ s with phase := .idle, conn := none } : Uplink).Inv :=
  h.shrink { h.same with
    conn := by rintro _ ⟨⟩
    phase := by rintro _ ⟨⟩
    resuming := by rintro _ ⟨⟩
    sent := by rintro _ _ _ ⟨⟩ }

theorem Inv.gateRecv (h : s.Inv) {rest : List Nat} (hup : s.up fd = id :: rest) :
    (if s.gate fd = some true then
      { s with
        up := Function.update s.up fd rest, entityIn := s.entityIn ++ [(fd, id)] }
      else { s with up := Function.update s.up fd rest }).Inv := by
  split
  · next hg =>
    have hup' (fd' : Nat) : along fd' (s.entityIn ++ [(fd, id)]) ++
        Function.update s.up fd rest fd' = along fd' s.entityIn ++ s.up fd' := by
      by_cases hfd : fd = fd'
      · subst hfd
        rw [along_append, along_cons_self, Function.update_self, hup]
        simp
      · rw [along_append, along_cons_of_ne hfd, Function.update_of_ne (Ne.symm hfd)]
        simp
    have hstream (fd' : Nat) : stream { s with
        up := Function.update s.up fd rest
        entityIn := s.entityIn ++ [(fd, id)] } fd' = s.stream fd' := by
      rw [stream, stream, List.append_assoc, List.append_assoc]
      exact congrArg _ (hup' fd')
    have hrouted (fd' : Nat) : routed { s with
        up := Function.update s.up fd rest
        entityIn := s.entityIn ++ [(fd, id)] } fd' = s.routed fd' := by
      rw [routed, routed, List.append_assoc, List.append_assoc]
      refine congrArg _ ?_
      by_cases hg' : s.gate fd' = some true
      · simp only [hg', if_true]
        exact hup' fd'
      · have hfd : fd ≠ fd' := fun he => hg' (he ▸ hg)
        simp only [hg', if_false, along_append, along_cons_of_ne hfd, along_nil, List.append_nil]
    exact h.shrink { h.same with
      stream := fun fd' => by rw [hstream]
      routed := fun fd' _ x hx => by rwa [hrouted] at hx
      lost := fun fd' _ x hx => .inl (by rwa [hrouted])
      sent := fun _ hp fd' _ _ hg => ⟨hp, hg, fun x hx => .inl (by rwa [hrouted])⟩ }
  · next hg =>
    have hrouted (fd' : Nat) : routed { s with up := Function.update s.up fd rest } fd' =
        s.routed fd' := by
      by_cases hfd : fd' = fd
      · subst hfd
        simp only [routed, hg, if_false]
      · simp only [routed, Function.update_of_ne hfd]
    refine h.shrink { h.same with
      stream := fun fd' => ?_
      routed := fun fd' _ x hx => by rwa [hrouted] at hx
      lost := fun fd' _ x hx => .inl (by rwa [hrouted])
      sent := fun _ hp fd' _ _ hg => ⟨hp, hg, fun x hx => .inl (by rwa [hrouted])⟩ }
    refine List.Sublist.append_left ?_ _
    by_cases hfd : fd' = fd
    · subst hfd
      change (Function.update s.up fd' rest fd').Sublist _
      rw [Function.update_self, hup]
      exact List.sublist_cons_self ..
    · change (Function.update s.up fd rest fd').Sublist _
      rw [Function.update_of_ne hfd]

theorem Inv.close (h : s.Inv) (fd : Nat) :
    ({ s with gate := Function.update s.gate fd none } : Uplink).Inv := by
  have hself : routed { s with gate := Function.update s.gate fd none } fd =
      along fd s.queue ++ along fd s.entityIn := by
    simp [routed]
  have hother {fd' : Nat} (hfd : fd' ≠ fd) :
      routed { s with gate := Function.update s.gate fd none } fd' = s.routed fd' := by
    simp only [routed, Function.update_of_ne hfd]
  refine h.shrink { h.same with
    routed := fun fd' _ x hx => ?_
    lost := fun fd' _ x hx => ?_
    sent := fun _ hp fd' _ _ hg => ?_ }
  · by_cases hfd : fd' = fd
    · subst hfd
      rw [hself] at hx
      exact List.mem_append.mpr (.inl hx)
    · rwa [hother hfd] at hx
  · by_cases hfd : fd' = fd
    · subst hfd
      rw [hself]
      rcases List.mem_append.mp hx with hx | hx
      · exact .inl hx
      · rw [List.mem_ite_nil_right] at hx
        refine .inr (.inr fun y hy => ?_)
        exact (List.pairwise_append.mp (h.sorted fd')).2.2 y hy x hx.2
    · exact .inl (by rwa [hother hfd])
  · have hg : Function.update s.gate fd none fd' = some true := hg
    have hfd : fd' ≠ fd := by
      rintro rfl
      rw [Function.update_self] at hg
      cases hg
    rw [Function.update_of_ne hfd] at hg
    exact ⟨hp, hg, fun x hx => .inl (by rwa [hother hfd])⟩

theorem Inv.resumeRefused (h : s.Inv) (hb : s.binding.map Prod.fst ≠ some fd) :
    ({ s with resumes := Function.update s.resumes fd none } : Uplink).Inv := by
  refine h.shrink { h.same with
    resumes := fun fd' n hr => ?_
    binding := fun fd' b hbind => ?_
    sent := fun _ hp _ _ _ hg => ⟨hp, hg, fun _ hx => .inl hx⟩ }
  · by_cases hfd : fd' = fd
    · subst hfd
      cases (Function.update_self ..).symm.trans hr
    · exact (Function.update_of_ne hfd ..).symm.trans hr
  · have hfd : fd' ≠ fd := by
      rintro rfl
      exact hb (by rw [show s.binding = some (fd', b) from hbind]; rfl)
    exact (Function.update_of_ne hfd ..).trans (h.binding fd' b hbind)

theorem Inv.resumeStart (h : s.Inv) (hr : s.resumes fd = some s.ioNonce) (b : Option Bool) :
    ({ s with binding := some (fd, b) } : Uplink).Inv :=
  h.shrink { h.same with
    binding := by
      rintro _ _ ⟨⟩
      exact hr
    sent := fun _ hp _ _ _ hg => ⟨hp, hg, fun _ hx => .inl hx⟩ }

/-- The gate binds a connection the session has not moved to yet. -/
theorem Inv.gateBind (h : s.Inv) (hb : s.binding = some (fd, b)) :
    ({ s with
      binding := some (fd, some (s.gate fd).isSome)
      gate := Function.update s.gate fd ((s.gate fd).map fun _ => true) } : Uplink).Inv := by
  have hshown := h.binding fd b hb
  have hfd {fd' : Nat} (hl : s.live = some fd') : fd' ≠ fd :=
    Nat.ne_of_lt ((h.asked fd hshown).1 fd' hl)
  have hrouted {fd' : Nat} (hl : s.live = some fd') : routed { s with
      binding := some (fd, some (s.gate fd).isSome)
      gate := Function.update s.gate fd ((s.gate fd).map fun _ => true) } fd' = s.routed fd' := by
    simp only [routed, Function.update_of_ne (hfd hl)]
  refine h.shrink { h.same with
    binding := by
      rintro _ _ ⟨⟩
      exact hshown
    routed := fun fd' hl x hx => by rwa [hrouted hl] at hx
    lost := fun fd' hl x hx => .inl (by rwa [hrouted hl])
    sent := fun _ hp fd' _ hl hg => ?_ }
  have hg : Function.update s.gate fd ((s.gate fd).map fun _ => true) fd' = some true := hg
  rw [Function.update_of_ne (hfd hl)] at hg
  exact ⟨hp, hg, fun x hx => .inl (by rwa [hrouted hl])⟩

theorem Inv.unbind (h : s.Inv) : ({ s with live := none } : Uplink).Inv :=
  h.shrink { h.same with
    live := by rintro _ ⟨⟩
    queued := by rintro _ ⟨⟩
    routed := by rintro _ ⟨⟩
    lost := by rintro _ ⟨⟩
    sent := by rintro _ _ _ _ ⟨⟩ }

theorem Inv.finish (h : s.Inv) (hrun : s.running = some id) (cache : Bool) :
    ({ s with running := none, cached := if cache then s.cached ++ [id] else s.cached } :
      Uplink).Inv := by
  refine h.shrink { h.same with
    running := by rintro _ ⟨⟩
    cached := fun x hx => ?_ }
  have hx : x ∈ if cache then s.cached ++ [id] else s.cached := hx
  split at hx
  · rcases List.mem_append.mp hx with hx | hx
    · exact h.executed.2 x hx
    · exact List.mem_singleton.mp hx ▸ h.executed.1 id hrun
  · exact h.executed.2 x hx

theorem Inv.evict (h : s.Inv) {rest : List Nat} (hc : s.cached = id :: rest) :
    ({ s with cached := rest, minCached := max s.minCached (id + 1) } : Uplink).Inv :=
  h.shrink { h.same with
    cached := fun x hx => h.executed.2 x (hc ▸ List.mem_cons_of_mem _ hx)
    minCached := Nat.le_max_left ..
    lost := fun _ _ _ hx => .inl hx
    sent := fun _ hp _ _ _ hg => ⟨hp, hg, fun _ hx => .inl hx⟩ }

theorem along_move (fd' fd id : Nat) (l l' : List (Nat × Nat)) :
    along fd' (l ++ [(fd, id)]) ++ along fd' l' = along fd' l ++ along fd' ((fd, id) :: l') := by
  by_cases hfd : fd = fd'
  · subst hfd
    rw [along_append, along_cons_self, along_cons_self]
    simp
  · rw [along_append, along_cons_of_ne hfd, along_cons_of_ne hfd]
    simp

theorem along_tail (fd' : Nat) (m : Nat × Nat) (l : List (Nat × Nat)) :
    (along fd' l).Sublist (along fd' (m :: l)) :=
  (List.sublist_cons_self m l).filterMap _

theorem mem_along_cons {fd' x : Nat} {l : List (Nat × Nat)}
    (h : x ∈ along fd' ((fd, id) :: l)) : fd' = fd ∧ x = id ∨ x ∈ along fd' l := by
  by_cases hfd : fd = fd'
  · subst hfd
    rw [along_cons_self] at h
    exact (List.mem_cons.mp h).imp_left fun h => ⟨rfl, h⟩
  · rw [along_cons_of_ne hfd] at h
    exact .inr h

theorem Inv.receive (h : s.Inv) {rest : List (Nat × Nat)} (he : s.entityIn = (fd, id) :: rest) :
    ({ s with entityIn := rest }.receive fd id).Inv := by
  rw [Uplink.receive]
  split
  · next hok =>
    obtain ⟨hlive, _, hmin⟩ := hok
    have hstream (fd' : Nat) : stream { s with
        queue := s.queue ++ [(fd, id)], entityIn := rest } fd' = s.stream fd' := by
      rw [stream, stream, he]
      exact congrArg (· ++ s.up fd') (along_move fd' fd id s.queue rest)
    have hrouted (fd' : Nat) : routed { s with
        queue := s.queue ++ [(fd, id)], entityIn := rest } fd' = s.routed fd' := by
      rw [routed, routed, he]
      exact congrArg (· ++ if s.gate fd' = some true then s.up fd' else [])
        (along_move fd' fd id s.queue rest)
    refine h.shrink { h.same with
      stream := fun fd' => by rw [hstream]
      queued := fun fd' hl x hx => ?_
      routed := fun fd' _ x hx => by rwa [hrouted] at hx
      lost := fun fd' _ x hx => .inl (by rwa [hrouted])
      sent := fun _ hp fd' _ _ hg => ⟨hp, hg, fun x hx => .inl (by rwa [hrouted])⟩ }
    have hx : x ∈ along fd' (s.queue ++ [(fd, id)]) := hx
    rw [along_append] at hx
    rcases List.mem_append.mp hx with hx | hx
    · exact .inl hx
    · rcases mem_along_cons hx with ⟨rfl, rfl⟩ | hx
      · refine .inr ⟨?_, hmin⟩
        rw [stream, he, along_cons_self]
        simp
      · cases hx
  · next hok =>
    have hsub (fd' : Nat) : (along fd' rest).Sublist (along fd' s.entityIn) :=
      he ▸ along_tail fd' (fd, id) rest
    have hlost (fd' : Nat) (hl : s.live = some fd') (x : Nat) (hx : x ∈ s.routed fd') :
        x ∈ routed { s with entityIn := rest } fd' ∨ s.Settled x := by
      rw [routed, he] at hx
      rcases List.mem_append.mp hx with hx | hx
      · rcases List.mem_append.mp hx with hx | hx
        · exact .inl (List.mem_append.mpr (.inl (List.mem_append.mpr (.inl hx))))
        · rcases mem_along_cons hx with ⟨rfl, rfl⟩ | hx
          · refine .inr ?_
            by_contra hn
            obtain ⟨hns, hmin⟩ := not_or.mp hn
            exact hok ⟨hl, fun hc => hns (h.executed.2 x hc), Nat.not_lt.mp hmin⟩
          · exact .inl (List.mem_append.mpr (.inl (List.mem_append.mpr (.inr hx))))
      · exact .inl (List.mem_append.mpr (.inr hx))
    exact h.shrink { h.same with
      stream := fun fd' => ((hsub fd').append_left _).append_right _
      routed := fun fd' _ x hx => (((hsub fd').append_left _).append_right _).mem hx
      lost := fun fd' hl x hx => (hlost fd' hl x hx).imp_right .inl
      sent := fun _ hp fd' _ hl hg => ⟨hp, hg, hlost fd' hl⟩ }

theorem Inv.skip (h : s.Inv) {rest : List (Nat × Nat)} (hq : s.queue = (fd, id) :: rest)
    (hl : s.live ≠ some fd) : ({ s with queue := rest } : Uplink).Inv := by
  have hsub (fd' : Nat) : (along fd' rest).Sublist (along fd' s.queue) :=
    hq ▸ along_tail fd' (fd, id) rest
  have hsame (fd' : Nat) (hl' : s.live = some fd') :
      routed { s with queue := rest } fd' = s.routed fd' := by
    have hfd : fd ≠ fd' := fun he => hl (he ▸ hl')
    rw [routed, routed, hq, along_cons_of_ne hfd]
  exact h.shrink { h.same with
    stream := fun fd' => ((hsub fd').append_right _).append_right _
    queued := fun fd' _ x hx => .inl ((hsub fd').mem hx)
    routed := fun fd' hl' x hx => by rwa [hsame fd' hl'] at hx
    lost := fun fd' hl' x hx => .inl (by rwa [hsame fd' hl'])
    sent := fun _ hp fd' _ hl' hg => ⟨hp, hg, fun x hx => .inl (by rwa [hsame fd' hl'])⟩ }

theorem OrderedCalls.snoc {l : List Nat} (h : OrderedCalls l) (hid : id ∈ l ∨ ∀ y ∈ l, y < id) :
    OrderedCalls (l ++ [id]) := by
  intro a ha b hb hlt
  by_cases hb' : b ∈ l
  · have ha' : a ∈ l := by
      rcases List.mem_append.mp ha with ha | ha
      · exact ha
      · cases List.mem_singleton.mp ha
        exact hid.resolve_right fun hnew => absurd hlt (Nat.lt_asymm (hnew b hb'))
    rw [List.idxOf_append_of_mem ha', List.idxOf_append_of_mem hb']
    exact h a ha' b hb' hlt
  · have hbid : b = id := List.mem_singleton.mp ((List.mem_append.mp hb).resolve_left hb')
    have ha' : a ∈ l := by
      rcases List.mem_append.mp ha with ha | ha
      · exact ha
      · rw [List.mem_singleton.mp ha, hbid] at hlt
        exact absurd hlt (Nat.lt_irrefl _)
    rw [List.idxOf_append_of_mem ha', List.idxOf_append_of_notMem hb']
    exact Nat.lt_add_right _ (List.idxOf_lt_length_of_mem ha')

abbrev begun (s : Uplink) (id : Nat) (rest : List (Nat × Nat)) : Uplink :=
  { s with queue := rest, running := some id, started := s.started ++ [id] }

section begun

variable {rest : List (Nat × Nat)} {x y : Nat}

theorem mem_started_begun (hx : x ∈ (s.begun id rest).started) : x ∈ s.started ∨ x = id :=
  (List.mem_append.mp hx).imp_right List.mem_singleton.mp

theorem Settled.begun (hx : s.Settled x) : (s.begun id rest).Settled x :=
  hx.imp_left fun hx => List.mem_append.mpr (.inl hx)

theorem settled_begun_self : (s.begun id rest).Settled id :=
  .inl (List.mem_append.mpr (.inr List.mem_cons_self))

theorem stream_begun (hq : s.queue = (fd, id) :: rest) (fd' : Nat) :
    ((s.begun id rest).stream fd').Sublist (s.stream fd') := by
  have hsub := hq ▸ along_tail fd' (fd, id) rest
  exact (hsub.append_right _).append_right _

theorem stream_begun_self (hq : s.queue = (fd, id) :: rest) :
    s.stream fd = id :: (s.begun id rest).stream fd := by
  rw [stream, hq, along_cons_self]
  rfl

theorem routed_begun_self (hq : s.queue = (fd, id) :: rest) :
    s.routed fd = id :: (s.begun id rest).routed fd := by
  rw [routed, hq, along_cons_self]
  rfl

theorem Inv.begun_lt (h : s.Inv) (hq : s.queue = (fd, id) :: rest)
    (hx : x ∈ (s.begun id rest).stream fd) : id < x :=
  (List.pairwise_cons.mp (stream_begun_self hq ▸ h.sorted fd)).1 x hx

theorem mem_stream_head (hq : s.queue = (fd, id) :: rest) : id ∈ s.stream fd :=
  stream_begun_self hq ▸ List.mem_cons_self

theorem Inv.begun_arriving (h : s.Inv) (hq : s.queue = (fd, id) :: rest)
    (hx : x ∈ (s.begun id rest).stream fd) (hold : ∀ y ∈ s.started, y < x) :
    ∀ y ∈ (s.begun id rest).started, y < x := by
  intro y hy
  rcases mem_started_begun hy with hy | rfl
  · exact hold y hy
  · exact h.begun_lt hq hx

theorem Inv.begun_asked (h : s.Inv) (hq : s.queue = (fd, id) :: rest) (hl : s.live = some fd)
    {fd' : Nat} (hr : s.resumes fd' = some s.ioNonce) (hx : x ∈ (s.begun id rest).stream fd') :
    (∀ y ∈ (s.begun id rest).started, y < x) ∧
      ∀ fd'', s.live = some fd'' → ∀ y ∈ (s.begun id rest).stream fd'', y < x := by
  obtain ⟨hstarted, hahead⟩ := (h.asked fd' hr).2 x ((stream_begun hq fd').mem hx)
  refine ⟨fun y hy => ?_, fun fd'' hl' y hy => hahead fd'' hl' y ((stream_begun hq fd'').mem hy)⟩
  rcases mem_started_begun hy with hy | rfl
  · exact hstarted y hy
  · exact hahead fd hl y (mem_stream_head hq)

/-- What the client may send again and is older than the request comes before it, or never. -/
theorem Inv.begun_known (h : s.Inv) (hq : s.queue = (fd, id) :: rest) (hl : s.live = some fd)
    (hr : s.Resumable) (hx : x ∈ s.pending) (hy : y ∈ (s.begun id rest).started) (hlt : x < y) :
    (s.begun id rest).Settled x := by
  rcases mem_started_begun hy with hy | rfl
  · exact (h.known hr x hx y hy hlt).begun
  · have hy : y ∈ s.routed fd := routed_begun_self hq ▸ List.mem_cons_self
    rcases h.ahead hr fd hl y hy x hx hlt with hx | hx
    · exact hx.begun
    · rcases List.mem_cons.mp (stream_begun_self hq ▸ mem_stream_of_routed hx) with rfl | hx
      · exact absurd hlt (Nat.lt_irrefl _)
      · exact absurd hlt (Nat.lt_asymm (h.begun_lt hq hx))

theorem settled_or_routed_begun (hq : s.queue = (fd, id) :: rest)
    (hx : s.Settled x ∨ x ∈ s.routed fd) :
    (s.begun id rest).Settled x ∨ x ∈ (s.begun id rest).routed fd := by
  rcases hx with hx | hx
  · exact .inl hx.begun
  · rcases List.mem_cons.mp (routed_begun_self hq ▸ hx) with rfl | hx
    · exact .inl settled_begun_self
    · exact .inr hx

end begun

theorem Inv.start (h : s.Inv) {rest : List (Nat × Nat)} (hq : s.queue = (fd, id) :: rest)
    (hl : s.live = some fd) : (s.begun id rest).Inv := by
  have hfd {fd' : Nat} (hl' : s.live = some fd') : fd' = fd := Option.some.inj (hl'.symm.trans hl)
  have hid : id ∈ s.started ∨ ∀ y ∈ s.started, y < id :=
    h.queued fd hl id (by rw [hq, along_cons_self]; exact List.mem_cons_self)
  have hempty (fd' : Nat) (he : s.stream fd' = []) : (s.begun id rest).stream fd' = [] :=
    List.sublist_nil.mp (he ▸ stream_begun hq fd')
  constructor
  case ids =>
    refine ⟨fun fd' x hx => h.ids.1 fd' x ((stream_begun hq fd').mem hx), h.ids.2.1, fun x hx => ?_⟩
    rcases mem_started_begun hx with hx | rfl
    · exact h.ids.2.2 x hx
    · exact h.ids.1 fd x (mem_stream_head hq)
  case pending => exact h.pending
  case sorted => exact fun fd' => (h.sorted fd').sublist (stream_begun hq fd')
  case quiet => exact fun fd' hp => hempty fd' (h.quiet fd' hp)
  case unopened => exact fun fd' hfd' => (h.unopened fd' hfd').imp_left (hempty fd')
  case conn => exact h.conn
  case phase => exact h.phase
  case nonce => exact h.nonce
  case shown => exact h.shown
  case answered => exact h.answered
  case binding => exact h.binding
  case executed =>
    refine ⟨?_, fun x hx => List.mem_append.mpr (.inl (h.executed.2 x hx))⟩
    rintro _ ⟨⟩
    exact List.mem_append.mpr (.inr List.mem_cons_self)
  case queued =>
    intro fd' hl' x hx
    cases hfd hl'
    rcases h.queued fd hl x (hq ▸ (along_tail fd (fd, id) rest).mem hx) with hx' | hx'
    · exact .inl (List.mem_append.mpr (.inl hx'))
    · have hx : x ∈ (s.begun id rest).stream fd :=
        List.mem_append.mpr (.inl (List.mem_append.mpr (.inl hx)))
      exact .inr (h.begun_arriving hq hx hx')
  case arriving =>
    intro fd' hl' x hx
    cases hfd hl'
    exact (h.arriving fd hl x ((stream_begun hq fd).mem hx)).imp Settled.begun
      (h.begun_arriving hq hx)
  case asked => exact fun fd' hr => ⟨(h.asked fd' hr).1, fun _ hx => h.begun_asked hq hl hr hx⟩
  case behind => exact h.behind
  case known => exact fun hr x hx y hy hlt => h.begun_known hq hl hr hx hy hlt
  case ahead =>
    intro hr fd' hl' y hy x hx hlt
    cases hfd hl'
    have hy : y ∈ s.routed fd := routed_begun_self hq ▸ List.mem_cons_of_mem _ hy
    exact settled_or_routed_begun hq (h.ahead hr fd hl y hy x hx hlt)
  case sent =>
    intro hr hp fd' hc hl' hg x hx
    cases hfd hl'
    exact settled_or_routed_begun hq (h.sent hr hp fd hc hl hg x hx)
  case calls => exact h.calls.snoc hid

theorem write_stream (s : Uplink) (ids : List Nat) (fd : Nat) :
    stream { s with up := s.write ids } fd =
      if s.conn = some fd then s.stream fd ++ ids else s.stream fd := by
  split
  · next hc => simp only [stream, write_self hc, List.append_assoc]
  · next hc => simp only [stream, write_of_ne hc]

theorem write_routed (s : Uplink) (ids : List Nat) (fd : Nat) :
    routed { s with up := s.write ids } fd =
      if s.conn = some fd ∧ s.gate fd = some true then s.routed fd ++ ids else s.routed fd := by
  by_cases hc : s.conn = some fd
  · by_cases hg : s.gate fd = some true
    · simp only [routed, write_self hc, hc, hg, if_true, and_self, List.append_assoc]
    · simp only [routed, hg, if_false, and_false]
  · simp only [routed, write_of_ne hc, hc, false_and, if_false]

/-- The client writes to a connection that is newer than every one that may still take the
session over, and so than the one the session has. -/
theorem Inv.conn_not_live (h : s.Inv) (hr : s.resumes fd = some s.ioNonce) {fd' : Nat}
    (hc : s.conn = some fd') : s.live ≠ some fd' := by
  intro hl
  have hlt := (h.asked fd hr).1 fd' hl
  have hopened := h.conn fd' hc
  have hunopened : ¬ s.opened ≤ fd := fun hle => by
    rw [(h.unopened fd hle).2.1] at hr
    cases hr
  omega

theorem pairwise_snoc {n : Nat} {l : List Nat} (h : l.Pairwise (· < ·)) (hle : ∀ x ∈ l, x ≤ n) :
    (l ++ [n + 1]).Pairwise (· < ·) := by
  refine List.pairwise_append.mpr ⟨h, List.pairwise_singleton .., fun x hx y hy => ?_⟩
  rw [List.mem_singleton.mp hy]
  exact Nat.lt_succ_of_le (hle x hx)

abbrev called (s : Uplink) : Uplink :=
  { s with
    nextReqId := s.nextReqId + 1
    pending := s.pending ++ [s.nextReqId + 1]
    up := s.write [s.nextReqId + 1] }

theorem stream_called (s : Uplink) (fd : Nat) : s.called.stream fd =
    if s.conn = some fd then s.stream fd ++ [s.nextReqId + 1] else s.stream fd :=
  s.write_stream [s.nextReqId + 1] fd

theorem routed_called (s : Uplink) (fd : Nat) : s.called.routed fd =
    if s.conn = some fd ∧ s.gate fd = some true then s.routed fd ++ [s.nextReqId + 1]
    else s.routed fd :=
  s.write_routed [s.nextReqId + 1] fd

theorem mem_stream_called {x : Nat} (hx : x ∈ s.called.stream fd) :
    x ∈ s.stream fd ∨ s.conn = some fd ∧ x = s.nextReqId + 1 := by
  rw [stream_called] at hx
  split at hx
  · next hc => exact (List.mem_append.mp hx).imp_right fun hx => ⟨hc, List.mem_singleton.mp hx⟩
  · exact .inl hx

theorem mem_pending_called {x : Nat} (hx : x ∈ s.called.pending) :
    x ∈ s.pending ∨ x = s.nextReqId + 1 :=
  (List.mem_append.mp hx).imp_right List.mem_singleton.mp

theorem Inv.called_ids (h : s.Inv) : (∀ fd, ∀ x ∈ s.called.stream fd, x ≤ s.nextReqId + 1) ∧
    (∀ x ∈ s.called.pending, x ≤ s.nextReqId + 1) ∧ ∀ x ∈ s.started, x ≤ s.nextReqId + 1 := by
  refine ⟨fun fd x hx => ?_, fun x hx => ?_, fun x hx => Nat.le_succ_of_le (h.ids.2.2 x hx)⟩
  · rcases mem_stream_called hx with hx | ⟨_, rfl⟩
    · exact Nat.le_succ_of_le (h.ids.1 fd x hx)
    · exact Nat.le_refl _
  · rcases mem_pending_called hx with hx | rfl
    · exact Nat.le_succ_of_le (h.ids.2.1 x hx)
    · exact Nat.le_refl _

theorem Inv.called_unopened (h : s.Inv) (hfd : s.opened ≤ fd) : s.called.stream fd = [] := by
  rw [stream_called, if_neg, (h.unopened fd hfd).1]
  intro hc
  have hopened := h.conn fd hc
  omega

/-- The new request is newer than everything started, and than what is under way on the
connection the session has. -/
theorem Inv.called_asked (h : s.Inv) (hr : s.resumes fd = some s.ioNonce) {x : Nat}
    (hx : x ∈ s.called.stream fd) : (∀ y ∈ s.started, y < x) ∧
      ∀ fd', s.live = some fd' → ∀ y ∈ s.called.stream fd', y < x := by
  have hon := (h.asked fd hr).2
  have hlive {fd' y : Nat} (hl : s.live = some fd') (hy : y ∈ s.called.stream fd') :
      y ∈ s.stream fd' := by
    refine (mem_stream_called hy).resolve_right ?_
    rintro ⟨hc, _⟩
    exact h.conn_not_live hr hc hl
  rcases mem_stream_called hx with hx | ⟨_, rfl⟩
  · exact ⟨(hon x hx).1, fun fd' hl y hy => (hon x hx).2 fd' hl y (hlive hl hy)⟩
  · exact ⟨fun y hy => Nat.lt_succ_of_le (h.ids.2.2 y hy),
      fun fd' hl y hy => Nat.lt_succ_of_le (h.ids.1 fd' y (hlive hl hy))⟩

theorem Inv.called_sent (h : s.Inv) (hp : s.phase.isResuming = false) (hr : s.Resumable)
    (hc : s.conn = some fd) (hl : s.live = some fd) (hg : s.gate fd = some true) {x : Nat}
    (hx : x ∈ s.called.pending) : s.Settled x ∨ x ∈ s.called.routed fd := by
  rw [routed_called, if_pos ⟨hc, hg⟩]
  rcases mem_pending_called hx with hx | rfl
  · exact (h.sent hr hp fd hc hl hg x hx).imp_right fun hx => List.mem_append.mpr (.inl hx)
  · exact .inr (List.mem_append.mpr (.inr List.mem_cons_self))

theorem Inv.called_ahead (h : s.Inv) (hp : s.phase.isResuming = false) (hr : s.Resumable)
    (hl : s.live = some fd) {x y : Nat} (hy : y ∈ s.called.routed fd) (hx : x ∈ s.called.pending)
    (hlt : x < y) : s.Settled x ∨ x ∈ s.called.routed fd := by
  by_cases hc : s.conn = some fd ∧ s.gate fd = some true
  · exact h.called_sent hp hr hc.1 hl hc.2 hx
  · rw [routed_called, if_neg hc] at hy ⊢
    rcases mem_pending_called hx with hx | rfl
    · exact h.ahead hr fd hl y hy x hx hlt
    · have hle := h.ids.1 fd y (mem_stream_of_routed hy)
      exact absurd hlt (Nat.not_lt.mpr (Nat.le_succ_of_le hle))

theorem Inv.call (h : s.Inv) (hp : s.phase.isResuming = false) : s.called.Inv where
  ids := h.called_ids
  pending := pairwise_snoc h.pending h.ids.2.1
  sorted fd := by
    rw [stream_called]
    split
    · exact pairwise_snoc (h.sorted fd) (h.ids.1 fd)
    · exact h.sorted fd
  quiet fd hp' := by
    rw [show s.phase = .resuming fd from hp'] at hp
    cases hp
  unopened fd hfd := ⟨h.called_unopened hfd, (h.unopened fd hfd).2⟩
  conn := h.conn
  phase := h.phase
  nonce := h.nonce
  shown := h.shown
  answered := h.answered
  binding := h.binding
  executed := h.executed
  queued := h.queued
  arriving fd hl x hx := by
    rcases mem_stream_called hx with hx | ⟨_, rfl⟩
    · exact h.arriving fd hl x hx
    · exact .inr fun y hy => Nat.lt_succ_of_le (h.ids.2.2 y hy)
  asked fd hr := ⟨(h.asked fd hr).1, fun _ hx => h.called_asked hr hx⟩
  behind := h.behind
  known hr x hx y hy hlt := by
    rcases mem_pending_called hx with hx | rfl
    · exact h.known hr x hx y hy hlt
    · exact absurd hlt (Nat.not_lt.mpr (Nat.le_succ_of_le (h.ids.2.2 y hy)))
  ahead hr _ hl _ hy _ hx hlt := h.called_ahead hp hr hl hy hx hlt
  sent hr hp _ hc hl hg _ hx := h.called_sent hp hr hc hl hg hx
  calls := h.calls

abbrev resent (s : Uplink) (order : List Nat) (nonce : Nat) : Uplink :=
  { s with nonce := some nonce, phase := .idle, up := s.write order }

section resent

variable {order : List Nat} {nonce x y : Nat}

theorem stream_resent (s : Uplink) (order : List Nat) (nonce fd : Nat) :
    (s.resent order nonce).stream fd =
      if s.conn = some fd then s.stream fd ++ order else s.stream fd :=
  s.write_stream order fd

theorem routed_resent (s : Uplink) (order : List Nat) (nonce fd : Nat) :
    (s.resent order nonce).routed fd =
      if s.conn = some fd ∧ s.gate fd = some true then s.routed fd ++ order else s.routed fd :=
  s.write_routed order fd

theorem mem_stream_resent (horder : order.Perm s.pending)
    (hx : x ∈ (s.resent order nonce).stream fd) :
    x ∈ s.stream fd ∨ s.conn = some fd ∧ x ∈ s.pending := by
  rw [stream_resent] at hx
  split at hx
  · next hc => exact (List.mem_append.mp hx).imp_right fun hx => ⟨hc, horder.mem_iff.mp hx⟩
  · exact .inl hx

/-- The client resumes over the connection it writes to. -/
theorem Inv.conn_eq (h : s.Inv) (hp : s.phase = .resuming fd) {fd' : Nat}
    (hc : s.conn = some fd') : fd' = fd := by
  have hphase := h.phase fd (by rw [hp]; rfl)
  have hopened := h.conn fd' hc
  omega

theorem Resumable.of_resent (hp : s.phase = .resuming fd) (ha : s.answers fd = some nonce)
    (hr : (s.resent order nonce).Resumable) : s.Resumable := by
  rcases hr with hr | ⟨fd', hp', _⟩
  · exact .inr ⟨fd, hp, .inr (Option.some.inj hr ▸ ha)⟩
  · cases hp'

theorem Inv.resent_unopened (h : s.Inv) (hfd : s.opened ≤ fd) :
    (s.resent order nonce).stream fd = [] := by
  rw [stream_resent, if_neg, (h.unopened fd hfd).1]
  intro hc
  have hopened := h.conn fd hc
  omega

/-- What is sent again over the connection the session has moved to has been started, or all that
has been started is older. -/
theorem Inv.resent_arriving (h : s.Inv) (hr : s.Resumable) (hx : x ∈ s.pending) :
    s.Settled x ∨ ∀ y ∈ s.started, y < x := by
  by_cases hn : ∃ y ∈ s.started, x < y
  · obtain ⟨y, hy, hlt⟩ := hn
    exact .inl (h.known hr x hx y hy hlt)
  · by_cases hs : x ∈ s.started
    · exact .inl (.inl hs)
    · refine .inr fun y hy => Nat.lt_of_le_of_ne ?_ fun he => hs (he ▸ hy)
      exact Nat.not_lt.mp fun hlt => hn ⟨y, hy, hlt⟩

/-- A connection that may still take the session over is not the one the client writes to. -/
theorem Inv.resent_asked (h : s.Inv) (hp : s.phase = .resuming fd)
    (ha : s.answers fd = some nonce) (horder : order.Perm s.pending) {fd' : Nat}
    (hr : s.resumes fd' = some s.ioNonce) (hx : x ∈ (s.resent order nonce).stream fd') :
    (∀ y ∈ s.started, y < x) ∧
      ∀ fd'', s.live = some fd'' → ∀ y ∈ (s.resent order nonce).stream fd'', y < x := by
  have hne : fd' ≠ fd := by
    rintro rfl
    cases (h.answered fd' nonce ha).2.1.symm.trans hr
  have hx := (mem_stream_resent horder hx).resolve_right fun hx => hne (h.conn_eq hp hx.1)
  obtain ⟨hstarted, hahead⟩ := (h.asked fd' hr).2 x hx
  refine ⟨hstarted, fun fd'' hl y hy => hahead fd'' hl y ?_⟩
  refine (mem_stream_resent horder hy).resolve_right ?_
  rintro ⟨hc, _⟩
  exact h.conn_not_live hr hc hl

theorem mem_routed_resent (horder : order.Perm s.pending) (hc : s.conn = some fd)
    (hg : s.gate fd = some true) (hx : x ∈ s.pending) : x ∈ (s.resent order nonce).routed fd := by
  rw [routed_resent, if_pos ⟨hc, hg⟩]
  exact List.mem_append.mpr (.inr (horder.mem_iff.mpr hx))

theorem Inv.resent_ahead (h : s.Inv) (hr : s.Resumable) (horder : order.Perm s.pending)
    (hl : s.live = some fd) (hy : y ∈ (s.resent order nonce).routed fd) (hx : x ∈ s.pending)
    (hlt : x < y) : s.Settled x ∨ x ∈ (s.resent order nonce).routed fd := by
  by_cases hc : s.conn = some fd ∧ s.gate fd = some true
  · exact .inr (mem_routed_resent horder hc.1 hc.2 hx)
  · rw [routed_resent, if_neg hc] at hy ⊢
    exact h.ahead hr fd hl y hy x hx hlt

end resent

theorem Inv.resumed (h : s.Inv) {order : List Nat} {nonce : Nat} (hp : s.phase = .resuming fd)
    (ha : s.answers fd = some nonce) (horder : order.Perm s.pending)
    (hsorted : order.Pairwise (· < ·)) : (s.resent order nonce).Inv := by
  obtain ⟨hle, _, hlive⟩ := h.answered fd nonce ha
  constructor
  case ids =>
    refine ⟨fun fd' x hx => ?_, h.ids.2⟩
    rcases mem_stream_resent horder hx with hx | ⟨_, hx⟩
    · exact h.ids.1 fd' x hx
    · exact h.ids.2.1 x hx
  case pending => exact h.pending
  case sorted =>
    intro fd'
    rw [stream_resent]
    split
    · next hc =>
      rw [h.conn_eq hp hc, h.quiet fd hp, List.nil_append]
      exact hsorted
    · exact h.sorted fd'
  case quiet => rintro _ ⟨⟩
  case unopened => exact fun fd' hfd => ⟨h.resent_unopened hfd, (h.unopened fd' hfd).2⟩
  case conn => exact h.conn
  case phase => rintro _ ⟨⟩
  case nonce =>
    rintro _ ⟨⟩
    exact hle
  case shown => exact h.shown
  case answered => exact h.answered
  case binding => exact h.binding
  case executed => exact h.executed
  case queued => exact h.queued
  case arriving =>
    intro fd' hl x hx
    rcases mem_stream_resent horder hx with hx | ⟨hc, hpending⟩
    · exact h.arriving fd' hl x hx
    · cases h.conn_eq hp hc
      exact h.resent_arriving (.inr ⟨fd, hp, .inr (hlive hl ▸ ha)⟩) hpending
  case asked =>
    exact fun fd' hr => ⟨(h.asked fd' hr).1, fun _ hx => h.resent_asked hp ha horder hr hx⟩
  case behind => rintro _ _ ⟨⟩
  case known => exact fun hr => h.known (hr.of_resent hp ha)
  case ahead =>
    exact fun hr _ hl _ hy _ hx hlt => h.resent_ahead (hr.of_resent hp ha) horder hl hy hx hlt
  case sent => exact fun _ _ _ hc _ hg _ hx => .inr (mem_routed_resent horder hc hg hx)
  case calls => exact h.calls

theorem Inv.connect (h : s.Inv) {ids : Nat} {phase : UplinkPhase} {resumes : Nat → Option Nat}
    (hids : s.nextReqId ≤ ids) (hphase : phase.fd = some s.opened)
    (hother : ∀ fd, fd ≠ s.opened → resumes fd = s.resumes fd)
    (hself : ∀ n, resumes s.opened = some n → s.nonce = some n) :
    ({ s with
      opened := s.opened + 1, conn := some s.opened, gate := Function.update s.gate s.opened
        (some false), phase := phase, resumes := resumes, nextReqId := ids } : Uplink).Inv := by
  obtain ⟨hempty, hresumes, hanswers, hlive⟩ := h.unopened s.opened (Nat.le_refl _)
  have hbehind {fd : Nat} (hl : s.live = some fd) : fd < s.opened := by
    by_contra hle
    exact (h.unopened fd (Nat.not_lt.mp hle)).2.2.2 hl
  have hresuming {fd : Nat} (hp : phase = .resuming fd) : fd = s.opened := by
    rw [hp] at hphase
    exact Option.some.inj hphase
  have hback (hr : Resumable { s with
      opened := s.opened + 1, conn := some s.opened, gate := Function.update s.gate s.opened
        (some false), phase := phase, resumes := resumes, nextReqId := ids }) : s.Resumable := by
    rcases hr with hn | ⟨fd, hp, hr | ha⟩
    · exact .inl hn
    · cases hresuming hp
      exact .inl (hself _ hr)
    · cases hresuming hp
      cases hanswers.symm.trans ha
  have hrouted {fd : Nat} (hl : s.live = some fd) : routed { s with
      opened := s.opened + 1, conn := some s.opened, gate := Function.update s.gate s.opened
        (some false), phase := phase, resumes := resumes, nextReqId := ids } fd = s.routed fd := by
    simp only [routed, Function.update_of_ne (Nat.ne_of_lt (hbehind hl))]
  constructor
  case ids =>
    exact ⟨fun fd x hx => Nat.le_trans (h.ids.1 fd x hx) hids,
      fun x hx => Nat.le_trans (h.ids.2.1 x hx) hids,
      fun x hx => Nat.le_trans (h.ids.2.2 x hx) hids⟩
  case pending => exact h.pending
  case sorted => exact h.sorted
  case quiet =>
    intro fd hp
    rw [hresuming hp]
    exact hempty
  case unopened =>
    intro fd hfd
    obtain ⟨hstream, hr, hrest⟩ := h.unopened fd (Nat.le_of_succ_le hfd)
    exact ⟨hstream, (hother fd (Nat.ne_of_gt hfd)).trans hr, hrest⟩
  case conn =>
    rintro _ ⟨⟩
    rfl
  case phase =>
    intro fd hfd
    rw [Option.some.inj (hfd.symm.trans hphase)]
  case nonce => exact h.nonce
  case shown =>
    intro fd n hr
    by_cases hfd : fd = s.opened
    · exact h.nonce n (hself n (hfd ▸ hr))
    · exact h.shown fd n ((hother fd hfd).symm.trans hr)
  case answered =>
    intro fd n ha
    obtain ⟨hle, hr, hl⟩ := h.answered fd n ha
    have hfd : fd ≠ s.opened := by
      rintro rfl
      cases hanswers.symm.trans ha
    exact ⟨hle, (hother fd hfd).trans hr, hl⟩
  case binding =>
    intro fd b hb
    have hr := h.binding fd b hb
    have hfd : fd ≠ s.opened := by
      rintro rfl
      cases hresumes.symm.trans hr
    exact (hother fd hfd).trans hr
  case executed => exact h.executed
  case queued => exact h.queued
  case arriving => exact h.arriving
  case asked =>
    intro fd hr
    by_cases hfd : fd = s.opened
    · subst hfd
      refine ⟨fun fd' hl => hbehind hl, fun x hx => ?_⟩
      cases hempty ▸ hx
    · exact h.asked fd ((hother fd hfd).symm.trans hr)
  case behind =>
    intro _ fd hfd fd' hl
    rw [Option.some.inj (hfd.symm.trans hphase)]
    exact hbehind hl
  case known => exact fun hr => h.known (hback hr)
  case ahead =>
    intro hr fd hl
    rw [hrouted hl]
    exact h.ahead (hback hr) fd hl
  case sent =>
    rintro _ _ _ ⟨⟩ hl
    exact absurd hl hlive
  case calls => exact h.calls

theorem Inv.establish (h : s.Inv) : s.establish.Inv := by
  cases hn : s.nonce with
  | none =>
    have hphase : (UplinkPhase.login s.opened).fd = some s.opened := rfl
    have hself (n : Nat) (hr : s.resumes s.opened = some n) : s.nonce = some n := by
      cases (h.unopened s.opened (Nat.le_refl _)).2.1.symm.trans hr
    have ht := h.connect (Nat.le_refl _) hphase (fun _ _ => rfl) hself
    simpa only [Uplink.establish, hn] using ht
  | some nonce =>
    have hphase : (UplinkPhase.resuming s.opened).fd = some s.opened := rfl
    have hother (fd : Nat) (hfd : fd ≠ s.opened) :
        Function.update s.resumes s.opened (some nonce) fd = s.resumes fd :=
      Function.update_of_ne hfd ..
    have hself (n : Nat)
        (hr : Function.update s.resumes s.opened (some nonce) s.opened = some n) :
        s.nonce = some n := by
      rw [hn, ← hr, Function.update_self]
    have ht := h.connect (Nat.le_succ _) hphase hother hself
    simpa only [Uplink.establish, hn] using ht

/-- The login answers: it is the first the client hears of the session. -/
theorem Inv.loggedIn (h : s.Inv) :
    ({ s with nonce := some 0, phase := .idle, pending := [] } : Uplink).Inv := by
  constructor
  case ids => exact ⟨h.ids.1, by rintro _ ⟨⟩, h.ids.2.2⟩
  case pending => exact .nil
  case sorted => exact h.sorted
  case quiet => rintro _ ⟨⟩
  case unopened => exact h.unopened
  case conn => exact h.conn
  case phase => rintro _ ⟨⟩
  case nonce =>
    rintro _ ⟨⟩
    exact Nat.zero_le _
  case shown => exact h.shown
  case answered => exact h.answered
  case binding => exact h.binding
  case executed => exact h.executed
  case queued => exact h.queued
  case arriving => exact h.arriving
  case asked => exact h.asked
  case behind => rintro _ _ ⟨⟩
  case known => rintro _ _ ⟨⟩
  case ahead => rintro _ _ _ _ _ _ ⟨⟩
  case sent => rintro _ _ _ _ _ _ _ ⟨⟩
  case calls => exact h.calls

/-- The session moves to a connection that nothing has gone into that may have been started. -/
theorem Inv.resumeEnd (h : s.Inv) {bound : Bool} (hb : s.binding = some (fd, some bound)) :
    (s.resumeEnd fd bound).Inv := by
  have hshown := h.binding fd _ hb
  cases bound with
  | false =>
    refine h.shrink { h.same with
      resumes := fun fd' n hr => ?_
      binding := by rintro _ _ ⟨⟩
      sent := fun _ hp _ _ _ hg => ⟨hp, hg, fun _ hx => .inl hx⟩ }
    by_cases hfd : fd' = fd
    · subst hfd
      cases (Function.update_self ..).symm.trans hr
    · exact (Function.update_of_ne hfd ..).symm.trans hr
  | true =>
    obtain ⟨_, hon⟩ := h.asked fd hshown
    have hresumes {fd' n : Nat} (hr : Function.update s.resumes fd none fd' = some n) :
        fd' ≠ fd ∧ s.resumes fd' = some n := by
      have hfd : fd' ≠ fd := by
        rintro rfl
        cases (Function.update_self ..).symm.trans hr
      exact ⟨hfd, (Function.update_of_ne hfd ..).symm.trans hr⟩
    have hstale {fd' : Nat} : Function.update s.resumes fd none fd' ≠ some (s.ioNonce + 1) := by
      intro hr
      exact absurd (h.shown fd' _ (hresumes hr).2) (Nat.not_succ_le_self _)
    have hresuming (hr : (s.resumeEnd fd true).Resumable) : s.phase = .resuming fd := by
      rcases hr with hn | ⟨fd', hp, hr | ha⟩
      · exact absurd (h.nonce _ hn) (Nat.not_succ_le_self _)
      · exact absurd hr hstale
      · by_cases hfd : fd' = fd
        · exact hfd ▸ hp
        · have ha' : s.answers fd' = some (s.ioNonce + 1) :=
            (Function.update_of_ne hfd ..).symm.trans ha
          exact absurd (h.answered fd' _ ha').1 (Nat.not_succ_le_self _)
    constructor
    case ids => exact h.ids
    case pending => exact h.pending
    case sorted => exact h.sorted
    case quiet => exact h.quiet
    case unopened =>
      intro fd' hfd'
      obtain ⟨hempty, hr, ha, _⟩ := h.unopened fd' hfd'
      have hfd : fd' ≠ fd := by
        rintro rfl
        cases hr.symm.trans hshown
      exact ⟨hempty, (Function.update_of_ne hfd ..).trans hr,
        (Function.update_of_ne hfd ..).trans ha, fun hl => hfd (Option.some.inj hl).symm⟩
    case conn => exact h.conn
    case phase => exact h.phase
    case nonce => exact fun n hn => Nat.le_succ_of_le (h.nonce n hn)
    case shown => exact fun fd' n hr => Nat.le_succ_of_le (h.shown fd' n (hresumes hr).2)
    case answered =>
      intro fd' n ha
      by_cases hfd : fd' = fd
      · subst hfd
        cases (Function.update_self ..).symm.trans ha
        exact ⟨Nat.le_refl _, Function.update_self .., fun _ => rfl⟩
      · have ha : s.answers fd' = some n := (Function.update_of_ne hfd ..).symm.trans ha
        obtain ⟨hle, hr, _⟩ := h.answered fd' n ha
        exact ⟨Nat.le_succ_of_le hle, (Function.update_of_ne hfd ..).trans hr,
          fun hl => absurd (Option.some.inj hl).symm hfd⟩
    case binding => rintro _ _ ⟨⟩
    case executed => exact h.executed
    case queued =>
      rintro _ ⟨⟩ x hx
      exact .inr (hon x (List.mem_append_left _ (List.mem_append_left _ hx))).1
    case arriving =>
      rintro _ ⟨⟩ x hx
      exact .inr (hon x hx).1
    case asked => exact fun fd' hr => absurd hr hstale
    case behind => exact fun hn => absurd (h.nonce _ hn) (Nat.not_succ_le_self _)
    case known =>
      intro hr
      exact h.known (.inr ⟨fd, hresuming hr, .inl hshown⟩)
    case ahead =>
      rintro hr _ ⟨⟩ y hy
      have hy : y ∈ s.stream fd := mem_stream_of_routed hy
      rw [h.quiet fd (hresuming hr)] at hy
      cases hy
    case sent =>
      intro hr hp
      rw [show (s.resumeEnd fd true).phase = .resuming fd from hresuming hr] at hp
      cases hp
    case calls => exact h.calls

theorem Inv.initial (hs : s.Initial) : s.Inv := by
  have hnone (hr : s.Resumable) : False := by
    rcases hr with hn | ⟨fd, hp, _⟩
    · cases hs.nonce.symm.trans hn
    · cases hs.phase.symm.trans hp
  have hstream {P : List Nat → Prop} (h0 : P (s.stream 0)) (hnil : P []) (fd : Nat) :
      P (s.stream fd) := by
    by_cases hfd : fd = 0
    · exact hfd ▸ h0
    · exact (hs.other fd hfd).symm ▸ hnil
  have hstarted {P : Nat → Prop} : ∀ y ∈ s.started, P y := by
    rw [hs.started]
    rintro _ ⟨⟩
  constructor
  case ids =>
    exact ⟨hstream (P := fun l => ∀ x ∈ l, x ≤ s.nextReqId) hs.stream.2 (by rintro _ ⟨⟩),
      hs.pending.2, hstarted⟩
  case pending => exact hs.pending.1
  case sorted => exact hstream hs.stream.1 .nil
  case quiet =>
    intro fd hp
    cases hs.phase.symm.trans hp
  case unopened =>
    intro fd hfd
    rw [hs.opened] at hfd
    have hfd : fd ≠ 0 := Nat.ne_of_gt hfd
    refine ⟨hs.other fd hfd, hs.resumes fd, hs.answers fd, fun hl => hfd ?_⟩
    exact Option.some.inj (hl.symm.trans hs.live)
  case conn =>
    intro fd hc
    rw [hs.opened, Option.some.inj (hc.symm.trans hs.conn)]
  case phase =>
    intro fd hp
    rw [hs.phase] at hp
    cases hp
    exact hs.opened.symm
  case nonce =>
    intro n hn
    cases hs.nonce.symm.trans hn
  case shown =>
    intro fd n hr
    cases (hs.resumes fd).symm.trans hr
  case answered =>
    intro fd n ha
    cases (hs.answers fd).symm.trans ha
  case binding =>
    intro fd b hb
    cases hs.binding.symm.trans hb
  case executed =>
    refine ⟨fun id hr => ?_, fun id hc => ?_⟩
    · cases hs.running.symm.trans hr
    · rw [hs.cached] at hc
      cases hc
  case queued =>
    intro fd _ x hx
    rw [hs.queue] at hx
    cases hx
  case arriving => exact fun fd _ x _ => .inr hstarted
  case asked =>
    intro fd hr
    cases (hs.resumes fd).symm.trans hr
  case behind =>
    intro hn
    cases hs.nonce.symm.trans hn
  case known => exact fun hr => (hnone hr).elim
  case ahead => exact fun hr => (hnone hr).elim
  case sent => exact fun hr => (hnone hr).elim
  case calls =>
    rw [hs.started]
    rintro _ ⟨⟩

theorem Inv.step (h : s.Inv) {a : UplinkAction} (hok : s.InOrder a)
    (ht : step s a = some t) : t.Inv := by
  cases a with
  | call =>
    cases ht
    exact h.call hok
  | takeId =>
    cases ht
    exact h.client _ (Nat.le_succ _) (List.Sublist.refl _) (fun _ hc => hc) fun _ hn => hn
  | answer id =>
    cases ht
    exact h.client _ (Nat.le_refl _) List.filter_sublist (fun _ hc => hc) fun _ hn => hn
  | drop =>
    cases ht
    exact h.client _ (Nat.le_refl _) (List.Sublist.refl _) (by rintro _ ⟨⟩) fun _ hn => hn
  | desync =>
    cases ht
    exact h.client _ (Nat.le_refl _) (List.Sublist.refl _) (by rintro _ ⟨⟩) (by rintro _ ⟨⟩)
  | connect =>
    obtain ⟨_, ⟨⟩⟩ := Option.ite_none_right_eq_some.mp ht
    exact h.establish
  | resumed order =>
    simp only [Uplink.step] at ht
    split at ht
    · next fd hp =>
      split at ht
      · next nonce ha =>
        obtain ⟨horder, ⟨⟩⟩ := Option.ite_none_right_eq_some.mp ht
        exact h.resumed hp ha horder hok
      · cases ht
    · cases ht
  | resumeFailed =>
    simp only [Uplink.step] at ht
    split at ht
    · next fd hp =>
      cases ht
      exact h.resumeFailed hp
    · cases ht
  | loginFailed =>
    simp only [Uplink.step] at ht
    split at ht
    · cases ht
      exact h.loginFailed
    · cases ht
  | loggedIn =>
    obtain ⟨_, ⟨⟩⟩ := Option.ite_none_right_eq_some.mp ht
    exact h.loggedIn
  | gateRecv fd =>
    simp only [Uplink.step] at ht
    split at ht
    · cases ht
    · next id rest hup =>
      cases ht
      exact h.gateRecv hup
  | close fd =>
    cases ht
    exact h.close fd
  | resumeRefused fd =>
    obtain ⟨hb, ⟨⟩⟩ := Option.ite_none_left_eq_some.mp ht
    exact h.resumeRefused hb
  | resumeStart fd =>
    obtain ⟨hr, ⟨⟩⟩ := Option.ite_none_right_eq_some.mp ht
    exact h.resumeStart hr.2.2 none
  | gateBind =>
    simp only [Uplink.step] at ht
    split at ht
    · next fd hb =>
      cases ht
      exact h.gateBind hb
    · cases ht
  | resumeEnd =>
    simp only [Uplink.step] at ht
    split at ht
    · next fd bound hb =>
      cases ht
      exact h.resumeEnd hb
    · cases ht
  | unbind fd =>
    cases ht
    split
    · exact h.unbind
    · exact h
  | entityRecv =>
    simp only [Uplink.step] at ht
    split at ht
    · cases ht
    · next fd id rest he =>
      cases ht
      exact h.receive he
  | start =>
    simp only [Uplink.step] at ht
    split at ht
    · next fd id rest _ _ hq =>
      cases ht
      rw [startRequest]
      split
      · next hl => exact h.start hq hl
      · next hl => exact h.skip hq hl
    · cases ht
  | finish cache =>
    obtain ⟨id, hrun, rfl⟩ := Option.map_eq_some_iff.mp ht
    exact h.finish hrun cache
  | evict =>
    simp only [Uplink.step] at ht
    split at ht
    · cases ht
    · next id rest hc =>
      cases ht
      exact h.evict hc

theorem Inv.of_reaches (h : system.Reaches InOrder s) : s.Inv :=
  h.invariant (fun _ hs => .initial hs) fun _ _ _ hinv hok ht => hinv.step hok ht

/-- A session right after its login, as the gate, the entity and the client have it. -/
def fresh : Uplink where
  conn := some 0
  phase := .login 0
  nonce := none
  nextReqId := 1
  pending := []
  opened := 1
  gate := fun fd => if fd = 0 then some true else none
  up := fun _ => []
  resumes := fun _ => none
  answers := fun _ => none
  binding := none
  live := some 0
  ioNonce := 0
  entityIn := []
  queue := []
  running := none
  cached := []
  minCached := 0
  started := []

theorem fresh_initial : fresh.Initial := by
  constructor <;> first | rfl | exact fun _ => rfl | exact fun _ _ => rfl | skip
  · exact ⟨.nil, by rintro _ ⟨⟩⟩
  · exact ⟨.nil, by rintro _ ⟨⟩⟩

/-- Two requests are lost with their connection, which a resume replaces. -/
def lostRequests : List UplinkAction :=
  [.loggedIn, .call, .call, .close 0, .drop, .unbind 0, .connect, .resumeStart 1, .gateBind,
    .resumeEnd]

def startBoth : List UplinkAction :=
  [.gateRecv 1, .gateRecv 1, .entityRecv, .entityRecv, .start, .finish true, .start]

/-- Handlers are started in the order the application issued the requests. -/
theorem handlers_in_order (h : system.Reaches InOrder s) : OrderedCalls s.started :=
  (Inv.of_reaches h).calls

theorem lost_requests_in_order : OrderedCalls
    (system.run InOrder fresh (lostRequests ++ [.resumed [2, 3]] ++ startBoth)
      (by decide +kernel)).started :=
  handlers_in_order (system.run_reaches InOrder _ fresh_initial (by decide +kernel))

/-- A table is gone through in no particular order. -/
theorem lost_requests_reordered : ∃ s, system.Reaches anyStep s ∧ ¬ OrderedCalls s.started :=
  ⟨_, system.run_reaches anyStep (lostRequests ++ [.resumed [3, 2]] ++ startBoth) fresh_initial
    (by decide +kernel), by decide +kernel⟩

/-- A request issued while a resume is under way goes out before the older ones. -/
theorem request_overtaken : ∃ s, system.Reaches anyStep s ∧ ¬ OrderedCalls s.started :=
  ⟨_, system.run_reaches anyStep ([.loggedIn, .call, .close 0, .drop, .unbind 0, .connect,
    .resumeStart 1, .gateBind, .call, .resumeEnd, .resumed [2, 4]] ++ startBoth) fresh_initial
    (by decide +kernel), by decide +kernel⟩

theorem step_pending (ht : step s a = some t) :
    t.pending.Sublist s.pending ∧ s.nextReqId ≤ t.nextReqId ∨
      t.pending = s.pending ++ [s.nextReqId + 1] ∧ t.nextReqId = s.nextReqId + 1 := by
  cases a with
  | call =>
    cases ht
    exact .inr ⟨rfl, rfl⟩
  | takeId =>
    cases ht
    exact .inl ⟨List.Sublist.refl _, Nat.le_succ _⟩
  | answer id =>
    cases ht
    exact .inl ⟨List.filter_sublist, Nat.le_refl _⟩
  | connect =>
    obtain ⟨_, ⟨⟩⟩ := Option.ite_none_right_eq_some.mp ht
    left
    cases hn : s.nonce with
    | none => simp [Uplink.establish, hn]
    | some nonce => simp [Uplink.establish, hn]
  | loggedIn =>
    obtain ⟨_, ⟨⟩⟩ := Option.ite_none_right_eq_some.mp ht
    exact .inl ⟨List.nil_sublist _, Nat.le_refl _⟩
  | _ =>
    left
    simp only [Uplink.step, Option.ite_none_right_eq_some, Option.ite_none_left_eq_some,
      Option.map_eq_some_iff] at ht
    grind [Uplink.resumeEnd, Uplink.receive, startRequest]

/-- A `Map` keeps the requests in the order they were issued, which is that of their ids. -/
theorem insertion_order_in_order (h : system.Reaches anyStep s) :
    s.InOrder (.resumed s.pending) := by
  have hsorted : s.pending.Pairwise (· < ·) ∧ ∀ id ∈ s.pending, id ≤ s.nextReqId := by
    refine h.invariant (fun s hs => hs.pending) ?_
    intro s a t ⟨hsorted, hle⟩ _ ht
    rcases step_pending ht with ⟨hsub, hids⟩ | ⟨hpending, hids⟩
    · exact ⟨hsorted.sublist hsub, fun id hid => Nat.le_trans (hle id (hsub.mem hid)) hids⟩
    · rw [hpending, hids]
      refine ⟨pairwise_snoc hsorted hle, fun id hid => ?_⟩
      rcases List.mem_append.mp hid with hid | hid
      · exact Nat.le_succ_of_le (hle id hid)
      · exact Nat.le_of_eq (List.mem_singleton.mp hid)
  exact hsorted.1

end Uplink

end Skyext
