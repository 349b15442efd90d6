import Skyext.Shutdown.Node

namespace Skyext
set_option autoImplicit true

open Machine

variable {s t : ShutdownNode} {m m' : EntityAgentmgr} {agents agents' : List EntityAgent}
  {n j a c : Nat}

def ClosedAt (agents : List EntityAgent) (a : Nat) : Prop :=
  ∃ x, agents[a]? = some x ∧ x.closed = true

namespace EntityAgentmgr

def created (m : EntityAgentmgr) : List Nat :=
  match m.start with
  | some (.newservice agents) => agents
  | some (.agentStart agents) => agents
  | _ => []

/-- A manager has been shut down and all its agents are closed. -/
structure Done (m : EntityAgentmgr) (agents : List EntityAgent) : Prop where
  received : m.received = true
  closed : ∀ a ∈ m.agents, ClosedAt agents a

structure Orderly (m : EntityAgentmgr) (agents : List EntityAgent) : Prop where
  starting : m.starting = false → m.start = none
  creating : ∀ l, m.start = some (.newservice l) ∨ m.start = some (.agentStart l) → m.agents = []
  fresh : m.agents ≠ [] →
    m.ready = true ∨ m.startError = true ∨ m.starting = true ∨ m.received = true
  quiet : m.received = true → m.start = none
  runs : ∀ r ∈ m.runs, m.received = true ∧ ∀ pending remaining, r.pc = .round pending remaining →
    ∀ a ∈ m.agents, a ∈ pending ∨ ClosedAt agents a ∨ 0 < remaining

end EntityAgentmgr

namespace ShutdownNode

/-- What `unload_entities` has found out about the managers. -/
def Gathered (s : ShutdownNode) : NodePc → Prop
  | .unload _ pending remaining =>
    ∀ (n : Nat) m, s.mgrs[n]? = some m → n ∈ pending ∨ m.Done s.agents ∨ 0 < remaining
  | pc => pc.exiting = true → ∀ (n : Nat) m, s.mgrs[n]? = some m → m.Done s.agents

/-- No agent is unknown to its manager, and none that counts as gone can come back. -/
structure Orderly (s : ShutdownNode) : Prop where
  owned : ∀ (a : Nat) x, s.agents[a]? = some x →
    ∃ m, s.mgrs[x.mgr]? = some m ∧ (a ∈ m.agents ∨ a ∈ m.created)
  mgrs : ∀ (n : Nat) m, s.mgrs[n]? = some m → m.Orderly s.agents
  gathered : s.Gathered s.pc
  late : s.late = []

theorem setMgr_get (hm : s.mgrs[n]? = some m) (m' : EntityAgentmgr) (i : Nat) :
    (s.setMgr n m').mgrs[i]? = if i = n then some m' else s.mgrs[i]? := by
  have hlt : n < s.mgrs.length := (List.getElem?_eq_some_iff.mp hm).1
  by_cases hi : i = n
  · subst hi
    simp [setMgr, hlt]
  · rw [if_neg hi]
    exact List.getElem?_set_ne (Ne.symm hi)

theorem Gathered.mono {pc : NodePc} (h : s.Gathered pc)
    (hd : ∀ (n : Nat) m', t.mgrs[n]? = some m' →
      ∃ m, s.mgrs[n]? = some m ∧ (m.Done s.agents → m'.Done t.agents)) : t.Gathered pc := by
  cases pc with
  | unload sent pending remaining =>
    intro n m' hm'
    obtain ⟨m, hm, hdone⟩ := hd n m' hm'
    exact (h n m hm).imp id fun h => h.imp hdone id
  | _ =>
    intro he n m' hm'
    obtain ⟨m, hm, hdone⟩ := hd n m' hm'
    exact hdone (h he n m hm)

theorem Orderly.setMgr (h : s.Orderly) (hm : s.mgrs[n]? = some m) (ho : m'.Orderly s.agents)
    (hall : ∀ a, a ∈ m.agents ∨ a ∈ m.created → a ∈ m'.agents ∨ a ∈ m'.created)
    (hdone : m.Done s.agents → m'.Done s.agents) : (s.setMgr n m').Orderly where
  owned a x hx := by
    obtain ⟨k, hk, ha⟩ := h.owned a x hx
    by_cases hn : x.mgr = n
    · refine ⟨m', by rw [setMgr_get hm, if_pos hn], hall a ?_⟩
      cases (hn ▸ hk).symm.trans hm
      exact ha
    · exact ⟨k, by rw [setMgr_get hm, if_neg hn, hk], ha⟩
  mgrs i k hk := by
    rw [setMgr_get hm] at hk
    split at hk
    · cases hk
      exact ho
    · exact h.mgrs i k hk
  gathered := by
    refine Gathered.mono h.gathered fun i k hk => ?_
    rw [setMgr_get hm] at hk
    split at hk
    · next hi =>
      cases hk
      exact ⟨m, hi ▸ hm, hdone⟩
    · exact ⟨k, hk, id⟩
  late := h.late

/-- Agents close, are born and change what they hold; none opens again. -/
structure Grown (agents agents' : List EntityAgent) : Prop where
  closed : ∀ a, ClosedAt agents a → ClosedAt agents' a
  owned : ∀ (a : Nat) x', agents'[a]? = some x' → ∃ x, agents[a]? = some x ∧ x'.mgr = x.mgr

theorem grown_modify (l : List EntityAgent) (a : Nat) {f : EntityAgent → EntityAgent}
    (hf : ∀ x, x.closed = true → (f x).closed = true) (hm : ∀ x, (f x).mgr = x.mgr) :
    Grown l (l.modify a f) where
  closed i := by
    rintro ⟨x, hx, hc⟩
    rw [ClosedAt, List.getElem?_modify, hx]
    split
    · exact ⟨f x, rfl, hf x hc⟩
    · exact ⟨x, rfl, hc⟩
  owned i x' hx' := by
    rw [List.getElem?_modify] at hx'
    obtain ⟨x, hx, rfl⟩ := Option.map_eq_some_iff.mp hx'
    refine ⟨x, hx, ?_⟩
    split
    · exact hm x
    · rfl

theorem done_mono (h : m.Done agents) (hc : ∀ a, ClosedAt agents a → ClosedAt agents' a) :
    m.Done agents' := ⟨h.received, fun a ha => hc a (h.closed a ha)⟩

theorem mgr_mono (h : m.Orderly agents) (hc : ∀ a, ClosedAt agents a → ClosedAt agents' a) :
    m.Orderly agents' :=
  ⟨h.starting, h.creating, h.fresh, h.quiet, fun r hr => ⟨(h.runs r hr).1, fun p k hp a ha =>
    ((h.runs r hr).2 p k hp a ha).imp id fun h => h.imp (hc a) id⟩⟩

theorem Orderly.grow (h : s.Orderly) (hg : Grown s.agents agents') :
    { s with agents := agents' }.Orderly where
  owned a x' hx' := by
    obtain ⟨x, hx, hm⟩ := hg.owned a x' hx'
    rw [hm]
    exact h.owned a x hx
  mgrs i k hk := mgr_mono (h.mgrs i k hk) hg.closed
  gathered := Gathered.mono h.gathered fun _ k hk => ⟨k, hk, fun hd => done_mono hd hg.closed⟩
  late := h.late

theorem Orderly.count (h : s.Orderly)
    (hd : c = 0 → ∀ m, s.mgrs[n]? = some m → m.Done s.agents) : (s.count n c).Orderly := by
  unfold ShutdownNode.count
  split
  · next sent pending remaining hpc =>
    refine ⟨h.owned, h.mgrs, fun i k hk => ?_, h.late⟩
    have hg := h.gathered
    rw [hpc] at hg
    rcases hg i k hk with hi | hdone | hr
    · by_cases hin : i = n
      · subst hin
        by_cases hc : c = 0
        · exact .inr (.inl (hd hc k hk))
        · exact .inr (.inr (by omega))
      · exact .inl ((List.mem_erase_of_ne hin).mpr hi)
    · exact .inr (.inl hdone)
    · exact .inr (.inr (by omega))
  · exact h

theorem Orderly.returned (h : s.Orderly) (hm : s.mgrs[n]? = some m) (r : ShutdownRun)
    (hc : c = 0 → m.Done s.agents) : (s.returned n j m r c).Orderly := by
  have ho := h.mgrs n m hm
  have hset : (s.setMgr n (m.endRun j)).Orderly := by
    refine h.setMgr hm ⟨ho.starting, ho.creating, ho.fresh, ho.quiet, fun r hr => ?_⟩
      (fun _ => id) fun hd => ⟨hd.received, hd.closed⟩
    exact ho.runs r (List.mem_of_mem_eraseIdx hr)
  unfold ShutdownNode.returned
  dsimp only
  split
  · refine hset.count fun h0 k hk => ?_
    rw [setMgr_get hm, if_pos rfl] at hk
    cases hk
    exact ⟨(hc h0).received, (hc h0).closed⟩
  · exact hset

/-- The state before a step that comes at a wrong time: a start that creates agents after the
manager was shut down, a shutdown that reaches a manager while it starts, a manager that is
registered or overlooked when the managers have been looked up. -/
def untimely (s : ShutdownNode) : ShutdownAction → Bool
  | .start n =>
    (s.mgrs[n]?).any fun m => m.received && !m.startError && !m.starting && !m.ready
  | .shutdownMgr n => (s.mgrs[n]?).any fun m => m.start.isSome
  | .deliver n ok => ok && (s.mgrs[n]?).any fun m => m.start.isSome
  | .register _ =>
    match s.pc with
    | .idle => false
    | .stopAccepting _ => false
    | _ => true
  | .next known =>
    match s.pc with
    | .stopAccepting i => !known && decide (s.stopHooks.length ≤ i) && !s.mgrs.isEmpty
    | _ => false
  | _ => false

theorem created_none (h : m.start = none) : m.created = [] := by
  simp [EntityAgentmgr.created, h]

theorem orderly_create (ho : m.Orderly agents) (l : List Nat) (hs : m.starting = true)
    (ha : m.agents = []) (hr : m.received = false) : (m.create l).Orderly agents := by
  have hruns : m.runs = [] := by
    apply List.eq_nil_iff_forall_not_mem.mpr
    intro r hmem
    have hrec := (ho.runs r hmem).1
    rw [hr] at hrec
    cases hrec
  unfold EntityAgentmgr.create
  split
  · refine ⟨fun h => ?_, fun _ _ => ha, fun h => absurd ha h, fun h => ?_, fun r hmem => ?_⟩
    · cases hs.symm.trans h
    · cases hr.symm.trans h
    · exact absurd (hruns ▸ hmem) List.not_mem_nil
  · refine ⟨fun h => ?_, fun _ h => ?_, fun _ => .inr (.inr (.inl hs)), fun h => ?_,
      fun r hmem => ?_⟩
    · cases hs.symm.trans h
    · rcases h with h | h <;> cases h
    · cases hr.symm.trans h
    · exact absurd (hruns ▸ hmem) List.not_mem_nil

theorem create_keeps (l : List Nat) (a : Nat) (ha : a ∈ l) :
    a ∈ (m.create l).agents ∨ a ∈ (m.create l).created := by
  unfold EntityAgentmgr.create
  split
  · exact .inr ha
  · exact .inl ha

theorem Orderly.start (h : s.Orderly) (hm : s.mgrs[n]? = some m)
    (hu : s.untimely (.start n) = false) : (s.setMgr n m.callStart).Orderly := by
  have ho := h.mgrs n m hm
  unfold EntityAgentmgr.callStart
  split
  · exact h.setMgr hm ho (fun _ => id) id
  · next he =>
    split
    · refine h.setMgr hm ⟨ho.starting, ho.creating, ho.fresh, ho.quiet, ho.runs⟩ (fun _ => id)
        fun hd => ⟨hd.received, hd.closed⟩
    · next hs =>
      split
      · exact h.setMgr hm ho (fun _ => id) id
      · next hr =>
        have hnone := ho.starting (by simpa using hs)
        have hrec : m.received = false := by
          simpa [untimely, hm, he, hs, hr] using hu
        have ha : m.agents = [] := by
          by_contra hne
          rcases ho.fresh hne with h | h | h | h
          · exact hr h
          · exact he h
          · exact hs h
          · cases hrec.symm.trans h
        refine h.setMgr hm ?_ (fun a hin => ?_) fun hd => ?_
        · have ho' : { m with starting := true }.Orderly s.agents := by
            refine ⟨fun h => ?_, ho.creating, fun hne => absurd ha hne, ho.quiet, ho.runs⟩
            cases h
          exact orderly_create ho' [] rfl ha hrec
        · rw [ha, created_none hnone] at hin
          rcases hin with hin | hin <;> cases hin
        · cases hrec.symm.trans hd.received

theorem not_received (ho : m.Orderly agents) {pc : StartPc} (hs : m.start = some pc) :
    m.received = false ∧ m.starting = true ∧ m.runs = [] := by
  have hr : m.received = false := by
    cases hrec : m.received with
    | false => rfl
    | true => cases (ho.quiet hrec).symm.trans hs
  refine ⟨hr, ?_, List.eq_nil_iff_forall_not_mem.mpr fun r hmem => ?_⟩
  · cases hst : m.starting with
    | true => rfl
    | false => cases (ho.starting hst).symm.trans hs
  · cases hr.symm.trans (ho.runs r hmem).1

theorem orderly_startFailed (ho : m.Orderly agents) {pc : StartPc} (hs : m.start = some pc)
    (l : List Nat) : (m.startFailed l).Orderly agents := by
  obtain ⟨hr, _, hruns⟩ := not_received ho hs
  refine ⟨fun _ => rfl, fun _ h => ?_, fun _ => .inr (.inl rfl), fun _ => rfl, fun r hmem => ?_⟩
  · rcases h with h | h <;> cases h
  · have hnil : (m.startFailed l).runs = [] := hruns
    exact absurd (hnil ▸ hmem) List.not_mem_nil

theorem orderly_move (ho : m.Orderly agents) {pc : StartPc} (hs : m.start = some pc)
    (p : Option StartPc) (hp : ∀ l, p = some (.newservice l) ∨ p = some (.agentStart l) →
      m.agents = []) : { m with start := p }.Orderly agents := by
  obtain ⟨hr, hst, hruns⟩ := not_received ho hs
  refine ⟨fun h => ?_, hp, ho.fresh, fun h => ?_, ho.runs⟩
  · cases hst.symm.trans h
  · cases hr.symm.trans h

theorem orderly_announced (ho : m.Orderly agents) : m.announced.Orderly agents := by
  refine ⟨fun _ => rfl, fun _ h => ?_, fun _ => .inl rfl, fun _ => rfl, ho.runs⟩
  rcases h with h | h <;> cases h

theorem grown_append (l : List EntityAgent) (x : EntityAgent) (a : Nat)
    (h : ClosedAt l a) : ClosedAt (l ++ [x]) a := by
  obtain ⟨y, hy, hc⟩ := h
  exact ⟨y, by rw [List.getElem?_append_left (List.getElem?_eq_some_iff.mp hy).1, hy], hc⟩

theorem Orderly.spawn (h : s.Orderly) (hm : s.mgrs[n]? = some m) {l : List Nat}
    (hs : m.start = some (.newservice l)) :
    { s.setMgr n { m with start := some (.agentStart (l ++ [s.agents.length])) } with
      agents := s.agents ++ [({ mgr := n } : EntityAgent)] }.Orderly := by
  have ho := h.mgrs n m hm
  have ha : m.agents = [] := ho.creating l (.inl hs)
  have hset := h.setMgr hm (orderly_move ho hs (some (.agentStart (l ++ [s.agents.length])))
    fun _ _ => ha) (fun a hin => .inr (by
      simp only [EntityAgentmgr.created, hs, ha, List.not_mem_nil, false_or] at hin
      exact List.mem_append_left _ hin)) fun hd => by
        cases (not_received ho hs).1.symm.trans hd.received
  refine ⟨fun a x hx => ?_, fun i k hk => mgr_mono (hset.mgrs i k hk) (grown_append _ _),
    ?_, h.late⟩
  · have hx' : (s.agents ++ [({ mgr := n } : EntityAgent)])[a]? = some x := hx
    by_cases hlt : a < s.agents.length
    · rw [List.getElem?_append_left hlt] at hx'
      exact hset.owned a x hx'
    · have hle := Nat.le_of_not_lt hlt
      rw [List.getElem?_append_right hle, List.getElem?_singleton] at hx'
      obtain ⟨hz, hx'⟩ := Option.ite_none_right_eq_some.mp hx'
      cases hx'
      have heq : a = s.agents.length := Nat.le_antisymm (Nat.sub_eq_zero_iff_le.mp hz) hle
      refine ⟨_, (setMgr_get hm _ n).trans (if_pos rfl), .inr ?_⟩
      rw [heq]
      exact List.mem_append_right _ (List.mem_singleton_self _)
  · exact Gathered.mono hset.gathered fun _ k hk =>
      ⟨k, hk, fun hd => done_mono hd (grown_append _ _)⟩

theorem Orderly.started (h : s.Orderly) (hm : s.mgrs[n]? = some m) {applied ok : Bool}
    (ht : s.started n m applied ok = some t) : t.Orderly := by
  have ho := h.mgrs n m hm
  have hnotdone {pc : StartPc} {m' : EntityAgentmgr} (hs : m.start = some pc) :
      m.Done s.agents → m'.Done s.agents := by
    intro hd
    cases (not_received ho hs).1.symm.trans hd.received
  unfold ShutdownNode.started at ht
  split at ht
  · cases ht
  · next l hs =>
    have ha : m.agents = [] := ho.creating l (.inl hs)
    split at ht
    · cases ht
      exact h.spawn hm hs
    · cases ht
      refine h.setMgr hm (orderly_startFailed ho hs l) (fun a hin => .inl ?_) (hnotdone hs)
      simpa [EntityAgentmgr.created, hs, ha, EntityAgentmgr.startFailed] using hin
  · next l hs =>
    obtain ⟨hr, hst, hruns⟩ := not_received ho hs
    have ha : m.agents = [] := ho.creating l (.inr hs)
    have hin : ∀ a, a ∈ m.agents ∨ a ∈ m.created → a ∈ l := by
      intro a hin
      simpa [EntityAgentmgr.created, hs, ha] using hin
    cases ht
    split
    · exact h.setMgr hm (orderly_create ho l hst ha hr) (fun a h => create_keeps l a (hin a h))
        (hnotdone hs)
    · exact h.setMgr hm (orderly_startFailed ho hs l) (fun a h => .inl (hin a h)) (hnotdone hs)
  · next hs =>
    cases ht
    refine h.setMgr hm (orderly_move ho hs _ fun l hl => ?_) (fun a hin => .inl ?_) (hnotdone hs)
    · rcases hl with hl | hl <;> cases hl
    · simpa [EntityAgentmgr.created, hs] using hin
  · next hs =>
    have hexit : ¬ s.pc.exiting = true := by
      intro he
      have hg := h.gathered
      have hd : m.Done s.agents := by
        cases hpc : s.pc with
        | unload sent pending remaining =>
          rw [hpc] at he
          cases he
        | _ =>
          rw [hpc] at hg he
          exact hg he n m hm
      cases (not_received ho hs).1.symm.trans hd.received
    have hin : ∀ a, a ∈ m.agents ∨ a ∈ m.created → a ∈ m.agents := by
      intro a hin
      simpa [EntityAgentmgr.created, hs] using hin
    simp only [Bool.eq_false_iff.mpr hexit, Bool.and_false, Bool.false_eq_true, if_false] at ht
    cases ht
    split
    · exact h.setMgr hm (orderly_announced ho) (fun a h => .inl (hin a h)) (hnotdone hs)
    · refine h.setMgr hm (orderly_move ho hs none fun l hl => ?_) (fun a h => .inl (hin a h))
        (hnotdone hs)
      rcases hl with hl | hl <;> cases hl

theorem Orderly.callShutdown (h : s.Orderly) (hm : s.mgrs[n]? = some m) (hn : m.start = none)
    (node : Bool) : (s.setMgr n (m.callShutdown node)).Orderly := by
  have ho := h.mgrs n m hm
  refine h.setMgr hm ⟨ho.starting, ho.creating, fun _ => .inr (.inr (.inr rfl)), fun _ => hn,
    fun r hr => ⟨rfl, fun pending remaining hp a ha => ?_⟩⟩ (fun _ => id) fun hd => ⟨rfl, hd.closed⟩
  rcases List.mem_append.mp hr with hr | hr
  · exact (ho.runs r hr).2 pending remaining hp a ha
  · cases List.mem_singleton.mp hr
    dsimp only at hp
    split at hp
    · cases hp
    · cases hp
      exact .inl ha

/-- A running `CMD.shutdown` goes on, its round still covering every agent. -/
theorem orderly_setRun (ho : m.Orderly agents) {r₀ : ShutdownRun} (hr : m.runs[j]? = some r₀)
    (r : ShutdownRun) (hnew : ∀ pending remaining, r.pc = .round pending remaining →
      ∀ a ∈ m.agents, a ∈ pending ∨ ClosedAt agents a ∨ 0 < remaining) :
    (m.setRun j r).Orderly agents := by
  have hrec := (ho.runs r₀ (List.mem_of_getElem? hr)).1
  refine ⟨ho.starting, ho.creating, ho.fresh, ho.quiet, fun r' hr' => ?_⟩
  rcases List.mem_or_eq_of_mem_set hr' with hr' | rfl
  · exact ho.runs r' hr'
  · exact ⟨hrec, hnew⟩

theorem orderly_notReady (ho : m.Orderly agents) {r₀ : ShutdownRun} (hr : m.runs[j]? = some r₀) :
    { m with ready := false }.Orderly agents :=
  ⟨ho.starting, ho.creating,
    fun _ => .inr (.inr (.inr (ho.runs r₀ (List.mem_of_getElem? hr)).1)), ho.quiet, ho.runs⟩

theorem newRound_covers (pending : List Nat) (remaining : Nat)
    (hp : m.newRound = .round pending remaining) (a : Nat) (ha : a ∈ m.agents) :
    a ∈ pending ∨ ClosedAt agents a ∨ 0 < remaining := by
  cases hp
  exact .inl ha

theorem Orderly.unregistered (h : s.Orderly) (hm : s.mgrs[n]? = some m) {node : Bool}
    (hr : m.runs[j]? = some ⟨.unregister, node⟩) :
    (s.setMgr n ({ m with ready := false }.setRun j ⟨m.newRound, node⟩)).Orderly :=
  h.setMgr hm (orderly_setRun (orderly_notReady (h.mgrs n m hm) hr) hr _ newRound_covers)
    (fun _ => id) fun hd => ⟨hd.received, hd.closed⟩

theorem Orderly.answer (h : s.Orderly) (hm : s.mgrs[n]? = some m) {pending : List Nat}
    {remaining : Nat} {node : Bool} (hr : m.runs[j]? = some ⟨.round pending remaining, node⟩)
    {x : EntityAgent} (hx : s.agents[a]? = some x) :
    ((s.setMgr n (m.setRun j ⟨.round (pending.erase a) (remaining + x.held), node⟩)).closeAgent
      a).Orderly := by
  have hg : Grown s.agents (s.closeAgent a).agents :=
    grown_modify _ a (fun x hc => by simp [hc]) fun _ => rfl
  have h' : (s.closeAgent a).Orderly := h.grow hg
  have ho' : m.Orderly (s.closeAgent a).agents := h'.mgrs n m hm
  refine h'.setMgr hm (orderly_setRun ho' hr _ fun p k hp b hb => ?_) (fun _ => id)
    fun hd => ⟨hd.received, hd.closed⟩
  cases hp
  rcases (ho'.runs _ (List.mem_of_getElem? hr)).2 pending remaining rfl b hb with hin | hc | hpos
  · by_cases hba : b = a
    · subst hba
      by_cases hheld : x.held = 0
      · refine .inr (.inl ⟨{ x with closed := x.closed || x.held == 0 }, ?_, by simp [hheld]⟩)
        simp [closeAgent, hx]
      · exact .inr (.inr (by omega))
    · exact .inl ((List.mem_erase_of_ne hba).mpr hin)
  · exact .inr (.inl hc)
  · exact .inr (.inr (by omega))

theorem Orderly.answerLost (h : s.Orderly) (hm : s.mgrs[n]? = some m) {pending : List Nat}
    {remaining : Nat} {node : Bool} (hr : m.runs[j]? = some ⟨.round pending remaining, node⟩) :
    (s.setMgr n (m.setRun j ⟨.round (pending.erase a) (remaining + 1), node⟩)).Orderly := by
  refine h.setMgr hm (orderly_setRun (h.mgrs n m hm) hr _ fun p k hp b hb => ?_) (fun _ => id)
    fun hd => ⟨hd.received, hd.closed⟩
  cases hp
  exact .inr (.inr (Nat.succ_pos _))

/-- A round that counted nothing has closed every agent. -/
theorem Orderly.round_done (h : s.Orderly) (hm : s.mgrs[n]? = some m) {node : Bool}
    (hr : m.runs[j]? = some ⟨.round [] 0, node⟩) : m.Done s.agents := by
  have hrun := (h.mgrs n m hm).runs _ (List.mem_of_getElem? hr)
  refine ⟨hrun.1, fun a ha => ?_⟩
  rcases hrun.2 [] 0 rfl a ha with hin | hc | hpos
  · cases hin
  · exact hc
  · exact absurd hpos (Nat.lt_irrefl 0)

theorem Orderly.register (h : s.Orderly) (agentCount : Nat)
    (hu : s.untimely (.register agentCount) = false) :
    { s with mgrs := s.mgrs ++ [({ agentCount := agentCount } : EntityAgentmgr)] }.Orderly where
  owned a x hx := by
    obtain ⟨m, hm, ha⟩ := h.owned a x hx
    refine ⟨m, ?_, ha⟩
    have hlt := (List.getElem?_eq_some_iff.mp hm).1
    exact (List.getElem?_append_left hlt).trans hm
  mgrs i k hk := by
    rcases List.mem_append.mp (List.mem_of_getElem? hk) with hk' | hk'
    · obtain ⟨i', hi'⟩ := List.getElem?_of_mem hk'
      exact h.mgrs i' k hi'
    · cases List.mem_singleton.mp hk'
      refine ⟨fun _ => rfl, fun _ _ => rfl, fun h => absurd rfl h, fun _ => rfl, fun r hr => ?_⟩
      cases hr
  gathered := by
    cases hpc : s.pc with
    | idle => exact fun he => by cases he
    | stopAccepting i => exact fun he => by cases he
    | _ =>
      simp only [untimely, hpc] at hu
      cases hu
  late := h.late

theorem Orderly.exiting (h : s.Orderly) (he : s.pc.exiting = true) (hm : s.mgrs[n]? = some m) :
    m.Done s.agents := by
  have hg := h.gathered
  cases hpc : s.pc with
  | unload sent pending remaining =>
    rw [hpc] at he
    cases he
  | _ =>
    rw [hpc] at hg he
    exact hg he n m hm

theorem Orderly.moveTo (h : s.Orderly) (pc : NodePc)
    (hd : pc.exiting = true → ∀ (n : Nat) m, s.mgrs[n]? = some m → m.Done s.agents)
    (hu : pc.exiting = true ∨ pc = .idle ∨ ∃ i, pc = .stopAccepting i) (running : Bool) :
    { s with pc := pc, running := running }.Orderly := by
  refine ⟨h.owned, h.mgrs, ?_, h.late⟩
  cases pc with
  | unload sent pending remaining => rcases hu with hu | hu | ⟨_, hu⟩ <;> cases hu
  | _ => exact hd

theorem Orderly.next (h : s.Orderly) {known : Bool} (hu : s.untimely (.next known) = false)
    (ht : s.next known = some t) : t.Orderly := by
  have hex : s.pc.exiting = true → ∀ (n : Nat) m, s.mgrs[n]? = some m → m.Done s.agents :=
    fun he _ _ hm => h.exiting he hm
  unfold ShutdownNode.next at ht
  split at ht
  · cases ht
  · next i hpc =>
    split at ht
    · cases ht
      exact h.moveTo _ (by rintro ⟨⟩) (.inr (.inr ⟨_, rfl⟩)) s.running
    · next hi =>
      cases ht
      refine ⟨h.owned, h.mgrs, fun k m hm => .inl ?_, h.late⟩
      have hlt := (List.getElem?_eq_some_iff.mp hm).1
      cases known with
      | true => exact List.mem_range.mpr hlt
      | false =>
        have hne : s.mgrs ≠ [] := List.ne_nil_of_length_pos (Nat.lt_of_le_of_lt (Nat.zero_le k) hlt)
        simp [untimely, hpc, Nat.le_of_not_lt hi, hne] at hu
  · next sent pending remaining hpc =>
    split at ht
    · cases ht
    · next hp =>
      split at ht
      · cases ht
        exact h.moveTo _ (by rintro ⟨⟩) (.inr (.inl rfl)) false
      · next hr =>
        cases ht
        refine h.moveTo _ (fun _ n m hm => ?_) (.inl rfl) s.running
        have hg := h.gathered
        rw [hpc] at hg
        rcases hg n m hm with hin | hd | hpos
        · rw [not_not.mp hp] at hin
          cases hin
        · exact hd
        · exact absurd (not_not.mp hr) (Nat.ne_of_gt hpos)
  · next i hpc =>
    have he : s.pc.exiting = true := by rw [hpc]; rfl
    split at ht
    · cases ht
      exact h.moveTo _ (fun _ => hex he) (.inl rfl) s.running
    · cases ht
      exact h.moveTo _ (fun _ => hex he) (.inl rfl) s.running
  · next hpc =>
    have he : s.pc.exiting = true := by rw [hpc]; rfl
    cases ht
    exact h.moveTo _ (fun _ => hex he) (.inl rfl) s.running
  · next hpc =>
    have he : s.pc.exiting = true := by rw [hpc]; rfl
    cases ht
    exact h.moveTo _ (fun _ => hex he) (.inl rfl) s.running
  · next hpc =>
    have he : s.pc.exiting = true := by rw [hpc]; rfl
    cases ht
    exact h.moveTo _ (fun _ => hex he) (.inl rfl) s.running
  · cases ht

theorem Orderly.deliver (h : s.Orderly) (hm : s.mgrs[n]? = some m) {sent pending : List Nat}
    {remaining : Nat} (hpc : s.pc = .unload sent pending remaining) (hn : m.start = none) :
    { s.setMgr n (m.callShutdown true) with
      pc := .unload (sent.erase n) pending remaining }.Orderly := by
  have h' := h.callShutdown hm hn true
  refine ⟨h'.owned, h'.mgrs, ?_, h'.late⟩
  have hg := h'.gathered
  have hpc' : (s.setMgr n (m.callShutdown true)).pc = .unload sent pending remaining := hpc
  rw [hpc'] at hg
  exact hg

theorem Orderly.step (h : s.Orderly) {act : ShutdownAction} (hu : s.untimely act = false)
    (ht : s.step act = some t) : t.Orderly := by
  unfold ShutdownNode.step at ht
  rw [Option.ite_none_left_eq_some] at ht
  obtain ⟨_, ht⟩ := ht
  cases act with
  | addHook phase hook =>
    cases phase with
    | stopAccepting =>
      cases ht
      exact ⟨h.owned, h.mgrs, Gathered.mono h.gathered fun _ m hm => ⟨m, hm, id⟩, h.late⟩
    | release =>
      cases ht
      exact ⟨h.owned, h.mgrs, Gathered.mono h.gathered fun _ m hm => ⟨m, hm, id⟩, h.late⟩
  | register agentCount =>
    cases ht
    exact h.register agentCount hu
  | start n =>
    obtain ⟨m, hm, rfl⟩ := Option.map_eq_some_iff.mp ht
    exact h.start hm hu
  | started n applied ok =>
    obtain ⟨m, hm, ht⟩ := Option.bind_eq_some_iff.mp ht
    exact h.started hm ht
  | load a =>
    cases ht
    refine h.grow (grown_modify _ a (fun x hc => ?_) fun x => ?_)
    · simp [hc]
    · split <;> rfl
  | unload a =>
    cases ht
    exact h.grow (grown_modify _ a (fun _ => id) fun _ => rfl)
  | shutdownMgr n =>
    obtain ⟨m, hm, rfl⟩ := Option.map_eq_some_iff.mp ht
    refine h.callShutdown hm ?_ false
    simpa [untimely, hm] using hu
  | unregistered n j ok =>
    obtain ⟨m, hm, ht⟩ := Option.bind_eq_some_iff.mp ht
    dsimp only at ht
    split at ht
    · next node hr =>
      split at ht
      · cases ht
        exact h.unregistered hm hr
      · cases ht
        exact h.returned hm _ (by rintro ⟨⟩)
    · cases ht
  | answer n j a ok =>
    obtain ⟨m, hm, ht⟩ := Option.bind_eq_some_iff.mp ht
    split at ht
    · next pending remaining node x hr hx =>
      rw [Option.ite_none_right_eq_some] at ht
      obtain ⟨_, ht⟩ := ht
      split at ht
      · cases ht
        exact h.answer hm hr hx
      · cases ht
        exact h.answerLost hm hr
    · cases ht
  | round n j late =>
    obtain ⟨m, hm, ht⟩ := Option.bind_eq_some_iff.mp ht
    split at ht
    · next remaining node hr =>
      split at ht
      · next h0 =>
        cases ht
        subst h0
        exact h.returned hm _ fun _ => h.round_done hm hr
      · next h0 =>
        split at ht
        · cases ht
          exact h.returned hm _ fun hc => absurd hc h0
        · cases ht
          refine h.setMgr hm (orderly_setRun (h.mgrs n m hm) hr _ ?_) (fun _ => id)
            fun hd => ⟨hd.received, hd.closed⟩
          rintro _ _ ⟨⟩
    · cases ht
  | wake n j =>
    obtain ⟨m, hm, ht⟩ := Option.bind_eq_some_iff.mp ht
    split at ht
    · next node hr =>
      cases ht
      exact h.setMgr hm (orderly_setRun (h.mgrs n m hm) hr _ newRound_covers) (fun _ => id)
        fun hd => ⟨hd.received, hd.closed⟩
    · cases ht
  | shutdownNode =>
    dsimp only at ht
    split at ht
    · cases ht
      exact h
    · cases ht
      exact h.moveTo _ (by rintro ⟨⟩) (.inr (.inr ⟨0, rfl⟩)) true
  | next known => exact h.next hu ht
  | deliver n ok =>
    dsimp only at ht
    split at ht
    · next sent pending remaining m hpc hm =>
      rw [Option.ite_none_right_eq_some] at ht
      obtain ⟨_, ht⟩ := ht
      split at ht
      · next hok =>
        cases ht
        refine h.deliver hm hpc ?_
        simpa [untimely, hok, hm] using hu
      · cases ht
        exact h.count (by rintro ⟨⟩)
    · cases ht

/-- Steps that come at their time. -/
def timely (s : ShutdownNode) (act : ShutdownAction) : Prop := s.untimely act = false

instance (s : ShutdownNode) (act : ShutdownAction) : Decidable (timely s act) :=
  inferInstanceAs (Decidable (_ = _))

theorem orderly_reaches (h : system.Reaches timely s) : s.Orderly := by
  apply h.invariant (fun s hs => ?_) fun _ _ _ hi hok ht => hi.step hok ht
  cases hs
  exact ⟨fun _ _ hx => (by cases hx), fun _ _ hm => (by cases hm), fun he => (by cases he), rfl⟩

/-- From the release hooks to the abort every agent of the node has answered its shutdown with 0,
also one that would only now have been created, and no entity type is announced any more. -/
structure ExitsSafely (s : ShutdownNode) : Prop where
  closed : s.pc.exiting = true → ∀ x ∈ s.agents, x.closed = true
  late : s.late = []

theorem exits_safely (h : system.Reaches timely s) : s.ExitsSafely := by
  have ho := orderly_reaches h
  refine ⟨fun he x hx => ?_, ho.late⟩
  obtain ⟨a, ha⟩ := List.getElem?_of_mem hx
  obtain ⟨m, hm, hin⟩ := ho.owned a x ha
  have hd := ho.exiting he hm
  rw [created_none ((ho.mgrs _ m hm).quiet hd.received)] at hin
  obtain ⟨y, hy, hc⟩ := hd.closed a (hin.resolve_right List.not_mem_nil)
  cases ha.symm.trans hy
  exact hc

/-- A type with one agent starts, loads an entity and is shut down in a second round. -/
def exited : ShutdownNode :=
  system.run timely empty
    [.register 1, .start 0, .started 0 true true, .started 0 true true, .started 0 true true,
      .started 0 true true, .load 0, .shutdownNode, .next true, .deliver 0 true,
      .unregistered 0 0 true, .answer 0 0 0 true, .round 0 0 false, .unload 0, .wake 0 0,
      .answer 0 0 0 true, .round 0 0 false, .next true, .next true, .next true, .next true,
      .next true] (by decide +kernel)

theorem exited_aborted : exited.pc = .aborted ∧ exited.agents = [⟨0, 0, true⟩] := by
  decide +kernel

theorem exits_safely_exited : exited.ExitsSafely :=
  exits_safely (system.run_reaches timely _ rfl (by decide +kernel))

/-- The shutdown reaches the manager while it creates its first agent, and finds none. -/
def exitedWhileStarting : ShutdownNode :=
  system.run anyStep empty
    [.register 1, .start 0, .shutdownNode, .next true, .deliver 0 true, .round 0 0 false,
      .next true, .started 0 true true] (by decide +kernel)

theorem exits_unsafely : ∃ s : ShutdownNode, system.Reaches anyStep s ∧ ¬ s.ExitsSafely := by
  refine ⟨exitedWhileStarting, system.run_reaches anyStep _ rfl (by decide +kernel), fun h => ?_⟩
  have ha : exitedWhileStarting.agents = [⟨0, 0, false⟩] := by decide +kernel
  cases h.closed (by decide +kernel) _ (ha ▸ List.mem_singleton_self _)

end ShutdownNode

end Skyext
