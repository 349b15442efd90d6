import Skyext.Discovery.Service

namespace Skyext
set_option autoImplicit true

open Machine

variable {history : List NodeEvent} {m : NodeMap} {s t : Discovery} {node : String}
  {info : NodeInfo} {deletes : List String} {ev : NodeEvent} {evs : List NodeEvent}

theorem nodesAt_succ (h : history[r]? = some ev) :
    nodesAt history (r + 1) = ev.apply (r + 1) (nodesAt history r) := by
  simp only [nodesAt, h]

theorem nodesAt_append (later : List NodeEvent) (h : r ≤ history.length) :
    nodesAt (history ++ later) r = nodesAt history r := by
  induction r with
  | zero => rfl
  | succ r ih =>
    simp only [nodesAt, List.getElem?_append_left (Nat.lt_of_succ_le h), ih (Nat.le_of_succ_le h)]

/-- No key was changed after the revision it is read at. -/
theorem nodesAt_revision (h : nodesAt history r node = some info) : info.modRevision ≤ r := by
  induction r with
  | zero => cases h
  | succ r ih =>
    cases hr : history[r]? with
    | none =>
      simp only [nodesAt, hr] at h
      exact Nat.le_succ_of_le (ih h)
    | some ev =>
      rw [nodesAt_succ hr] at h
      cases ev with
      | put x address =>
        by_cases hx : node = x
        · subst hx
          simp only [NodeEvent.apply, Function.update_self, Option.some.injEq] at h
          exact Nat.le_of_eq (h ▸ rfl)
        · rw [NodeEvent.apply, Function.update_of_ne hx] at h
          exact Nat.le_succ_of_le (ih h)
      | delete x =>
        by_cases hx : node = x
        · subst hx
          rw [NodeEvent.apply, Function.update_self] at h
          cases h
        · rw [NodeEvent.apply, Function.update_of_ne hx] at h
          exact Nat.le_succ_of_le (ih h)

namespace Discovery

def Addressed (s : Discovery) (node : String) : Prop := ∃ a, s.addresses node = some (some a)

/-- The service knows exactly the nodes that exist, and the address table has the current address
of each of them and no address for any other. -/
structure Agrees (s : Discovery) (nodes : NodeMap) : Prop where
  mapNode : s.mapNode = nodes
  present : ∀ node info, nodes node = some info → s.addresses node = some (some info.address)
  absent : ∀ node, nodes node = none → s.addresses node = some none ∨ s.addresses node = none

/-- The service agrees with etcd at the revision of its last completed query or batch. -/
def Converged (s : Discovery) : Prop :=
  s.settled = true → ∃ r, s.revision = some r ∧ s.Agrees (nodesAt s.history r)

/-- Every node the address table knows still exists at revision `r`. -/
def NoneGone (s : Discovery) (r : Nat) : Prop :=
  ∀ node, s.Addressed node → (nodesAt s.history r node).isSome = true

/-- No node that the next `n` changes delete exists after them. -/
def NoneBack (s : Discovery) (n : Nat) : Prop :=
  ∀ node, .delete node ∈ s.batch s.seen n → nodesAt s.history (s.seen + n) node = none

/-- A query misses no deletion, and a batch has no node that is deleted and registered again. -/
def Plain (s : Discovery) : DiscoveryAction → Prop
  | .query r => s.NoneGone r
  | .batch n => s.NoneBack n
  | _ => True

theorem Agrees.congr {nodes : NodeMap} (h : s.Agrees nodes) (hm : t.mapNode = s.mapNode)
    (ha : t.addresses = s.addresses) : t.Agrees nodes := by
  refine ⟨hm.trans h.mapNode, fun node info hn => ?_, fun node hn => ?_⟩
  · rw [ha]
    exact h.present node info hn
  · rw [ha]
    exact h.absent node hn

theorem not_addressed (h : ¬ s.Addressed node) :
    s.addresses node = some none ∨ s.addresses node = none := by
  cases ha : s.addresses node with
  | none => exact .inr rfl
  | some a =>
    cases a with
    | none => exact .inl rfl
    | some a => exact absurd ⟨a, ha⟩ h

theorem absent_iff : s.addresses node = some none ∨ s.addresses node = none ↔
    ¬ s.Addressed node := by
  refine ⟨?_, not_addressed⟩
  rintro (h | h) ⟨a, ha⟩
  · cases h.symm.trans ha
  · cases h.symm.trans ha

/-- After a query the service agrees with etcd exactly when no node it had an address for is
gone. -/
theorem firstQueryNodes_agrees (s : Discovery) (r : Nat) :
    (s.firstQueryNodes r).Agrees (nodesAt s.history r) ↔ s.NoneGone r := by
  constructor
  · intro h node ⟨a, ha⟩
    cases hn : nodesAt s.history r node with
    | some info => rfl
    | none =>
      refine absurd ⟨a, ?_⟩ (absent_iff.mp (h.absent node hn))
      simpa only [firstQueryNodes, clusterReloadNodes, List.not_mem_nil, if_false, hn] using ha
  · intro h
    refine ⟨rfl, fun node info hn => ?_, fun node hn => absent_iff.mpr ?_⟩
    · simp only [firstQueryNodes, clusterReloadNodes, List.not_mem_nil, if_false, hn]
    · rintro ⟨a, ha⟩
      simp only [firstQueryNodes, clusterReloadNodes, List.not_mem_nil, if_false, hn] at ha
      have hs := h node ⟨a, ha⟩
      rw [hn] at hs
      cases hs

/-- In the middle of a batch: the deleted nodes keep their addresses until its end. -/
structure Midway (s : Discovery) (nodes : NodeMap) (deletes : List String) : Prop where
  mapNode : s.mapNode = nodes
  present : ∀ node info, nodes node = some info → s.addresses node = some (some info.address)
  absent : ∀ node, nodes node = none → node ∈ deletes ∨ ¬ s.Addressed node

theorem Agrees.midway {nodes : NodeMap} (h : s.Agrees nodes) : s.Midway nodes [] :=
  ⟨h.mapNode, h.present, fun node hn => .inr (absent_iff.mp (h.absent node hn))⟩

theorem Midway.reload {nodes : NodeMap} (h : s.Midway nodes deletes)
    (hm : t.mapNode = nodes') (ha : t.addresses = s.addresses)
    (hnew : ∀ node, nodes' node = none → nodes node = none) :
    (t.clusterReloadNodes []).Midway nodes' deletes := by
  refine ⟨hm, fun node info hn => ?_, fun node hn => ?_⟩
  · simp only [clusterReloadNodes, List.not_mem_nil, if_false, hm, hn]
  · refine (h.absent node (hnew node hn)).imp_right fun hs => ?_
    rintro ⟨a, hat⟩
    refine hs ⟨a, ?_⟩
    simpa only [clusterReloadNodes, List.not_mem_nil, if_false, hm, hn, ha] using hat

/-- One event; a put is always newer than what the service has. -/
theorem Midway.event (h : s.Midway (nodesAt history rev) deletes)
    (hev : history[rev]? = some ev) :
    (s.watchEvent deletes (rev + 1) ev).1.Midway (nodesAt history (rev + 1))
      (s.watchEvent deletes (rev + 1) ev).2 := by
  rw [nodesAt_succ hev]
  cases ev with
  | delete x =>
    simp only [watchEvent, NodeEvent.apply]
    refine ⟨by rw [h.mapNode], fun node info hn => ?_, fun node hn => ?_⟩
    · by_cases hx : node = x
      · subst hx
        rw [Function.update_self] at hn
        cases hn
      · rw [Function.update_of_ne hx] at hn
        exact h.present node info hn
    · by_cases hx : node = x
      · exact .inl (List.mem_append_right _ (List.mem_singleton.mpr hx))
      · rw [Function.update_of_ne hx] at hn
        exact (h.absent node hn).imp_left (List.mem_append_left _)
  | put x address =>
    have hput : s.watchEvent deletes (rev + 1) (.put x address) =
        ({ s with mapNode := Function.update s.mapNode x (some ⟨address, rev + 1⟩)
          }.clusterReloadNodes [], deletes) := by
      simp only [watchEvent]
      split
      · next old hold =>
        rw [h.mapNode] at hold
        rw [if_pos (Nat.lt_succ_of_le (nodesAt_revision hold))]
      · rfl
    rw [hput, NodeEvent.apply]
    refine h.reload (by rw [h.mapNode]) rfl fun node hn => ?_
    by_cases hx : node = x
    · subst hx
      rw [Function.update_self] at hn
      cases hn
    · rwa [Function.update_of_ne hx] at hn

theorem watchEvents_deletes (s : Discovery) (deletes : List String) (rev : Nat) :
    node ∈ (s.watchEvents deletes rev evs).2 ↔ node ∈ deletes ∨ .delete node ∈ evs := by
  induction evs generalizing s deletes rev with
  | nil => simp only [watchEvents, List.not_mem_nil, or_false]
  | cons ev evs ih =>
    rw [watchEvents, ih, List.mem_cons]
    cases ev with
    | delete x =>
      simp only [watchEvent, List.mem_append, List.mem_singleton, NodeEvent.delete.injEq, or_assoc]
    | put x address =>
      have hd : (s.watchEvent deletes (rev + 1) (.put x address)).2 = deletes := by
        simp only [watchEvent]
        split
        · split <;> rfl
        · rfl
      rw [hd]
      simp only [reduceCtorEq, false_or]

theorem Midway.events (h : s.Midway (nodesAt history rev) deletes)
    (hevs : ∀ k, k < evs.length → history[rev + k]? = evs[k]?) :
    (s.watchEvents deletes rev evs).1.Midway (nodesAt history (rev + evs.length))
      (s.watchEvents deletes rev evs).2 := by
  induction evs generalizing s deletes rev with
  | nil => exact h
  | cons ev evs ih =>
    have hev : history[rev]? = some ev := hevs 0 (Nat.zero_lt_succ _)
    have ht := ih (h.event hev) fun k hk => by
      have hk' := hevs (k + 1) (Nat.succ_lt_succ hk)
      rwa [List.getElem?_cons_succ, ← Nat.add_assoc, Nat.add_right_comm] at hk'
    rw [List.length_cons, ← Nat.add_assoc, Nat.add_right_comm]
    exact ht

/-- The end of a batch: the service agrees with etcd exactly when no node deleted by the batch
exists after it. -/
theorem Midway.agrees_iff {nodes : NodeMap} (h : s.Midway nodes deletes) :
    (s.clusterReloadNodes deletes).Agrees nodes ↔ ∀ node ∈ deletes, nodes node = none := by
  constructor
  · intro ha node hd
    cases hn : nodes node with
    | none => rfl
    | some info =>
      have hp := ha.present node info hn
      simp only [clusterReloadNodes, if_pos hd] at hp
      cases hp
  · intro hd
    refine ⟨h.mapNode, fun node info hn => ?_, fun node hn => absent_iff.mpr ?_⟩
    · have hnd : node ∉ deletes := fun hm => by
        rw [hd node hm] at hn
        cases hn
      simp only [clusterReloadNodes, if_neg hnd, h.mapNode, hn]
    · rintro ⟨a, ha⟩
      simp only [clusterReloadNodes] at ha
      split at ha
      · cases ha
      · next hnd =>
        rw [h.mapNode, hn] at ha
        exact (h.absent node hn).elim hnd fun hs => hs ⟨a, ha⟩

theorem batch_getElem? (s : Discovery) (h : k < (s.batch rev n).length) :
    s.history[rev + k]? = (s.batch rev n)[k]? := by
  have hk : k < n := Nat.lt_of_lt_of_le h (List.length_take_le _ _)
  rw [batch, List.getElem?_take, if_pos hk, List.getElem?_drop]

theorem batch_length (s : Discovery) (h : rev + n ≤ s.history.length) :
    (s.batch rev n).length = n := by
  rw [batch, List.length_take, List.length_drop]
  omega

theorem watchBatch_agrees (h : s.Agrees (nodesAt s.history s.seen))
    (hn : s.seen + n ≤ s.history.length) :
    (s.watchBatch s.seen (s.batch s.seen n)).Agrees (nodesAt s.history (s.seen + n)) ↔
      s.NoneBack n := by
  have hbatch (k : Nat) (hk : k < (s.batch s.seen n).length) :
      s.history[s.seen + k]? = (s.batch s.seen n)[k]? :=
    s.batch_getElem? hk
  have hm := h.midway.events hbatch
  rw [s.batch_length hn] at hm
  have hiff := hm.agrees_iff
  simp only [watchEvents_deletes, List.not_mem_nil, false_or] at hiff
  refine Iff.trans ?_ hiff
  exact ⟨fun ha => ha.congr rfl rfl, fun ha => ha.congr rfl rfl⟩

theorem watchEvent_frame (s : Discovery) (deletes : List String) (rev : Nat) (ev : NodeEvent) :
    (s.watchEvent deletes rev ev).1.history = s.history ∧
    (s.watchEvent deletes rev ev).1.revision = s.revision ∧
    (s.watchEvent deletes rev ev).1.settled = s.settled := by
  cases ev with
  | delete x => exact ⟨rfl, rfl, rfl⟩
  | put x address =>
    simp only [watchEvent]
    split
    · split <;> exact ⟨rfl, rfl, rfl⟩
    · exact ⟨rfl, rfl, rfl⟩

theorem watchEvents_frame (s : Discovery) (deletes : List String) (rev : Nat)
    (evs : List NodeEvent) :
    (s.watchEvents deletes rev evs).1.history = s.history ∧
    (s.watchEvents deletes rev evs).1.revision = s.revision ∧
    (s.watchEvents deletes rev evs).1.settled = s.settled := by
  induction evs generalizing s deletes rev with
  | nil => exact ⟨rfl, rfl, rfl⟩
  | cons ev evs ih =>
    obtain ⟨hh, hr, hs⟩ := s.watchEvent_frame deletes (rev + 1) ev
    obtain ⟨hh', hr', hs'⟩ := ih (s.watchEvent deletes (rev + 1) ev).1
      (s.watchEvent deletes (rev + 1) ev).2 (rev + 1)
    exact ⟨hh'.trans hh, hr'.trans hr, hs'.trans hs⟩

/-- A service that watches has completed a query, and it has seen no more than there is. -/
structure Inv (s : Discovery) : Prop where
  seen : s.seen ≤ s.history.length
  watching : s.watching = true → s.settled = true
  converged : s.Converged

theorem Inv.agrees (h : s.Inv) (hs : s.settled = true) :
    s.Agrees (nodesAt s.history s.seen) := by
  obtain ⟨r, hr, ha⟩ := h.converged hs
  rwa [Discovery.seen, hr]

theorem Inv.change (h : s.Inv) (ev : NodeEvent) : Inv { s with history := s.history ++ [ev] } := by
  have hseen := h.seen
  refine ⟨?_, h.watching, fun hs => ?_⟩
  · simp only [Discovery.seen, List.length_append] at hseen ⊢
    omega
  · obtain ⟨r, hr, ha⟩ := h.converged hs
    rw [Discovery.seen, hr] at hseen
    exact ⟨r, hr, (nodesAt_append [ev] hseen).symm ▸ ha.congr rfl rfl⟩

theorem Inv.query (hg : s.NoneGone r) (hr : r ≤ s.history.length) :
    Inv { s.firstQueryNodes r with watching := true } := by
  have ha := (s.firstQueryNodes_agrees r).mpr hg
  exact ⟨hr, fun _ => rfl, fun _ => ⟨r, rfl, ha.congr rfl rfl⟩⟩

theorem Inv.batch (h : s.Inv) (hw : s.watching = true) (hb : s.NoneBack n)
    (hn : s.seen + n ≤ s.history.length) : Inv (s.watchBatch s.seen (s.batch s.seen n)) := by
  have hs := h.watching hw
  have ha := (watchBatch_agrees (h.agrees hs) hn).mpr hb
  obtain ⟨hh, _, hset⟩ := s.watchEvents_frame [] s.seen (s.batch s.seen n)
  have hh' : (s.watchBatch s.seen (s.batch s.seen n)).history = s.history := hh
  refine ⟨?_, fun _ => ?_, fun _ => ?_⟩
  · have hseen : (s.watchBatch s.seen (s.batch s.seen n)).seen = s.seen + n :=
      congrArg (s.seen + ·) (s.batch_length hn)
    rwa [hh', hseen]
  · exact hset.trans hs
  · refine ⟨s.seen + n, ?_, ?_⟩
    · simp only [watchBatch, s.batch_length hn]
    · rw [hh']
      exact ha

theorem Inv.step (h : s.Inv) (hok : s.Plain a) (ht : s.step a = some t) : t.Inv := by
  cases a with
  | change ev =>
    cases ht
    exact h.change ev
  | query r =>
    obtain ⟨⟨_, _, hr⟩, ht⟩ := Option.ite_none_right_eq_some.mp ht
    cases ht
    exact .query hok hr
  | batch n =>
    obtain ⟨⟨hw, hn⟩, ht⟩ := Option.ite_none_right_eq_some.mp ht
    cases ht
    exact h.batch hw hok hn
  | interrupt =>
    cases ht
    refine ⟨h.seen, fun hw => (by cases hw), fun hs => ?_⟩
    obtain ⟨r, hr, ha⟩ := h.converged hs
    exact ⟨r, hr, ha.congr rfl rfl⟩
  | fail n k =>
    obtain ⟨_, ht⟩ := Option.ite_none_right_eq_some.mp ht
    cases ht
    obtain ⟨hh, hr, _⟩ := s.watchEvents_frame [] s.seen ((s.batch s.seen n).take k)
    refine ⟨?_, fun hw => (by cases hw), fun hs => (by cases hs)⟩
    have hle : s.revision.getD 0 ≤ s.history.length := h.seen
    rw [← hr, ← hh] at hle
    exact hle

/-- A node restarts under a new address, and both changes arrive in one batch. -/
def restarted : Discovery :=
  system.run anyStep start
    [.query 0, .change (.put "a" "h1:7"), .batch 1, .change (.delete "a"),
      .change (.put "a" "h2:7"), .batch 2] (by decide +kernel)

end Discovery

end Skyext
