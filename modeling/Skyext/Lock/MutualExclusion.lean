import Skyext.Lock.Invariant

namespace Skyext
set_option autoImplicit true

/-- The key etcd stores is its newest incarnation, and an incarnation under a live lease is
only ever removed after some process asked for it. -/
structure EtcdInv (e : Etcd) (epochs : NodeId → Nat) (sent : Nat → Prop) : Prop where
  bound : ∀ k ∈ e.history, 0 < k.createRevision ∧ k.createRevision ≤ e.revision
  inj : ∀ k ∈ e.history, ∀ k' ∈ e.history, k.createRevision = k'.createRevision → k = k'
  epoch : ∀ k ∈ e.history, k.lease.epoch ≤ epochs k.lease.node
  current : ∀ k, e.key = some k →
    k ∈ e.history ∧ e.live k.lease = true ∧ ∀ k' ∈ e.history, k'.createRevision ≤ k.createRevision
  kept : ∀ k ∈ e.history, e.live k.lease = true → ¬ sent k.createRevision → e.key = some k
  granted : ∀ l, e.live l = true → l.epoch ≤ epochs l.node

theorem EtcdInv.mono (h : EtcdInv e epochs sent) (hs : ∀ f, sent f → sent' f) :
    EtcdInv e epochs sent' :=
  { h with kept := fun k hk hl hn => h.kept k hk hl fun hf => hn (hs _ hf) }

theorem EtcdInv.absent (h : EtcdInv e epochs sent) (he : e.createRevision = 0) :
    e.key = none := by
  cases hk : e.key with
  | none => rfl
  | some k =>
    have hpos := (h.bound k (h.current k hk).1).1
    simp only [Etcd.createRevision, hk, Option.map_some, Option.getD_some] at he
    omega

theorem EtcdInv.put (h : EtcdInv e epochs sent) (hk : e.key = none)
    (hl : e.live lease = true) :
    EtcdInv { e with
      revision := e.revision + 1
      key := some ⟨e.revision + 1, lease, value⟩
      history := ⟨e.revision + 1, lease, value⟩ :: e.history } epochs sent where
  bound k hm := by
    rcases List.mem_cons.mp hm with rfl | hm
    · exact ⟨Nat.succ_pos _, Nat.le_refl _⟩
    · exact ⟨(h.bound k hm).1, Nat.le_succ_of_le (h.bound k hm).2⟩
  inj k hm k' hm' he := by
    rcases List.mem_cons.mp hm with rfl | hm <;> rcases List.mem_cons.mp hm' with rfl | hm'
    · rfl
    · have := (h.bound k' hm').2
      simp only at he
      omega
    · have := (h.bound k hm).2
      simp only at he
      omega
    · exact h.inj k hm k' hm' he
  epoch k hm := by
    rcases List.mem_cons.mp hm with rfl | hm
    · exact h.granted _ hl
    · exact h.epoch k hm
  current k he := by
    cases he
    refine ⟨List.mem_cons_self, hl, fun k' hm => ?_⟩
    rcases List.mem_cons.mp hm with rfl | hm
    · exact Nat.le_refl _
    · exact Nat.le_succ_of_le (h.bound k' hm).2
  kept k hm hl' hn := by
    rcases List.mem_cons.mp hm with rfl | hm
    · rfl
    · rw [h.kept k hm hl' hn] at hk
      cases hk
  granted := h.granted

theorem EtcdInv.delete (h : EtcdInv e epochs sent) (hk : e.key = some k)
    (hs : sent k.createRevision) :
    EtcdInv { e with revision := e.revision + 1, key := none } epochs sent where
  bound k' hm := ⟨(h.bound k' hm).1, Nat.le_succ_of_le (h.bound k' hm).2⟩
  inj := h.inj
  epoch := h.epoch
  current _ he := by cases he
  kept k' hm hl hn := by
    have he := h.kept k' hm hl hn
    rw [hk] at he
    cases he
    exact absurd hs hn
  granted := h.granted

theorem EtcdInv.grant (h : EtcdInv e epochs sent) (n : NodeId) :
    EtcdInv (e.grant ⟨n, epochs n + 1⟩) (Function.update epochs n (epochs n + 1)) sent := by
  have hle : ∀ m, epochs m ≤ Function.update epochs n (epochs n + 1) m := by
    intro m
    by_cases hm : m = n
    · subst m
      simp
    · simp [hm]
  have hne : ∀ k ∈ e.history, k.lease ≠ ⟨n, epochs n + 1⟩ := by
    intro k hk he
    have hle := h.epoch k hk
    rw [he] at hle
    exact absurd hle (Nat.not_succ_le_self _)
  have hlive : ∀ k ∈ e.history, (e.grant ⟨n, epochs n + 1⟩).live k.lease = e.live k.lease :=
    fun k hk => Function.update_of_ne (hne k hk) ..
  refine ⟨h.bound, h.inj, fun k hk => Nat.le_trans (h.epoch k hk) (hle _), ?_, ?_, ?_⟩
  · intro k hk
    obtain ⟨hm, hl, hlast⟩ := h.current k hk
    exact ⟨hm, (hlive k hm).trans hl, hlast⟩
  · intro k hk hl hn
    exact h.kept k hk ((hlive k hk).symm.trans hl) hn
  · intro l hl
    by_cases he : l = ⟨n, epochs n + 1⟩
    · subst l
      simp
    · refine Nat.le_trans (h.granted l ?_) (hle _)
      simpa only [Etcd.grant, Function.update_of_ne he] using hl

theorem EtcdInv.expire (h : EtcdInv e epochs sent) (l : LeaseId) :
    EtcdInv (e.expire l) epochs sent := by
  have hlive : ∀ l', (Function.update e.live l false) l' = true → e.live l' = true ∧ l' ≠ l := by
    intro l' hl
    by_cases he : l' = l
    · subst l'
      simp at hl
    · rw [Function.update_of_ne he] at hl
      exact ⟨hl, he⟩
  have hother : ∀ k, e.key = some k → k.lease ≠ l →
      Function.update e.live l false k.lease = true := by
    intro k hk hne
    rw [Function.update_of_ne hne]
    exact (h.current k hk).2.1
  unfold Etcd.expire
  split
  · rename_i k hk
    split
    · rename_i hkl
      refine ⟨fun k' hm => ⟨(h.bound k' hm).1, Nat.le_succ_of_le (h.bound k' hm).2⟩, h.inj,
        h.epoch, fun _ he => ?_, ?_, fun l' hl => h.granted l' (hlive l' hl).1⟩
      · cases he
      intro k' hm hl hn
      have he := h.kept k' hm (hlive _ hl).1 hn
      rw [hk] at he
      cases he
      exact absurd hkl (hlive _ hl).2
    · rename_i hne
      refine ⟨h.bound, h.inj, h.epoch, ?_, fun k' hm hl hn => h.kept k' hm (hlive _ hl).1 hn,
        fun l' hl => h.granted l' (hlive l' hl).1⟩
      intro k' hk'
      have he : k' = k := Option.some.inj (hk'.symm.trans hk)
      subst he
      exact ⟨(h.current k' hk).1, hother k' hk hne, (h.current k' hk).2.2⟩
  · rename_i hk
    refine ⟨h.bound, h.inj, h.epoch, fun k' hk' => ?_,
      fun k' hm hl hn => h.kept k' hm (hlive _ hl).1 hn,
      fun l' hl => h.granted l' (hlive l' hl).1⟩
    rw [hk] at hk'
    cases hk'

/-- A process knows its own leases, and every handle it holds names an incarnation of the key
under the lease of the handle's epoch. -/
structure NodeInv (e : Etcd) (epochs : NodeId → Nat) (sent : Nat → Prop) (n : NodeId)
    (called : Nat → Prop) (m : LockModule) : Prop where
  lease : ∀ l, m.lease.leaseid = some l →
    l = ⟨n, m.lease.epoch⟩ ∧ (m.lease.elapsed = false → e.live l = true)
  epoch : m.lease.epoch ≤ epochs n
  origin : ∀ (h : Nat) (x : LockHandle), m.handles[h]? = some x →
    ∃ k ∈ e.history, k.createRevision = x.fence ∧ k.lease = ⟨n, x.epoch⟩
  table : ∀ h, m.gLocks = some h →
    ∃ x, m.handles[h]? = some x ∧ (sent x.fence → called h)

theorem NodeInv.shrink (h : NodeInv e epochs sent n called m) (hs : m.Shrinks m') :
    NodeInv e epochs sent n called m' where
  lease l hl := by
    rcases hs.lease with he | ⟨hn, _⟩
    · rw [he] at hl ⊢
      exact h.lease l hl
    · rw [hn] at hl
      cases hl
  epoch := by
    rcases hs.lease with he | ⟨_, he⟩ <;> rw [he] <;> exact h.epoch
  origin i x' hx := by
    obtain ⟨x, hx, hf, he⟩ := hs.handle i x' hx
    rw [hf, he]
    exact h.origin i x hx
  table i hi := by
    rcases hs.locks with he | he
    · obtain ⟨x, hx, hc⟩ := h.table i (he.symm.trans hi)
      have hlt : i < m'.handles.length := by
        rw [hs.length]
        exact (List.getElem?_eq_some_iff.mp hx).1
      obtain ⟨x₀, hx₀, hf, _⟩ := hs.handle i _ (List.getElem?_eq_getElem hlt)
      rw [hx] at hx₀
      cases hx₀
      exact ⟨_, List.getElem?_eq_getElem hlt, fun hs => hc (hf ▸ hs)⟩
    · rw [he] at hi
      cases hi

/-- Steps elsewhere: etcd keeps its history, and the lease a process may rely on stays alive. -/
theorem NodeInv.frame (h : NodeInv e epochs sent n called m)
    (hh : ∀ k ∈ e.history, k ∈ e'.history) (hep : epochs n ≤ epochs' n)
    (hl : m.leaseValid = true → e.live ⟨n, m.lease.epoch⟩ = true →
      e'.live ⟨n, m.lease.epoch⟩ = true)
    (hc : ∀ (i : Nat) (x : LockHandle), m.gLocks = some i → m.handles[i]? = some x →
      (sent x.fence → called i) → sent' x.fence → called' i) :
    NodeInv e' epochs' sent' n called' m where
  lease l he := by
    obtain ⟨heq, hlive⟩ := h.lease l he
    refine ⟨heq, fun hel => ?_⟩
    subst heq
    exact hl (by simp [LockModule.leaseValid, he, hel]) (hlive hel)
  epoch := Nat.le_trans h.epoch hep
  origin i x hx := by
    obtain ⟨k, hk, hf⟩ := h.origin i x hx
    exact ⟨k, hh k hk, hf⟩
  table i hi := by
    obtain ⟨x, hx, hs⟩ := h.table i hi
    exact ⟨x, hx, hc i x hi hx hs⟩

theorem NodeInv.install (h : NodeInv e epochs sent n called m) {c : LockModule.TryLockCall}
    (ho : ∃ k ∈ e.history, k.createRevision = f ∧ k.lease = ⟨n, c.epoch⟩) (hs : ¬ sent f) :
    NodeInv e epochs sent n called (m.install c f) where
  lease := h.lease
  epoch := h.epoch
  origin i x hx := by
    simp only [LockModule.install, List.getElem?_append, List.getElem?_singleton] at hx
    split at hx
    · exact h.origin i x hx
    · split at hx <;> cases hx
      exact ho
  table i hi := by
    cases hi
    exact ⟨⟨f, c.leaseid, c.epoch, true⟩, by simp [LockModule.install], fun hf => absurd hf hs⟩

theorem NodeInv.alive (h : NodeInv e epochs sent n called m) (hle : ep ≤ epochs n)
    (hl : late = true ∨ e.live ⟨n, ep⟩ = true) :
    NodeInv e epochs sent n called (m.onLeaseAlive ⟨n, ep⟩ ep late) := by
  have hc : NodeInv e epochs sent n called (if ep ≠ m.lease.epoch then m.clear else m) := by
    split
    · exact h.shrink m.clear_shrinks
    · exact h
  refine ⟨fun l he => ?_, hle, hc.origin, hc.table⟩
  cases he
  refine ⟨rfl, fun hel => ?_⟩
  rcases hl with ht | hl
  · simp only [LockModule.onLeaseAlive] at hel
    rw [hel] at ht
    cases ht
  · exact hl

namespace LockCluster

variable {s : LockCluster}

structure Inv (s : LockCluster) : Prop where
  etcd : EtcdInv s.etcd s.epochs s.UnlockSent
  node : ∀ n, NodeInv s.etcd s.epochs s.UnlockSent n (s.UnlockCalled n) (s.nodes n)
  call : ∀ n t, (n, .tryLock t) ∈ s.calls → t.leaseid = ⟨n, t.epoch⟩
  inflight : ∀ c t, (c, t) ∈ s.inflight → ∃ n call, s.calls[c]? = some (n, call) ∧ t = call.txn
  reply : ∀ c r n t f, (c, some r) ∈ s.replies → s.calls[c]? = some (n, .tryLock t) →
    LockModule.grantedRevision t r = .ok f →
    ∃ k ∈ s.etcd.history, k.createRevision = f ∧ k.lease = t.leaseid
  replied : ∀ p ∈ s.replies, p.1 < s.calls.length
  origin : ∀ p ∈ s.granted, ∃ k ∈ s.etcd.history, k.createRevision = p.2 ∧ k.lease.node = p.1
  sorted : s.granted.Pairwise fun p q => q.2 ≤ p.2

theorem Inv.empty : Inv empty where
  etcd := ⟨by simp [LockCluster.empty], by simp [LockCluster.empty], by simp [LockCluster.empty],
    by simp [LockCluster.empty], by simp [LockCluster.empty], by simp [LockCluster.empty]⟩
  node n := ⟨by simp [LockCluster.empty, LockModule.fresh],
    by simp [LockCluster.empty, LockModule.fresh],
    by simp [LockCluster.empty, LockModule.fresh],
    by simp [LockCluster.empty, LockModule.fresh]⟩
  call := by simp [LockCluster.empty]
  inflight := by simp [LockCluster.empty]
  reply := by simp [LockCluster.empty]
  replied := by simp [LockCluster.empty]
  origin := by simp [LockCluster.empty]
  sorted := .nil

theorem Inv.setNode (h : Inv s) (hm : NodeInv s.etcd s.epochs s.UnlockSent n (s.UnlockCalled n) m) :
    Inv (s.setNode n m) :=
  { h with
    node := fun k => by
      change NodeInv s.etcd s.epochs s.UnlockSent k (s.UnlockCalled k)
        (Function.update s.nodes n m k)
      by_cases hk : k = n
      · subst k
        rwa [Function.update_self]
      · rw [Function.update_of_ne hk]
        exact h.node k }

theorem calls_send {c : Nat} {p : NodeId × LockCall} (hc : s.calls[c]? = some p) :
    (s.send n lc).calls[c]? = some p := by
  have hlt := (List.getElem?_eq_some_iff.mp hc).1
  rw [send, List.getElem?_append_left hlt, hc]

theorem Inv.inflight_send (h : Inv s) : ∀ c t, (c, t) ∈ (s.send n lc).inflight →
    ∃ m k, (s.send n lc).calls[c]? = some (m, k) ∧ t = k.txn := by
  intro c t hm
  rcases List.mem_append.mp hm with hm | hm
  · obtain ⟨m, k, hc, ht⟩ := h.inflight c t hm
    exact ⟨m, k, calls_send hc, ht⟩
  · simp only [List.mem_singleton, Prod.mk.injEq] at hm
    obtain ⟨rfl, rfl⟩ := hm
    exact ⟨n, lc, by simp [send], rfl⟩

theorem Inv.reply_send (h : Inv s) : ∀ c r m t f, (c, some r) ∈ (s.send n lc).replies →
    (s.send n lc).calls[c]? = some (m, .tryLock t) →
    LockModule.grantedRevision t r = .ok f →
    ∃ k ∈ (s.send n lc).etcd.history, k.createRevision = f ∧ k.lease = t.leaseid := by
  intro c r m t f hm hc hf
  refine h.reply c r m t f hm ?_ hf
  rwa [send, List.getElem?_append_left (h.replied _ hm)] at hc

theorem Inv.replied_send (h : Inv s) : ∀ p ∈ (s.send n lc).replies,
    p.1 < (s.send n lc).calls.length := by
  intro p hp
  simpa [send] using Nat.lt_succ_of_lt (h.replied p hp)

theorem Inv.send_tryLock (h : Inv s) (ht : t.leaseid = ⟨n, t.epoch⟩) :
    Inv (s.send n (.tryLock t)) := by
  have hsent : ∀ f, (s.send n (.tryLock t)).UnlockSent f ↔ s.UnlockSent f := by
    simp [UnlockSent, send, LockCall.fence?]
  have hcalled : ∀ m i, (s.send n (.tryLock t)).UnlockCalled m i ↔ s.UnlockCalled m i := by
    simp [UnlockCalled, send, LockCall.handle?]
  refine ⟨h.etcd.mono fun f hf => (hsent f).mpr hf, fun m => ?_, fun m t' hm => ?_,
    h.inflight_send, h.reply_send, h.replied_send, h.origin, h.sorted⟩
  · refine (h.node m).frame (fun _ hk => hk) (Nat.le_refl _) (fun _ hl => hl) ?_
    intro i x _ _ hc hf
    exact (hcalled m i).mpr (hc ((hsent _).mp hf))
  · rcases List.mem_append.mp hm with hm | hm
    · exact h.call m t' hm
    · simp only [List.mem_singleton, Prod.mk.injEq, LockCall.tryLock.injEq] at hm
      obtain ⟨rfl, rfl⟩ := hm
      exact ht

theorem Inv.send_unlock (h : Inv s) (hx : (s.nodes n).handles[i]? = some x)
    (hg : (s.nodes n).gLocks = some i) : Inv (s.send n (.unlock i x.fence)) := by
  have hsent : ∀ f, (s.send n (.unlock i x.fence)).UnlockSent f ↔
      s.UnlockSent f ∨ f = x.fence := by
    intro f
    constructor
    · rintro ⟨p, hp, hf⟩
      rcases List.mem_append.mp hp with hp | hp
      · exact .inl ⟨p, hp, hf⟩
      · rw [List.mem_singleton.mp hp] at hf
        exact .inr (Option.some.inj hf).symm
    · rintro (⟨p, hp, hf⟩ | rfl)
      · exact ⟨p, List.mem_append_left _ hp, hf⟩
      · exact ⟨_, List.mem_append_right _ List.mem_cons_self, rfl⟩
  have hcalled : ∀ m j, s.UnlockCalled m j → (s.send n (.unlock i x.fence)).UnlockCalled m j :=
    fun m j ⟨p, hp, hj⟩ => ⟨p, List.mem_append_left _ hp, hj⟩
  refine ⟨h.etcd.mono fun f hf => (hsent f).mpr (.inl hf), fun m => ?_, fun m t' hm => ?_,
    h.inflight_send, h.reply_send, h.replied_send, h.origin, h.sorted⟩
  · refine (h.node m).frame (fun _ hk => hk) (Nat.le_refl _) (fun _ hl => hl) ?_
    intro j y hj hy hc hf
    rcases (hsent _).mp hf with hf | hf
    · exact hcalled m j (hc hf)
    · -- the incarnation being deleted is named by the table entry of its owner only
      obtain ⟨k, hk, hkf, hkl⟩ := (h.node m).origin j y hy
      obtain ⟨k', hk', hkf', hkl'⟩ := (h.node n).origin i x hx
      have he : k = k' := h.etcd.inj k hk k' hk' (by rw [hkf, hkf', hf])
      subst he
      rw [hkl] at hkl'
      have hmn : m = n := congrArg LeaseId.node hkl'
      subst hmn
      rw [hg] at hj
      cases hj
      exact ⟨_, List.mem_append_right _ List.mem_cons_self, rfl, rfl⟩
  · rcases List.mem_append.mp hm with hm | hm
    · exact h.call m t' hm
    · simp at hm

/-- Delivering a reply keeps the invariant unless it installs a handle for an incarnation
that is already being deleted. -/
theorem Inv.resume (h : Inv s) (hr : s.resume c ret = some t)
    (hret : ∀ r n k f, ret = some r → s.calls[c]? = some (n, .tryLock k) →
      LockModule.grantedRevision k r = .ok f →
      ∃ i ∈ s.etcd.history, i.createRevision = f ∧ i.lease = k.leaseid)
    (hok : ∀ r n k f, ret = some r → s.calls[c]? = some (n, .tryLock k) → c ∉ s.finished →
      (s.nodes n).leaseValid = true → k.epoch = (s.nodes n).lease.epoch →
      (s.nodes n).existingValid = none → LockModule.grantedRevision k r = .ok f →
      ¬ s.UnlockSent f) : Inv t := by
  unfold LockCluster.resume at hr
  split at hr
  · cases hr
  rename_i hfin
  split at hr
  · cases hr
  · rename_i n k hc
    cases hr
    have hs : Inv { s with finished := c :: s.finished } := { h with }
    rcases (s.nodes n).tryLockReply_cases k ret with hsh | ⟨r, f, rfl, hl, he, hex, hf, hm⟩
    · have hrec : LockCluster.record { s with finished := c :: s.finished } n
          ((s.nodes n).tryLockReply k ret).1 = { s with finished := c :: s.finished } := by
        rw [record, List.getElem?_eq_none (Nat.le_of_eq hsh.length)]
      rw [hrec]
      exact hs.setNode ((h.node n).shrink hsh)
    · have hsent := hok r n k f rfl hc hfin hl he hex hf
      obtain ⟨i, hi, hif, hil⟩ := hret r n k f rfl hc hf
      have hkl := h.call n k (List.mem_of_getElem? hc)
      obtain ⟨l, hleq, hel⟩ := LockModule.leaseValid_spec hl
      have hlive := (((h.node n).lease l hleq).2 hel)
      rw [((h.node n).lease l hleq).1, ← he] at hlive
      have hkey : s.etcd.key = some i :=
        h.etcd.kept i hi (by rw [hil, hkl]; exact hlive) (hif ▸ hsent)
      rw [hm]
      have hrec : LockCluster.record { s with finished := c :: s.finished } n
          ((s.nodes n).install k f) =
          { s with finished := c :: s.finished, granted := (n, f) :: s.granted } := by
        simp [record, LockModule.install]
      rw [hrec]
      have horigin : ∃ i ∈ s.etcd.history, i.createRevision = f ∧ i.lease = ⟨n, k.epoch⟩ :=
        ⟨i, hi, hif, hil.trans hkl⟩
      have hg : Inv { s with finished := c :: s.finished, granted := (n, f) :: s.granted } :=
        { h with
          origin := fun p hp => by
            rcases List.mem_cons.mp hp with rfl | hp
            · exact ⟨i, hi, hif, by rw [hil, hkl]⟩
            · exact h.origin p hp
          sorted := by
            refine .cons (fun p hp => ?_) h.sorted
            obtain ⟨j, hj, hjf, _⟩ := h.origin p hp
            rw [← hjf, ← hif]
            exact (h.etcd.current i hkey).2.2 j hj }
      exact hg.setNode ((h.node n).install horigin hsent)
  · rename_i n i f hc
    cases hr
    have hs : Inv { s with finished := c :: s.finished } := { h with }
    exact hs.setNode ((h.node n).shrink ((s.nodes n).unlockReply_shrinks i ret))

/-- What etcd may do with the transaction of a suspended call: history only grows, leases stay
as they are, and an acquisition it grants names an incarnation under the caller's lease. -/
structure Executed (e e' : Etcd) (ret : Option TxnReply) (lc : LockCall) : Prop where
  history : ∀ k ∈ e.history, k ∈ e'.history
  live : e'.live = e.live
  granted : ∀ t r f, lc = .tryLock t → ret = some r → LockModule.grantedRevision t r = .ok f →
    ∃ k ∈ e'.history, k.createRevision = f ∧ k.lease = t.leaseid

theorem execute_tryLock (h : EtcdInv e ep sent) (t : LockModule.TryLockCall) :
    EtcdInv (e.txn t.txn).1 ep sent ∧
      Executed e (e.txn t.txn).1 (e.txn t.txn).2 (.tryLock t) := by
  unfold Etcd.txn LockModule.TryLockCall.txn
  by_cases hm : e.createRevision = 0
  · simp only [hm, decide_true, if_true, Etcd.apply]
    by_cases hl : e.live t.leaseid = true
    · simp only [hl, if_true]
      refine ⟨h.put (h.absent hm) hl, fun _ hk => List.mem_cons_of_mem _ hk, rfl, ?_⟩
      intro t' r f he hr hf
      cases he
      cases hr
      cases hf
      exact ⟨_, List.mem_cons_self, rfl, rfl⟩
    · simp only [hl]
      exact ⟨h, fun _ hk => hk, rfl, fun _ _ _ _ hr => by cases hr⟩
  · simp only [hm, decide_false, Etcd.apply]
    refine ⟨h, fun _ hk => hk, rfl, fun t' r f he hr hf => ?_⟩
    cases he
    cases hr
    rcases LockModule.grantedRevision_spec hf with ⟨hs, _⟩ | ⟨k, _, hk, hkl, hkf⟩
    · cases hs
    · exact ⟨k, (h.current k hk).1, hkf, hkl⟩

theorem execute_unlock (h : EtcdInv e ep sent) (hs : sent fence) :
    EtcdInv (e.txn (LockModule.unlockTxn fence)).1 ep sent ∧
      Executed e (e.txn (LockModule.unlockTxn fence)).1 ret (.unlock i fence) := by
  unfold Etcd.txn LockModule.unlockTxn
  have hret : ∀ (t : LockModule.TryLockCall) (r : TxnReply) (f : Nat),
      LockCall.unlock i fence = .tryLock t → ret = some r →
      LockModule.grantedRevision t r = .ok f →
      ∃ k ∈ e.history, k.createRevision = f ∧ k.lease = t.leaseid := by
    intro t r f he
    cases he
  by_cases hm : e.createRevision = fence
  · simp only [hm, decide_true, if_true, Etcd.apply]
    cases hk : e.key with
    | none => exact ⟨h, fun _ hk => hk, rfl, hret⟩
    | some k =>
      refine ⟨h.delete hk ?_, fun _ hk => hk, rfl, hret⟩
      rwa [← hm, Etcd.createRevision, hk] at hs
  · simp only [hm, decide_false, Etcd.apply]
    exact ⟨h, fun _ hk => hk, rfl, hret⟩

theorem Inv.execute (h : Inv s) (hi : s.inflight[i]? = some (c, t)) :
    Inv { s with
      etcd := (s.etcd.txn t).1
      inflight := s.inflight.eraseIdx i
      replies := s.replies ++ [(c, (s.etcd.txn t).2)] } := by
  obtain ⟨n, lc, hc, ht⟩ := h.inflight c t (List.mem_of_getElem? hi)
  have hx : EtcdInv (s.etcd.txn t).1 s.epochs s.UnlockSent ∧
      Executed s.etcd (s.etcd.txn t).1 (s.etcd.txn t).2 lc := by
    subst ht
    cases lc with
    | tryLock k => exact execute_tryLock h.etcd k
    | unlock j f => exact execute_unlock h.etcd ⟨_, List.mem_of_getElem? hc, rfl⟩
  obtain ⟨hetcd, hex⟩ := hx
  refine ⟨hetcd, fun m => ?_, h.call, fun c' t' hm => ?_, ?_, ?_, fun p hp => ?_, h.sorted⟩
  · refine (h.node m).frame hex.history (Nat.le_refl _) (fun _ hl => ?_) fun _ _ _ _ hc => hc
    rw [hex.live]
    exact hl
  · exact h.inflight c' t' (List.mem_of_mem_eraseIdx hm)
  · intro c' r m k f hm hc' hf
    rcases List.mem_append.mp hm with hm | hm
    · obtain ⟨j, hj, hjf⟩ := h.reply c' r m k f hm hc' hf
      exact ⟨j, hex.history j hj, hjf⟩
    · simp only [List.mem_singleton, Prod.mk.injEq] at hm
      obtain ⟨rfl, hret⟩ := hm
      have hlc : (n, lc) = (m, .tryLock k) := Option.some.inj (hc.symm.trans hc')
      cases hlc
      exact hex.granted k r f rfl hret.symm hf
  · intro p hp
    rcases List.mem_append.mp hp with hp | hp
    · exact h.replied p hp
    · simp only [List.mem_singleton] at hp
      subst hp
      exact (List.getElem?_eq_some_iff.mp hc).1
  · obtain ⟨k, hk, hf⟩ := h.origin p hp
    exact ⟨k, hex.history k hk, hf⟩

theorem Inv.resend (h : Inv s) (hc : s.calls[c]? = some p) :
    Inv { s with inflight := s.inflight ++ [(c, p.2.txn)] } :=
  { h with
    inflight := fun c' t hm => by
      rcases List.mem_append.mp hm with hm | hm
      · exact h.inflight c' t hm
      · simp only [List.mem_singleton, Prod.mk.injEq] at hm
        obtain ⟨rfl, rfl⟩ := hm
        exact ⟨p.1, p.2, hc, rfl⟩ }

theorem Inv.replies_subset (h : Inv s) (hs : ∀ p ∈ replies', p ∈ s.replies) :
    Inv { s with replies := replies' } :=
  { h with
    reply := fun c r n t f hm => h.reply c r n t f (hs _ hm)
    replied := fun p hp => h.replied p (hs p hp) }

theorem Inv.grant (h : Inv s) (n : NodeId) : Inv { s with
    epochs := Function.update s.epochs n (s.epochs n + 1)
    etcd := s.etcd.grant ⟨n, s.epochs n + 1⟩ } :=
  { h with
    etcd := h.etcd.grant n
    node := fun m => by
      refine (h.node m).frame (fun _ hk => hk) ?_ (fun _ hl => ?_) fun _ _ _ _ hc => hc
      · by_cases hm : m = n
        · subst m
          simp
        · simp [hm]
      · by_cases he : (⟨m, (s.nodes m).lease.epoch⟩ : LeaseId) = ⟨n, s.epochs n + 1⟩
        · rw [he]
          simp [Etcd.grant]
        · simpa only [Etcd.grant, Function.update_of_ne he] using hl }

theorem Inv.expire (h : Inv s) (he : s.expirable l = true) :
    Inv { s with etcd := s.etcd.expire l } := by
  have hh : (s.etcd.expire l).history = s.etcd.history := by
    unfold Etcd.expire
    split
    · split <;> rfl
    · rfl
  have hl : (s.etcd.expire l).live = Function.update s.etcd.live l false := by
    unfold Etcd.expire
    split
    · split <;> rfl
    · rfl
  refine ⟨h.etcd.expire l, fun n => ?_, h.call, h.inflight, ?_, h.replied, ?_, h.sorted⟩
  · refine (h.node n).frame (fun _ hk => hh ▸ hk) (Nat.le_refl _) (fun hv hlive => ?_)
      fun _ _ _ _ hc => hc
    rw [hl, Function.update_of_ne]
    · exact hlive
    · intro heq
      obtain ⟨l', hl', _⟩ := LockModule.leaseValid_spec hv
      have hid := ((h.node n).lease l' hl').1
      subst heq
      simp only [expirable, hv, Bool.true_and, Bool.not_eq_true', beq_eq_false_iff_ne] at he
      exact he (hl'.trans (congrArg some hid))
  · intro c r n t f
    rw [hh]
    exact h.reply c r n t f
  · intro p
    rw [hh]
    exact h.origin p

theorem NoReadoption.fresh {i c : Nat} (hok : s.NoReadoption (.reply i))
    (hi : s.replies[i]? = some (c, some r))
    (hc : s.calls[c]? = some (n, .tryLock k)) (hfin : c ∉ s.finished)
    (hl : (s.nodes n).leaseValid = true) (he : k.epoch = (s.nodes n).lease.epoch)
    (hex : (s.nodes n).existingValid = none)
    (hf : LockModule.grantedRevision k r = .ok f) : ¬ s.UnlockSent f := by
  intro hs
  simp [NoReadoption, readopts, hi, hc, hf, hfin, hl, he, hex, hs] at hok

theorem Inv.step (h : Inv s) (hok : s.NoReadoption a) (hs : s.step a = some t) : Inv t := by
  cases a with
  | tryLock n value =>
    obtain ⟨hsh, hc⟩ := (s.nodes n).tryLockStart_cases value
    simp only [LockCluster.step] at hs
    split at hs <;> rename_i m x hm <;> cases hs <;> rw [hm] at hsh hc
    · exact h.setNode ((h.node n).shrink hsh)
    · obtain ⟨hl, he⟩ := hc x rfl
      refine (h.setNode ((h.node n).shrink hsh)).send_tryLock ?_
      rw [((h.node n).lease _ hl).1, he]
  | unlock n i =>
    obtain ⟨hsh, hc⟩ := (s.nodes n).unlockStart_cases i
    simp only [LockCluster.step] at hs
    split at hs <;> rename_i m x hm <;> cases hs <;> rw [hm] at hsh hc
    · exact h.setNode ((h.node n).shrink hsh)
    · obtain ⟨y, hy, rfl, hg, rfl⟩ := hc x rfl
      have hn : (s.setNode n (s.nodes n)).nodes n = s.nodes n := by
        simp [LockCluster.setNode]
      exact (h.setNode ((h.node n).shrink hsh)).send_unlock (by rwa [hn]) (by rwa [hn])
  | resend c =>
    simp only [LockCluster.step, Option.ite_none_left_eq_some, Option.map_eq_some_iff] at hs
    obtain ⟨_, p, hc, rfl⟩ := hs
    exact h.resend hc
  | execute i =>
    simp only [LockCluster.step, Option.map_eq_some_iff] at hs
    obtain ⟨p, hi, rfl⟩ := hs
    exact h.execute hi
  | lose i =>
    cases hs
    exact { h with inflight := fun c t hm => h.inflight c t (List.mem_of_mem_eraseIdx hm) }
  | loseReply i =>
    cases hs
    exact h.replies_subset fun _ => List.mem_of_mem_eraseIdx
  | reply i =>
    simp only [LockCluster.step] at hs
    split at hs
    · cases hs
    · rename_i c ret hi
      have hm := List.mem_of_getElem? hi
      refine (h.replies_subset fun _ => List.mem_of_mem_eraseIdx).resume hs ?_ ?_
      · rintro r n k f rfl hc hf
        exact h.reply c r n k f hm hc hf
      · rintro r n k f rfl hc hfin hl he hex hf
        exact hok.fresh hi hc hfin hl he hex hf
  | giveUp c =>
    refine h.resume hs ?_ ?_
    · rintro r n k f ⟨⟩
    · rintro r n k f ⟨⟩
  | deadline n =>
    cases hs
    refine h.setNode ⟨fun l hl => ⟨((h.node n).lease l hl).1, fun he => by cases he⟩,
      (h.node n).epoch, (h.node n).origin, (h.node n).table⟩
  | leaseAlive n ep late =>
    simp only [LockCluster.step, Option.ite_none_right_eq_some, Option.some.injEq] at hs
    obtain ⟨⟨_, _, hle, hl⟩, rfl⟩ := hs
    exact h.setNode ((h.node n).alive hle hl)
  | leaseLost n ep =>
    cases hs
    exact h.setNode ((h.node n).shrink ((s.nodes n).onLeaseLost_shrinks ep))
  | grant n =>
    cases hs
    exact h.grant n
  | expire l =>
    simp only [LockCluster.step, Option.ite_none_right_eq_some, Option.some.injEq] at hs
    obtain ⟨he, rfl⟩ := hs
    exact h.expire he

theorem inv_reaches (h : system.Reaches NoReadoption s) : Inv s :=
  h.invariant (fun _ hs => hs ▸ .empty) fun _ _ _ hi hok hs => hi.step hok hs

/-- The owner of a valid handle it has not given back is the process etcd stores the key for. -/
theorem Inv.owner (h : Inv s) (ho : s.Owns n i) :
    ∃ k, s.etcd.key = some k ∧ k.lease.node = n := by
  obtain ⟨hv, hcalled⟩ := ho
  obtain ⟨x, hx, hl, he, hg⟩ := LockModule.isValid_spec hv
  obtain ⟨l, hlease, hel⟩ := LockModule.leaseValid_spec hl
  obtain ⟨k, hk, hkf, hkl⟩ := (h.node n).origin i x hx
  obtain ⟨y, hy, hsent⟩ := (h.node n).table i hg
  have hyx : y = x := Option.some.inj (hy.symm.trans hx)
  subst hyx
  have hlive := ((h.node n).lease l hlease).2 hel
  rw [((h.node n).lease l hlease).1, ← he, ← hkl] at hlive
  have hns : ¬ s.UnlockSent k.createRevision := fun hs => hcalled (hsent (hkf ▸ hs))
  exact ⟨k, h.etcd.kept k hk hlive hns, by rw [hkl]⟩

theorem Inv.mutualExclusion (h : Inv s) : s.MutualExclusion := by
  intro n m i j hn hm
  obtain ⟨k, hk, rfl⟩ := h.owner hn
  obtain ⟨k', hk', rfl⟩ := h.owner hm
  rw [hk] at hk'
  cases hk'
  rfl

theorem fencesGrow_of_sorted (hs : l.Pairwise fun p q : NodeId × Nat => q.2 ≤ p.2)
    (hu : ∀ p ∈ l, ∀ q ∈ l, p.2 = q.2 → p.1 = q.1) : FencesGrow l := by
  induction l with
  | nil => trivial
  | cons p l ih =>
    obtain ⟨hp, hl⟩ := List.pairwise_cons.mp hs
    have ih := ih hl fun p hp q hq => hu p (.tail _ hp) q (.tail _ hq)
    cases l with
    | nil => trivial
    | cons q l =>
      refine ⟨fun hne r hr => ?_, ih⟩
      have hqp : q.2 < p.2 := by
        refine Nat.lt_of_le_of_ne (hp q List.mem_cons_self) fun he => hne ?_
        exact (hu q (by simp) p (by simp) he).symm
      rcases List.mem_cons.mp hr with rfl | hr
      · exact hqp
      · exact Nat.lt_of_le_of_lt ((List.pairwise_cons.mp hl).1 r hr) hqp

theorem Inv.fencesGrow (h : Inv s) : FencesGrow s.granted := by
  refine fencesGrow_of_sorted h.sorted fun p hp q hq he => ?_
  obtain ⟨k, hk, hkf, hkn⟩ := h.origin p hp
  obtain ⟨k', hk', hkf', hkn'⟩ := h.origin q hq
  have hkk := h.etcd.inj k hk k' hk' (by rw [hkf, hkf', he])
  rw [← hkn, ← hkn', hkk]

/-- In every run that takes up no handle whose key is already being deleted, the lock has at
most one owner and its fences grow from owner to owner. -/
theorem lock_exclusive (h : system.Reaches NoReadoption s) :
    s.MutualExclusion ∧ FencesGrow s.granted :=
  ⟨(inv_reaches h).mutualExclusion, (inv_reaches h).fencesGrow⟩

def leases : List LockAction := [.grant 0, .leaseAlive 0 1 false, .grant 1, .leaseAlive 1 1 false]

/-- Process 0 hands the lock to process 1 after an answered unlock. -/
def handover : List LockAction := leases ++
  [.tryLock 0 "a", .execute 0, .reply 0, .unlock 0 0, .execute 0, .reply 0,
    .tryLock 1 "b", .execute 0, .reply 0]

theorem lock_exclusive_handover : ∃ s, system.Reaches NoReadoption s ∧ s.Owns 1 0 ∧
    s.MutualExclusion ∧ FencesGrow s.granted := by
  have hr : system.Reaches NoReadoption ((system.exec NoReadoption empty handover).get rfl) :=
    (Machine.System.Reaches.init (M := system) rfl).exec (Option.some_get _).symm
  exact ⟨_, hr, by decide, lock_exclusive hr⟩

/-- The delete of an unlock that timed out lands after its sender has taken the same
incarnation of the key up again, and process 1 locks the free key. -/
def lateDelete : List LockAction := leases ++
  [.tryLock 0 "a", .execute 0, .reply 0, .unlock 0 0, .giveUp 1,
    .tryLock 0 "a", .execute 1, .reply 0, .execute 0, .tryLock 1 "b", .execute 0, .reply 1]

theorem lock_not_exclusive :
    ¬ ∀ s, system.Reaches Machine.anyStep s → s.MutualExclusion ∧ FencesGrow s.granted := by
  intro h
  have hr : system.Reaches Machine.anyStep
      ((system.exec Machine.anyStep empty lateDelete).get rfl) :=
    (Machine.System.Reaches.init (M := system) rfl).exec (Option.some_get _).symm
  exact absurd ((h _ hr).1 0 1 1 0 (by decide) (by decide)) (by decide)

end LockCluster

end Skyext
