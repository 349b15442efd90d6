import Skyext.Lease.Client

namespace Skyext
set_option autoImplicit true

variable {confirmed confirmed' : Nat → Int → Prop} {lost : List Nat} {top top' epoch : Nat}
  {c : LeaseClient} {ev : LeaseEvent} {reason : String} {rest : List LeaseEvent} {l? : Option Nat}
  {d? : Option Int}

/-- An event names a lease with a confirmed deadline and its epoch, or an epoch that was lost. -/
def EventOk (confirmed : Nat → Int → Prop) (lost : List Nat) (top : Nat) : LeaseEvent → Prop
  | .alive leaseid epoch deadline => (∃ l d, leaseid = some l ∧ deadline = some d ∧ confirmed l d) ∧
    0 < epoch ∧ epoch ≤ top
  | .lost epoch _ => epoch ∈ lost

/-- The event does not say that the epoch is alive. -/
def SilentOn (epoch : Nat) (ev : LeaseEvent) : Prop := ev.aliveEpoch? ≠ some epoch

/-- After the loss of an epoch no event says that it is alive. -/
def InOrder (a b : LeaseEvent) : Prop := ∀ epoch, a.lostEpoch? = some epoch → SilentOn epoch b

/-- What a client believes, has been told and is about to be told; `lost` are the epochs the service
has published as lost, `top` its epoch. -/
structure LeaseClient.Ok (confirmed : Nat → Int → Prop) (lost : List Nat) (top : Nat)
    (c : LeaseClient) : Prop where
  events : ∀ ev ∈ c.queue, EventOk confirmed lost top ev
  order : c.queue.Pairwise InOrder
  heard : ∀ epoch ∈ c.heard, epoch ∈ lost ∧ ∀ ev ∈ c.queue, SilentOn epoch ev
  lease : ∀ l, c.leaseid = some l →
    (∃ d, c.deadline = some d ∧ confirmed l d) ∧ c.epoch ∉ c.heard
  seen : ∀ epoch ∈ c.seen, (0 < epoch ∧ epoch ≤ top) ∧
    (c.leaseid.isSome = true ∧ c.epoch = epoch ∨ epoch ∈ c.lostEpochs)
  told : ∀ epoch ∈ lost, epoch ∈ c.heard ∨ (∃ reason, .lost epoch reason ∈ c.queue) ∨
    epoch ∉ c.seen ∧ ∀ ev ∈ c.queue, SilentOn epoch ev
  fresh : c.subscribed = false → c.queue = [] ∧ c.seen = []

theorem EventOk.mono (h : EventOk confirmed lost top ev)
    (hc : ∀ l d, confirmed l d → confirmed' l d) (ht : top ≤ top') :
    EventOk confirmed' lost top' ev := by
  cases ev with
  | alive leaseid epoch deadline =>
    obtain ⟨⟨l, d, hl, hd, hcon⟩, hpos, hle⟩ := h
    exact ⟨⟨l, d, hl, hd, hc l d hcon⟩, hpos, Nat.le_trans hle ht⟩
  | lost epoch reason => exact h

namespace LeaseClient

theorem Ok.mono (h : c.Ok confirmed lost top) (hc : ∀ l d, confirmed l d → confirmed' l d)
    (ht : top ≤ top') : c.Ok confirmed' lost top' := by
  refine ⟨fun ev he => (h.events ev he).mono hc ht, h.order, h.heard, fun l hl => ?_,
    fun epoch he => ?_, h.told, h.fresh⟩
  · obtain ⟨⟨d, hd, hcon⟩, hheard⟩ := h.lease l hl
    exact ⟨⟨d, hd, hc l d hcon⟩, hheard⟩
  · obtain ⟨⟨hpos, hle⟩, hseen⟩ := h.seen epoch he
    exact ⟨⟨hpos, Nat.le_trans hle ht⟩, hseen⟩

theorem Ok.init : ({} : LeaseClient).Ok confirmed [] top :=
  ⟨fun ev he => absurd he List.not_mem_nil, .nil, fun e he => absurd he List.not_mem_nil,
    fun l hl => (by cases hl), fun e he => absurd he List.not_mem_nil,
    fun e he => absurd he List.not_mem_nil, fun _ => ⟨rfl, rfl⟩⟩

theorem Ok.insert (h : c.Ok confirmed lost top) (hev : EventOk confirmed lost top ev)
    (ha : ev.aliveEpoch? = some epoch) (hl : epoch ∉ lost) (hsub : c.subscribed = true) (k : Nat) :
    { c with queue := c.queue.take k ++ ev :: c.queue.drop k }.Ok confirmed lost top := by
  have hmem : ∀ b, b ∈ c.queue.take k ++ ev :: c.queue.drop k → b = ev ∨ b ∈ c.queue := by
    intro b hb
    rcases List.mem_append.mp hb with hb | hb
    · exact .inr (List.mem_of_mem_take hb)
    · rcases List.mem_cons.mp hb with hb | hb
      · exact .inl hb
      · exact .inr (List.mem_of_mem_drop hb)
  have hsilent : ∀ e ∈ lost, SilentOn e ev := by
    intro e he hs
    cases ha.symm.trans hs
    exact hl he
  have hlost : ∀ b ∈ c.queue, InOrder b ev := by
    intro b hb e he
    cases b with
    | alive leaseid e' deadline => cases he
    | lost e' reason =>
      cases he
      exact hsilent _ (h.events _ hb)
  have hnot : ∀ b, InOrder ev b := by
    intro b e he
    cases ev with
    | alive leaseid e' deadline => cases he
    | lost e' reason => cases ha
  have hsplit := List.pairwise_append.mp ((List.take_append_drop k c.queue).symm ▸ h.order)
  refine ⟨fun b hb => ?_, ?_, fun e he => ⟨(h.heard e he).1, fun b hb => ?_⟩, h.lease, h.seen,
    fun e he => ?_, fun hs => absurd (hsub.symm.trans hs) (by simp)⟩
  · rcases hmem b hb with rfl | hb
    · exact hev
    · exact h.events b hb
  · refine List.pairwise_append.mpr ⟨hsplit.1,
      List.pairwise_cons.mpr ⟨fun b _ => hnot b, hsplit.2.1⟩, fun a ha' b hb => ?_⟩
    rcases List.mem_cons.mp hb with rfl | hb
    · exact hlost a (List.mem_of_mem_take ha')
    · exact hsplit.2.2 a ha' b hb
  · rcases hmem b hb with rfl | hb
    · exact hsilent e (h.heard e he).1
    · exact (h.heard e he).2 b hb
  · rcases h.told e he with ht | ⟨reason, ht⟩ | ⟨hseen, hs⟩
    · exact .inl ht
    · refine .inr (.inl ⟨reason, ?_⟩)
      rw [← List.take_append_drop k c.queue] at ht
      rcases List.mem_append.mp ht with ht | ht
      · exact List.mem_append_left _ ht
      · exact List.mem_append_right _ (.tail _ ht)
    · refine .inr (.inr ⟨hseen, fun b hb => ?_⟩)
      rcases hmem b hb with rfl | hb
      · exact hsilent e he
      · exact hs b hb

theorem Ok.publishAlive (h : c.Ok confirmed lost top) (hev : EventOk confirmed lost top ev)
    (ha : ev.aliveEpoch? = some epoch) (hl : epoch ∉ lost) (hsub : c.subscribed = true) :
    { c with queue := c.queue ++ [ev] }.Ok confirmed lost top := by
  have hi := h.insert hev ha hl hsub c.queue.length
  rwa [List.take_length, List.drop_length] at hi

theorem Ok.publishLost (h : c.Ok confirmed lost top) (epoch : Nat) (reason : String) :
    (if c.subscribed then { c with queue := c.queue ++ [.lost epoch reason] } else c).Ok confirmed
      (epoch :: lost) top := by
  have hev : ∀ ev, EventOk confirmed lost top ev → EventOk confirmed (epoch :: lost) top ev := by
    intro ev hev
    cases ev with
    | alive leaseid e deadline => exact hev
    | lost e reason => exact .tail _ hev
  have hmem : ∀ b ∈ c.queue ++ [.lost epoch reason], b = .lost epoch reason ∨ b ∈ c.queue := by
    intro b hb
    exact (List.mem_append.mp hb).symm.imp List.mem_singleton.mp id
  split
  · refine ⟨fun b hb => ?_, ?_, fun e he => ⟨.tail _ (h.heard e he).1, fun b hb => ?_⟩, h.lease,
      h.seen, fun e he => ?_, fun hs => ?_⟩
    · rcases hmem b hb with rfl | hb
      · exact .head _
      · exact hev b (h.events b hb)
    · refine List.pairwise_append.mpr ⟨h.order, List.pairwise_singleton _ _, fun a _ b hb e _ => ?_⟩
      cases List.mem_singleton.mp hb
      simp [SilentOn, LeaseEvent.aliveEpoch?]
    · rcases hmem b hb with rfl | hb
      · simp [SilentOn, LeaseEvent.aliveEpoch?]
      · exact (h.heard e he).2 b hb
    · rcases List.mem_cons.mp he with rfl | he
      · exact .inr (.inl ⟨reason, by simp⟩)
      · rcases h.told e he with ht | ⟨r, ht⟩ | ⟨hseen, hs⟩
        · exact .inl ht
        · exact .inr (.inl ⟨r, List.mem_append_left _ ht⟩)
        · refine .inr (.inr ⟨hseen, fun b hb => ?_⟩)
          rcases hmem b hb with rfl | hb
          · simp [SilentOn, LeaseEvent.aliveEpoch?]
          · exact hs b hb
    · exact absurd hs (by simp_all)
  · next hsub =>
    have hfresh := h.fresh (by simpa using hsub)
    refine ⟨fun b hb => hev b (h.events b hb), h.order,
      fun e he => ⟨.tail _ (h.heard e he).1, (h.heard e he).2⟩, h.lease, h.seen, fun e he => ?_,
      h.fresh⟩
    exact .inr (.inr ⟨by simp [hfresh.2], by simp [hfresh.1]⟩)

theorem lostEpochs_clear (c : LeaseClient) (epoch : Nat) (reason : String) :
    (c.clear epoch reason).lostEpochs = c.lostEpochs ∨
      c.leaseid.isSome = true ∧ (c.clear epoch reason).lostEpochs = c.lostEpochs ++ [epoch] := by
  unfold clear
  split
  · exact .inl rfl
  · next hl => exact .inr ⟨by simp [hl], by simp [fireLost, lostEpochs]⟩

theorem clear_leaseid (c : LeaseClient) (epoch : Nat) (reason : String) :
    (c.clear epoch reason).leaseid = none := by
  unfold clear
  split
  · assumption
  · rfl

/-- Once it has given up its lease, a client has fired for every epoch it has seen. -/
theorem Ok.clear (h : c.Ok confirmed lost top) (reason : String) :
    (c.clear c.epoch reason).Ok confirmed lost top := by
  unfold LeaseClient.clear
  split
  · exact h
  · next l hl =>
    refine ⟨h.events, h.order, h.heard, fun l' hl' => (by cases hl'), fun e he => ?_, h.told,
      h.fresh⟩
    obtain ⟨hb, hs⟩ := h.seen e he
    refine ⟨hb, .inr ?_⟩
    simp only [fireLost, lostEpochs, List.map_append, List.map_cons, List.map_nil]
    rcases hs with ⟨_, hs⟩ | hs
    · exact List.mem_append_right _ (List.mem_singleton.mpr hs.symm)
    · exact List.mem_append_left _ hs

theorem Ok.valid (h : c.Ok confirmed lost top) (now : Int) :
    (c.valid now).Ok confirmed lost top := by
  unfold LeaseClient.valid
  split
  · exact h
  · split
    · exact h.clear _
    · exact h

/-- The loss of an epoch is heard by a client that does not believe in it any more. -/
theorem Ok.hear (h : c.Ok confirmed lost top) (hq : c.queue = .lost epoch reason :: rest)
    (hl : c.leaseid.isSome = true → epoch ≠ c.epoch) :
    { c with queue := rest, heard := epoch :: c.heard }.Ok confirmed lost top := by
  have hmem : ∀ ev ∈ rest, ev ∈ c.queue := fun ev he => hq ▸ .tail _ he
  have hev : EventOk confirmed lost top (.lost epoch reason) := h.events _ (hq ▸ .head _)
  have horder := List.pairwise_cons.mp (hq ▸ h.order)
  refine ⟨fun ev he => h.events ev (hmem ev he), horder.2, fun e he => ?_, fun l hl' => ?_, h.seen,
    fun e he => ?_, fun hs => ?_⟩
  · rcases List.mem_cons.mp he with rfl | he
    · exact ⟨hev, fun ev hev => horder.1 ev hev e rfl⟩
    · exact ⟨(h.heard e he).1, fun ev hev => (h.heard e he).2 ev (hmem ev hev)⟩
  · obtain ⟨hd, hheard⟩ := h.lease l hl'
    refine ⟨hd, fun hc => ?_⟩
    rcases List.mem_cons.mp hc with hc | hc
    · exact hl (Option.isSome_of_eq_some hl') hc.symm
    · exact hheard hc
  · rcases h.told e he with ht | ⟨r, ht⟩ | ⟨hseen, hs⟩
    · exact .inl (.tail _ ht)
    · rcases List.mem_cons.mp (hq ▸ ht) with ht | ht
      · cases ht
        exact .inl (.head _)
      · exact .inr (.inl ⟨r, ht⟩)
    · exact .inr (.inr ⟨hseen, fun ev hev => hs ev (hmem ev hev)⟩)
  · cases hq.symm.trans (h.fresh hs).1

theorem onLeaseLost_eq (c : LeaseClient) (epoch : Nat) (reason : String) (rest : List LeaseEvent) :
    { c with queue := rest }.onLeaseLost epoch reason =
      let c' := if epoch ≠ c.epoch then c else c.clear c.epoch reason
      { c' with queue := rest, heard := epoch :: c.heard } := by
  simp only [onLeaseLost]
  split
  · rfl
  · next he =>
    have he : epoch = c.epoch := by simpa using he
    subst he
    simp only [clear]
    split <;> rfl

theorem Ok.onLeaseLost (h : c.Ok confirmed lost top)
    (hq : c.queue = .lost epoch reason :: rest) :
    ({ c with queue := rest }.onLeaseLost epoch reason).Ok confirmed lost top := by
  rw [onLeaseLost_eq]
  dsimp only
  split
  · next he => exact h.hear hq fun _ => he
  · have hheard : (c.clear c.epoch reason).heard = c.heard := by
      unfold LeaseClient.clear
      split <;> rfl
    have hqueue : (c.clear c.epoch reason).queue = c.queue := by
      unfold LeaseClient.clear
      split <;> rfl
    rw [← hheard]
    exact (h.clear reason).hear (hqueue.trans hq) fun hs => by simp [clear_leaseid] at hs

theorem Ok.onLeaseAlive (h : c.Ok confirmed lost top)
    (hq : c.queue = .alive l? epoch d? :: rest) :
    ({ c with queue := rest }.onLeaseAlive l? epoch d?).Ok confirmed lost top := by
  have hmem : ∀ ev ∈ rest, ev ∈ c.queue := fun ev he => hq ▸ .tail _ he
  have horder := List.pairwise_cons.mp (hq ▸ h.order)
  have hev : EventOk confirmed lost top (.alive l? epoch d?) := h.events _ (hq ▸ .head _)
  obtain ⟨⟨l, d, rfl, rfl, hcon⟩, hb⟩ := hev
  have hhead : ∀ e, (∀ ev ∈ c.queue, SilentOn e ev) → e ≠ epoch := by
    rintro e hs rfl
    have hmem : LeaseEvent.alive (some l) e (some d) ∈ c.queue := hq ▸ .head _
    exact hs _ hmem rfl
  have hmain : ∀ c' : LeaseClient, c'.queue = rest → c'.heard = c.heard → c'.seen = c.seen →
      c'.subscribed = c.subscribed →
      (∀ e, c.leaseid.isSome = true → c.epoch = e → e = epoch ∨ e ∈ c'.lostEpochs) →
      (∀ e ∈ c.lostEpochs, e ∈ c'.lostEpochs) →
      { c' with leaseid := some l, epoch := epoch, deadline := some d, seen := epoch :: c'.seen }.Ok
        confirmed lost top := by
    rintro c' rfl hheard hseen hsub hcur hlost
    refine ⟨fun ev he => h.events ev (hmem ev he), horder.2, fun e he => ?_, fun l' hl' => ?_,
      fun e he => ?_, fun e he => ?_, fun hs => ?_⟩
    · obtain ⟨hl, hs⟩ := h.heard e (hheard ▸ he)
      exact ⟨hl, fun ev hev => hs ev (hmem ev hev)⟩
    · cases hl'
      exact ⟨⟨d, rfl, hcon⟩, fun he => hhead epoch (h.heard epoch (hheard ▸ he)).2 rfl⟩
    · rcases List.mem_cons.mp he with rfl | he
      · exact ⟨hb, .inl ⟨rfl, rfl⟩⟩
      · obtain ⟨hb', hs⟩ := h.seen e (hseen ▸ he)
        refine ⟨hb', ?_⟩
        rcases hs with ⟨hl, hs⟩ | hs
        · exact (hcur e hl hs).imp (fun he => ⟨rfl, he.symm⟩) id
        · exact .inr (hlost e hs)
    · rcases h.told e he with ht | ⟨r, ht⟩ | ⟨hs, hsilent⟩
      · exact .inl (hheard.symm ▸ ht)
      · rcases List.mem_cons.mp (hq ▸ ht) with ht | ht
        · cases ht
        · exact .inr (.inl ⟨r, ht⟩)
      · refine .inr (.inr ⟨fun he' => ?_, fun ev hev => hsilent ev (hmem ev hev)⟩)
        rcases List.mem_cons.mp he' with he' | he'
        · exact hhead e hsilent he'
        · exact hs (hseen ▸ he')
    · cases hq.symm.trans (h.fresh (hsub ▸ hs)).1
  unfold LeaseClient.onLeaseAlive
  dsimp only
  split
  · next hne =>
    unfold LeaseClient.clear
    split
    · next hn => exact absurd hne.2 (Option.not_isSome_iff_eq_none.mpr hn)
    · refine hmain _ rfl rfl rfl rfl (fun e _ he => .inr ?_) fun e he => ?_
      · simp [fireLost, lostEpochs, he]
      · simp only [fireLost, lostEpochs, List.map_append]
        exact List.mem_append_left _ he
  · next hne =>
    refine hmain _ rfl rfl rfl rfl (fun e hl he => .inl ?_) fun e he => he
    by_contra hc
    exact hne ⟨fun he' => hc (he ▸ he'.symm), hl⟩

theorem Ok.deliver (h : c.Ok confirmed lost top) (hd : c.deliver = some c') :
    c'.Ok confirmed lost top := by
  unfold LeaseClient.deliver at hd
  split at hd
  · cases hd
  · next ev rest hq =>
    cases hd
    cases ev with
    | alive l? epoch d? => exact h.onLeaseAlive hq
    | lost epoch reason => exact h.onLeaseLost hq

/-- No loss is told twice, nor one of the lease that is believed in. -/
structure Once (c : LeaseClient) : Prop where
  nodup : c.lostEpochs.Nodup
  current : c.leaseid.isSome = true → c.epoch ∉ c.lostEpochs

theorem Once.clear (h : c.Once) (reason : String) : (c.clear c.epoch reason).Once := by
  unfold LeaseClient.clear
  split
  · exact h
  · next l hl =>
    have hnot := h.current (Option.isSome_of_eq_some hl)
    refine ⟨?_, fun hs => by cases hs⟩
    simp only [fireLost, lostEpochs, List.map_append, List.map_cons, List.map_nil]
    exact List.nodup_append.mpr ⟨h.nodup, List.pairwise_singleton _ _, fun e he e' he' hee => by
      cases List.mem_singleton.mp he'
      exact hnot (hee ▸ he)⟩

theorem Once.valid (h : c.Once) (now : Int) : (c.valid now).Once := by
  unfold LeaseClient.valid
  split
  · exact h
  · split
    · exact h.clear _
    · exact h

/-- A client does not come back to an epoch that it has given up. -/
theorem Once.onLeaseAlive (h : c.Once) (hnew : epoch ∉ c.lostEpochs) (l? : Option Nat)
    (d? : Option Int) : (c.onLeaseAlive l? epoch d?).Once := by
  unfold LeaseClient.onLeaseAlive
  dsimp only
  split
  · next hne =>
    have hc := h.clear "superseded by a new lease"
    refine ⟨hc.nodup, fun _ he => ?_⟩
    rcases lostEpochs_clear c c.epoch "superseded by a new lease" with hl | ⟨_, hl⟩
    · exact hnew (hl ▸ he)
    · have he' : epoch ∈ c.lostEpochs ++ [c.epoch] := hl ▸ he
      rcases List.mem_append.mp he' with he' | he'
      · exact hnew he'
      · exact hne.1 (List.mem_singleton.mp he')
  · exact ⟨h.nodup, fun _ => hnew⟩

theorem Once.deliver (h : c.Once) (hd : c.deliver = some c')
    (hnew : ∀ epoch, c.queue.head?.bind LeaseEvent.aliveEpoch? = some epoch →
      epoch ∉ c.lostEpochs) : c'.Once := by
  unfold LeaseClient.deliver at hd
  split at hd
  · cases hd
  · next ev rest hq =>
    cases hd
    have hrest : { c with queue := rest }.Once := ⟨h.nodup, h.current⟩
    cases ev with
    | alive l? epoch d? => exact hrest.onLeaseAlive (hnew epoch (by rw [hq]; rfl)) l? d?
    | lost epoch reason =>
      rw [receive, onLeaseLost_eq]
      dsimp only
      split
      · exact ⟨h.nodup, h.current⟩
      · have hc := h.clear reason
        exact ⟨hc.nodup, hc.current⟩

end LeaseClient

end Skyext
