import Skyext.Db.WheelCoverage

namespace Skyext
set_option autoImplicit true

namespace SaveWheel
open Machine

variable {α : Type*}

def Flush.keys : Flush α → List α
  | .forked => []
  | .running _ keys | .calling _ _ keys => keys

def Flush.slot : Flush α → Option Nat
  | .forked => none
  | .running slot _ | .calling slot _ _ => some slot

namespace Wheel

variable [DecidableEq α] {n : Nat} {w u : Wheel α}

/-- The tables describe one set of entries, each in one slot. -/
structure SameSet (n : Nat) (w : Wheel α) : Prop where
  slots : ∀ j e, e ∈ w.slots j ↔ w.slotOf e = some j
  nodup : ∀ j, (w.slots j).Nodup
  bound : ∀ e j, w.slotOf e = some j → 1 ≤ j ∧ j ≤ n
  count : ∃ l : List α, l.Nodup ∧ w.count = l.length ∧ ∀ e, e ∈ l ↔ w.slotOf e ≠ none

/-- At most one flush is under way, in the slot the hand is at. -/
structure OneFlush (w : Wheel α) : Prop where
  single : w.flushes.length = if w.flushing then 1 else 0
  keys : ∀ f ∈ w.flushes, f.keys.Nodup
  slot : ∀ f ∈ w.flushes, ∀ j, f.slot = some j → j = w.hand

theorem OneFlush.eq (h : OneFlush w) (hk : w.flushes[k]? = some f) :
    k = 0 ∧ w.flushes = [f] ∧ w.flushing = true := by
  obtain ⟨hlt, hget⟩ := List.getElem?_eq_some_iff.mp hk
  have hlen := h.single
  split at hlen
  · next hf =>
    obtain ⟨g, hg⟩ := List.length_eq_one_iff.mp hlen
    have hzero : k = 0 := by omega
    subst hzero
    simp only [hg, List.getElem_cons_zero] at hget
    exact ⟨rfl, by rw [hg, hget], hf⟩
  · omega

def turn (flushes : List (Flush α)) (e : α) : Turn :=
  match flushes with
  | [.running _ keys] | [.calling _ _ keys] => if e ∈ keys then .due else .past
  | _ => .idle

def view (w : Wheel α) (e : α) : View := ⟨w.slotOf e, w.hand, turn w.flushes e⟩

/-- What one step does: it keeps the tables and the flush in order, and every entry sees a run. -/
structure Seen (n : Nat) (w u : Wheel α) : Prop where
  sets : SameSet n u
  flush : OneFlush u
  views : ∃ h, u.history = w.history ++ h ∧ ∀ e, View.Run n e (w.view e) h (u.view e)

theorem SameSet.add (hw : SameSet n w) (hnone : w.slotOf entry = none) (hle : 1 ≤ slot)
    (hge : slot ≤ n) : SameSet n (w.add entry slot) := by
  rw [Wheel.add, if_pos hnone]
  have hnew : ∀ j, entry ∉ w.slots j := by
    intro j hmem
    cases hnone.symm.trans ((hw.slots j entry).mp hmem)
  obtain ⟨l, hnd, hcount, hmem⟩ := hw.count
  constructor
  · intro j e
    simp only [log]
    by_cases hj : j = slot <;> by_cases he : e = entry
    · subst hj he
      simp
    · subst hj
      simpa [he] using hw.slots j e
    · subst he
      simp [Function.update_of_ne hj, hnew j, Ne.symm hj]
    · simpa [Function.update_of_ne hj, he] using hw.slots j e
  · intro j
    simp only [log]
    by_cases hj : j = slot
    · subst hj
      simpa using ⟨hnew j, hw.nodup j⟩
    · simpa [Function.update_of_ne hj] using hw.nodup j
  · intro e j hj
    simp only [log] at hj
    by_cases he : e = entry
    · subst he
      simp only [Function.update_self, Option.some.injEq] at hj
      omega
    · rw [Function.update_of_ne he] at hj
      exact hw.bound e j hj
  · refine ⟨entry :: l, List.nodup_cons.mpr ⟨fun hin => (hmem entry).mp hin hnone, hnd⟩, ?_, ?_⟩
    · simp [log, hcount]
    · intro e
      simp only [log]
      by_cases he : e = entry
      · subst he
        simp
      · simpa [he] using hmem e

theorem SameSet.remove (hw : SameSet n w) (hsome : w.slotOf entry = some slot) :
    SameSet n (w.remove entry) := by
  simp only [Wheel.remove, hsome]
  obtain ⟨l, hnd, hcount, hmem⟩ := hw.count
  have hin : entry ∈ l := (hmem entry).mpr (by simp [hsome])
  constructor
  · intro j e
    simp only [log]
    by_cases hj : j = slot <;> by_cases he : e = entry
    · subst hj he
      simp [(hw.nodup j).not_mem_erase]
    · subst hj
      simpa [he, List.mem_erase_of_ne he] using hw.slots j e
    · subst he
      have hs := hw.slots j e
      rw [hsome] at hs
      simpa [Function.update_of_ne hj, Ne.symm hj] using hs
    · simpa [Function.update_of_ne hj, he] using hw.slots j e
  · intro j
    simp only [log]
    by_cases hj : j = slot
    · subst hj
      simpa using (hw.nodup j).erase entry
    · simpa [Function.update_of_ne hj] using hw.nodup j
  · intro e j hj
    simp only [log] at hj
    by_cases he : e = entry
    · subst he
      simp at hj
    · rw [Function.update_of_ne he] at hj
      exact hw.bound e j hj
  · refine ⟨l.erase entry, hnd.erase entry, ?_, ?_⟩
    · have hpos := List.length_pos_of_mem hin
      simp only [log, hcount, List.length_erase_of_mem hin]
      omega
    · intro e
      simp only [log]
      by_cases he : e = entry
      · subst he
        simp [hnd.not_mem_erase]
      · simpa [he, List.mem_erase_of_ne he] using hmem e

theorem seen_add (hs : SameSet n w) (hf : OneFlush w) (hle : 1 ≤ slot) (hge : slot ≤ n) :
    Seen n w (w.add entry slot) := by
  by_cases hnone : w.slotOf entry = none
  · refine ⟨hs.add hnone hle hge, ?_, [.added entry slot], ?_, ?_⟩
    · rw [Wheel.add, if_pos hnone]
      exact { hf with }
    · rw [Wheel.add, if_pos hnone]
      rfl
    · intro e
      rw [Wheel.add, if_pos hnone]
      by_cases he : e = entry
      · subst he
        have hv : view { w with slotOf := Function.update w.slotOf e (some slot) } e =
            { w.view e with slot := some slot } := by
          simp [view]
        exact View.Run.refl.snoc (hv ▸ View.Step.added hnone hle hge)
      · have hv : view { w with slotOf := Function.update w.slotOf entry (some slot) } e =
            w.view e := by
          simp [view, he]
        exact View.Run.refl.snoc (hv ▸ View.Step.addedOther (Ne.symm he))
  · rw [Wheel.add, if_neg hnone]
    exact ⟨hs, hf, [], by simp, fun e => .refl⟩

theorem seen_remove (hs : SameSet n w) (hf : OneFlush w) : Seen n w (w.remove entry) := by
  cases hsome : w.slotOf entry with
  | none =>
    simp only [Wheel.remove, hsome]
    exact ⟨hs, hf, [], by simp, fun e => .refl⟩
  | some slot =>
    refine ⟨hs.remove hsome, ?_, [.removed entry], ?_, ?_⟩
    · simp only [Wheel.remove, hsome]
      exact { hf with }
    · simp only [Wheel.remove, hsome]
      rfl
    · intro e
      simp only [Wheel.remove, hsome]
      by_cases he : e = entry
      · subst he
        have hv : view { w with slotOf := Function.update w.slotOf e none } e =
            { w.view e with slot := none } := by
          simp [view]
        exact View.Run.refl.snoc (hv ▸ View.Step.removed hsome)
      · have hv : view { w with slotOf := Function.update w.slotOf entry none } e =
            w.view e := by
          simp [view, he]
        exact View.Run.refl.snoc (hv ▸ View.Step.removedOther (Ne.symm he))

theorem seen_tick (hs : SameSet n w) (hf : OneFlush w) : Seen n w w.tick := by
  rw [tick]
  split
  · exact ⟨hs, hf, [], by simp, fun e => .refl⟩
  · next hflushing =>
    have hnil : w.flushes = [] := by
      have hlen := hf.single
      rw [if_neg hflushing] at hlen
      exact List.length_eq_zero_iff.mp hlen
    refine ⟨{ hs with }, ?_, [], by simp, ?_⟩
    · rw [hnil]
      exact ⟨rfl, by simp [Flush.keys], by simp [Flush.slot]⟩
    · intro e
      have hv : view { w with flushing := true, flushes := w.flushes ++ [.forked] } e =
          w.view e := by
        simp [view, hnil, turn]
      rw [hv]
      exact .refl

theorem OneFlush.set (hf : OneFlush w) (hk : w.flushes[k]? = some f) (hnd : g.keys.Nodup)
    (hslot : ∀ j, g.slot = some j → j = w.hand) : OneFlush (w.setFlush k g) := by
  obtain ⟨rfl, hone, hflushing⟩ := hf.eq hk
  constructor
  · simp [setFlush, hone, hflushing]
  · simpa [setFlush, hone] using hnd
  · simpa [setFlush, hone] using hslot

theorem seen_startFlush (hs : SameSet n w) (hf : OneFlush w) (hk : w.flushes[k]? = some .forked)
    (hp : order.Perm (w.slots (w.hand % n + 1))) :
    Seen n w (({ w with hand := w.hand % n + 1 }.setFlush k
      (.running (w.hand % n + 1) order)).log .flushStart) := by
  obtain ⟨rfl, hone, hflushing⟩ := hf.eq hk
  refine ⟨{ hs with }, ?_, [.flushStart], rfl, ?_⟩
  · constructor
    · simp [log, setFlush, hone, hflushing]
    · simpa [log, setFlush, hone, Flush.keys] using hp.nodup_iff.mpr (hs.nodup _)
    · simp [log, setFlush, hone, Flush.slot]
  · intro e
    have hmem : e ∈ order ↔ w.slotOf e = some (w.hand % n + 1) :=
      hp.mem_iff.trans (hs.slots _ e)
    have hv : view (({ w with hand := w.hand % n + 1 }.setFlush 0
        (.running (w.hand % n + 1) order)).log .flushStart) e = (w.view e).start n := by
      simp [view, View.start, log, setFlush, hone, turn, hmem]
    rw [hv]
    exact View.Run.refl.snoc (.flushStart (by simp [view, hone, turn]))

theorem seen_next (hs : SameSet n w) (hf : OneFlush w)
    (hk : w.flushes[k]? = some (.running slot (entry :: keys))) :
    Seen n w (w.next k slot entry keys) := by
  obtain ⟨rfl, hone, _⟩ := hf.eq hk
  obtain ⟨hnot, hnd⟩ := List.nodup_cons.mp (hf.keys _ (List.mem_of_getElem? hk))
  have hhand : slot = w.hand := hf.slot _ (List.mem_of_getElem? hk) slot rfl
  have hslot : ∀ j, some slot = some j → j = w.hand := by
    rintro _ ⟨⟩
    exact hhand
  have hdue : (w.view entry).turn = .due := by simp [view, hone, turn]
  rw [next]
  split
  · next hmem =>
    have hat := (hs.slots slot entry).mp hmem
    have hset := hf.set hk (g := .calling slot entry keys) hnd hslot
    refine ⟨{ hs with }, { hset with }, [.handed entry], rfl, ?_⟩
    intro e
    by_cases he : e = entry
    · subst he
      have hv : view ((w.setFlush 0 (.calling slot e keys)).log (.handed e)) e =
          { w.view e with turn := .past } := by
        simp [view, log, setFlush, hone, turn, hnot]
      rw [hv]
      exact View.Run.refl.snoc (.handed hdue (hat.trans (congrArg some hhand)))
    · have hv : view ((w.setFlush 0 (.calling slot entry keys)).log (.handed entry)) e =
          w.view e := by
        simp [view, log, setFlush, hone, turn, he]
      rw [hv]
      exact View.Run.refl.snoc (.handedOther (Ne.symm he))
  · next hmem =>
    have hset := hf.set hk (g := .running slot keys) hnd hslot
    refine ⟨{ hs with }, hset, [], by simp [setFlush], ?_⟩
    intro e
    by_cases he : e = entry
    · subst he
      have hv : view (w.setFlush 0 (.running slot keys)) e = { w.view e with turn := .past } := by
        simp [view, setFlush, hone, turn, hnot]
      rw [hv]
      refine View.Run.refl.silent (.skipped hdue fun hat => hmem ((hs.slots slot e).mpr ?_))
      exact hat.trans (congrArg some hhand.symm)
    · have hv : view (w.setFlush 0 (.running slot keys)) e = w.view e := by
        simp [view, setFlush, hone, turn, he]
      rw [hv]
      exact .refl

theorem view_returned (hone : w.flushes = [.calling slot entry keys]) (e : α) :
    view (w.setFlush 0 (.running slot keys)) e = w.view e := by
  simp [view, setFlush, hone, turn]

theorem seen_returned (hs : SameSet n w) (hf : OneFlush w)
    (hk : w.flushes[k]? = some (.calling slot entry keys)) :
    Seen n w (w.setFlush k (.running slot keys)) ∧
      Seen n w ((w.setFlush k (.running slot keys)).log (.raised entry)) := by
  obtain ⟨rfl, hone, _⟩ := hf.eq hk
  have hmem := List.mem_of_getElem? hk
  have hset := hf.set hk (g := .running slot keys) (hf.keys (.calling slot entry keys) hmem)
    (hf.slot (.calling slot entry keys) hmem)
  constructor
  · refine ⟨{ hs with }, hset, [], by simp [setFlush], fun e => ?_⟩
    rw [view_returned hone]
    exact .refl
  · refine ⟨{ hs with }, { hset with }, [.raised entry], rfl, fun e => ?_⟩
    have hv : view ((w.setFlush 0 (.running slot keys)).log (.raised entry)) e = w.view e :=
      view_returned hone e
    rw [hv]
    exact View.Run.refl.snoc .raised

theorem seen_endFlush (hs : SameSet n w) (hf : OneFlush w)
    (hk : w.flushes[k]? = some (.running slot [])) :
    Seen n w ({ w with flushing := false, flushes := w.flushes.eraseIdx k }.log .flushEnd) := by
  obtain ⟨rfl, hone, _⟩ := hf.eq hk
  refine ⟨{ hs with }, ?_, [.flushEnd], rfl, ?_⟩
  · constructor <;> simp [log, hone]
  · intro e
    have hv : view ({ w with flushing := false, flushes := w.flushes.eraseIdx 0 }.log .flushEnd) e =
        { w.view e with turn := .idle } := by
      simp [view, log, hone, turn]
    rw [hv]
    exact View.Run.refl.snoc (.flushEnd (by simp [view, hone, turn]))

theorem seen_step (hs : SameSet n w) (hf : OneFlush w) (hstep : step n w a = some u) :
    Seen n w u := by
  cases a with
  | add entry slot =>
    obtain ⟨⟨hle, hge⟩, ⟨⟩⟩ := Option.ite_none_right_eq_some.mp hstep
    exact seen_add hs hf hle hge
  | remove entry =>
    cases hstep
    exact seen_remove hs hf
  | tick =>
    obtain ⟨_, ⟨⟩⟩ := Option.ite_none_right_eq_some.mp hstep
    exact seen_tick hs hf
  | startFlush k order =>
    rw [step] at hstep
    split at hstep
    · next hk =>
      obtain ⟨hp, ⟨⟩⟩ := Option.ite_none_right_eq_some.mp hstep
      exact seen_startFlush hs hf hk hp
    · cases hstep
  | next k =>
    rw [step] at hstep
    split at hstep
    · next hk =>
      cases hstep
      exact seen_next hs hf hk
    · cases hstep
  | returned k =>
    rw [step] at hstep
    split at hstep
    · next hk =>
      cases hstep
      exact (seen_returned hs hf hk).1
    · cases hstep
  | raised k =>
    rw [step] at hstep
    split at hstep
    · next hk =>
      cases hstep
      exact (seen_returned hs hf hk).2
    · cases hstep
  | endFlush k =>
    rw [step] at hstep
    split at hstep
    · next hk =>
      cases hstep
      exact seen_endFlush hs hf hk
    · cases hstep

theorem reaches_seen {period : Rat} (h : (system α period).Reaches ok w) :
    SameSet (slotCount period) w ∧ OneFlush w ∧
      ∀ e, View.Run (slotCount period) e {} w.history (w.view e) := by
  induction h with
  | init hs =>
    cases hs
    refine ⟨⟨by simp, by simp, by simp, [], by simp⟩, ⟨rfl, by simp, by simp⟩, fun e => .refl⟩
  | step _ _ hstep ih =>
    obtain ⟨hsets, hflush, hruns⟩ := ih
    have hseen := seen_step hsets hflush hstep
    obtain ⟨h, hh, hviews⟩ := hseen.views
    refine ⟨hseen.sets, hseen.flush, fun e => ?_⟩
    rw [hh]
    exact (hruns e).trans (hviews e)

/-- The steps of the flush alone, each callback raising or returning as `raises` has it. -/
inductive Flushing (n : Nat) (raises : α → Bool) : Wheel α → Wheel α → Prop
  | refl : Flushing n raises x x
  | start : step n x (.startFlush k order) = some y → Flushing n raises y z → Flushing n raises x z
  | next : step n x (.next k) = some y → Flushing n raises y z → Flushing n raises x z
  | called : x.flushes[k]? = some (.calling slot entry keys) →
    step n x (if raises entry then .raised k else .returned k) = some y →
    Flushing n raises y z → Flushing n raises x z
  | finish : step n x (.endFlush k) = some y → Flushing n raises y z → Flushing n raises x z

theorem flushing_running (n : Nat) (raises : α → Bool) (hone : w.flushes = [.running slot keys]) :
    ∃ u, Flushing n raises w u ∧ u.flushing = false := by
  induction keys generalizing w with
  | nil =>
    have hstep : step n w (.endFlush 0) =
        some ({ w with flushing := false, flushes := w.flushes.eraseIdx 0 }.log .flushEnd) := by
      simp only [step, hone, List.getElem?_cons_zero]
    exact ⟨_, .finish hstep .refl, rfl⟩
  | cons entry keys ih =>
    have hstep : step n w (.next 0) = some (w.next 0 slot entry keys) := by
      simp only [step, hone, List.getElem?_cons_zero]
    by_cases hmem : entry ∈ w.slots slot
    · rw [Wheel.next, if_pos hmem] at hstep
      obtain ⟨x, hx⟩ : ∃ x, x = (w.setFlush 0 (.calling slot entry keys)).log (.handed entry) :=
        ⟨_, rfl⟩
      rw [← hx] at hstep
      have hcalling : x.flushes = [.calling slot entry keys] := by
        rw [hx, log, setFlush, hone]
        rfl
      obtain ⟨y, hy, hrunning⟩ : ∃ y, step n x (if raises entry then .raised 0 else .returned 0) =
          some y ∧ y.flushes = [.running slot keys] := by
        split <;> simp [step, hcalling, setFlush, log]
      obtain ⟨u, hu, hdone⟩ := ih hrunning
      have hcalled := Flushing.called (k := 0) (by rw [hcalling]; rfl) hy hu
      exact ⟨u, .next hstep hcalled, hdone⟩
    · rw [Wheel.next, if_neg hmem] at hstep
      obtain ⟨u, hu, hdone⟩ := ih (w := w.setFlush 0 (.running slot keys))
        (by simp [setFlush, hone])
      exact ⟨u, .next hstep hu, hdone⟩

/-- A flush that is left alone comes to its end, whichever callbacks raise. -/
theorem OneFlush.completes (hf : OneFlush w) (n : Nat) (raises : α → Bool)
    (hflushing : w.flushing = true) : ∃ u, Flushing n raises w u ∧ u.flushing = false := by
  have hlen := hf.single
  rw [if_pos hflushing] at hlen
  obtain ⟨f, hone⟩ := List.length_eq_one_iff.mp hlen
  cases f with
  | forked =>
    obtain ⟨y, hy, hrunning⟩ : ∃ y, step n w (.startFlush 0 (w.slots (w.hand % n + 1))) = some y ∧
        y.flushes = [.running (w.hand % n + 1) (w.slots (w.hand % n + 1))] := by
      simp [step, hone, setFlush, log]
    obtain ⟨u, hu, hdone⟩ := flushing_running n raises hrunning
    exact ⟨u, .start hy hu, hdone⟩
  | running slot keys => exact flushing_running n raises hone
  | calling slot entry keys =>
    obtain ⟨y, hy, hrunning⟩ : ∃ y, step n w (if raises entry then .raised 0 else .returned 0) =
        some y ∧ y.flushes = [.running slot keys] := by
      split <;> simp [step, hone, setFlush, log]
    obtain ⟨u, hu, hdone⟩ := flushing_running n raises hrunning
    exact ⟨u, .called (k := 0) (by rw [hone]; rfl) hy hu, hdone⟩

/-- What the wheel promises: the tables agree; while it stays on the wheel an entry is handed
over once in every round of completed flushes; none is handed over while it is not on the wheel;
and whichever callbacks raise, a flush under way can come to its end. -/
structure Covers (n : Nat) (w : Wheel α) : Prop where
  sets : SameSet n w
  once : ∀ before h rest e, w.history = before ++ (.flushStart :: h ++ [.flushEnd]) ++ rest →
    onWheel before e = true → .removed e ∉ h → h.count .flushEnd + 1 = n →
    h.count (.handed e) = 1
  handed : ∀ h rest e, w.history = h ++ [.handed e] ++ rest → onWheel h e = true
  completes : ∀ raises, w.flushing = true → ∃ u, Flushing n raises w u ∧ u.flushing = false

end Wheel

/-- The save wheel covers its entries in every run. -/
theorem wheel_covers {w : Wheel α} [DecidableEq α] (period : Rat)
    (h : (system α period).Reaches anyStep w) : w.Covers (slotCount period) := by
  obtain ⟨hsets, hflush, hruns⟩ := Wheel.reaches_seen h
  refine ⟨hsets, ?_, ?_, hflush.completes _⟩
  · intro before h rest e he hon hstay hround
    obtain ⟨v, hv, _⟩ := (hruns e).split he
    exact hv.once hon hstay hround
  · intro h rest e he
    obtain ⟨v, hv, _⟩ := (hruns e).split he
    exact hv.handed

/-- Two slots and a whole round; the callback of the only entry raises. -/
theorem wheel_covers_round : ∃ w, (system Nat 2).Reaches anyStep w ∧
    w.history = [.added 7 2, .flushStart, .flushEnd, .flushStart, .handed 7, .raised 7, .flushEnd] ∧
    w.Covers (slotCount 2) :=
  have hr := (system Nat 2).run_reaches anyStep
    [.add 7 2, .tick, .startFlush 0 [], .endFlush 0, .tick, .tick, .startFlush 0 [7], .next 0,
      .raised 0, .endFlush 0] rfl (by decide +kernel)
  ⟨_, hr, by decide +kernel, wheel_covers 2 hr⟩

end SaveWheel
end Skyext
