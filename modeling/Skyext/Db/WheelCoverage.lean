import Skyext.Db.SaveWheel
import Skyext.Lib.Turns

namespace Skyext
set_option autoImplicit true

namespace SaveWheel
open Machine

variable {α : Type*}

/-- Where a flush under way stands with one entry: none runs, the entry is still to come in its
snapshot, or it is not. -/
inductive Turn
  | idle
  | due
  | past
  deriving DecidableEq

/-- The wheel as one entry sees it. -/
structure View where
  slot : Option Nat := none
  hand : Nat := 0
  turn : Turn := .idle

namespace View

/-- A flush starts at the next slot. -/
def start (n : Nat) (v : View) : View :=
  { v with
    hand := v.hand % n + 1
    turn := if v.slot = some (v.hand % n + 1) then .due else .past }

/-- What may happen to an entry; an entry that is due is passed over only when it is not in the
slot any more. -/
inductive Step (n : Nat) (e : α) : View → Option (Event α) → View → Prop
  | added : v.slot = none → 1 ≤ j → j ≤ n → Step n e v (some (.added e j)) { v with slot := some j }
  | removed : v.slot = some j → Step n e v (some (.removed e)) { v with slot := none }
  | flushStart : v.turn = .idle → Step n e v (some .flushStart) (v.start n)
  | handed : v.turn = .due → v.slot = some v.hand →
    Step n e v (some (.handed e)) { v with turn := .past }
  | skipped : v.turn = .due → v.slot ≠ some v.hand → Step n e v none { v with turn := .past }
  | flushEnd : v.turn = .past → Step n e v (some .flushEnd) { v with turn := .idle }
  | raised : Step n e v (some (.raised e')) v
  | addedOther : e' ≠ e → Step n e v (some (.added e' j)) v
  | removedOther : e' ≠ e → Step n e v (some (.removed e')) v
  | handedOther : e' ≠ e → Step n e v (some (.handed e')) v

/-- A run from one view to another with the events an observer sees on the way. -/
inductive Run (n : Nat) (e : α) (v : View) : List (Event α) → View → Prop
  | refl : Run n e v [] v
  | step : Run n e v h w → Step n e w ev u → Run n e v (h ++ ev.toList) u

variable {n : Nat} {e : α} {v w u : View} {h h' : List (Event α)}

theorem Run.silent (hr : Run n e v h w) (hs : Step n e w none u) : Run n e v h u := by
  simpa using hr.step hs

theorem Run.snoc (hr : Run n e v h w) (hs : Step n e w (some ev) u) : Run n e v (h ++ [ev]) u :=
  hr.step hs

theorem Run.trans (hr : Run n e v h w) (hr' : Run n e w h' u) : Run n e v (h ++ h') u := by
  induction hr' with
  | refl => simpa using hr
  | step _ hs ih => simpa using ih.step hs

/-- A run passes through a view at every point of its history. -/
theorem Run.split (hr : Run n e v h u) (he : h = a ++ b) :
    ∃ w, Run n e v a w ∧ Run n e w b u := by
  induction hr generalizing b with
  | refl =>
    obtain ⟨rfl, rfl⟩ := List.append_eq_nil_iff.mp he.symm
    exact ⟨v, .refl, .refl⟩
  | @step h w ev u hr hs ih =>
    cases ev with
    | none =>
      obtain ⟨x, hx, hx'⟩ := ih (by simpa using he)
      exact ⟨x, hx, hx'.silent hs⟩
    | some ev =>
      rcases List.eq_nil_or_concat b with rfl | ⟨b, ev', rfl⟩
      · exact ⟨u, by rw [← List.append_nil a, ← he]; exact hr.step hs, .refl⟩
      · rw [List.concat_eq_append, ← List.append_assoc] at he
        obtain ⟨he, hev⟩ := List.append_inj' he rfl
        obtain ⟨x, hx, hx'⟩ := ih he
        refine ⟨x, hx, ?_⟩
        rw [List.concat_eq_append, ← hev]
        exact hx'.step hs

theorem Run.last (hr : Run n e v h' u) (he : h' = h ++ [ev]) :
    ∃ x y, Run n e v h x ∧ Step n e x (some ev) y ∧ Run n e y [] u := by
  induction hr with
  | refl => cases (List.append_ne_nil_of_right_ne_nil h (List.cons_ne_nil ev [])) he.symm
  | @step h' w ev' u hr hs ih =>
    cases ev' with
    | none =>
      obtain ⟨x, y, hx, hxy, hy⟩ := ih (by simpa using he)
      exact ⟨x, y, hx, hxy, hy.silent hs⟩
    | some ev' =>
      obtain ⟨rfl, hev⟩ := List.append_inj' he rfl
      cases List.singleton_inj.mp hev
      exact ⟨w, u, hr, hs, .refl⟩

/-- Without an event the entry is passed over at most. -/
theorem Run.quiet (hr : Run n e v h u) (he : h = []) :
    u = v ∨ v.turn = .due ∧ u = { v with turn := .past } := by
  induction hr with
  | refl => exact .inl rfl
  | @step h w ev u hr hs ih =>
    cases ev with
    | some ev => cases (List.append_ne_nil_of_right_ne_nil h (List.cons_ne_nil ev [])) he
    | none =>
      cases hs with
      | skipped hdue _ =>
        rcases ih (by simpa using he) with rfl | ⟨_, rfl⟩
        · exact .inr ⟨hdue, rfl⟩
        · cases hdue

theorem Run.slot_le (hr : Run n e {} h v) : ∀ j, v.slot = some j → 1 ≤ j ∧ j ≤ n := by
  induction hr with
  | refl =>
    intro j hj
    cases hj
  | step _ hs ih =>
    cases hs with
    | added _ hle hge =>
      rintro _ ⟨⟩
      exact ⟨hle, hge⟩
    | removed _ =>
      intro j hj
      cases hj
    | _ => exact ih

end View

variable [DecidableEq α]

def onWheel (h : List (Event α)) (e : α) : Bool :=
  h.foldl (fun on ev => match ev with
    | .added e' _ => if e' = e then true else on
    | .removed e' => if e' = e then false else on
    | _ => on) false

theorem onWheel_snoc (h : List (Event α)) (ev : Event α) (e : α) :
    onWheel (h ++ [ev]) e = match ev with
      | .added e' _ => if e' = e then true else onWheel h e
      | .removed e' => if e' = e then false else onWheel h e
      | _ => onWheel h e := by
  rw [onWheel, List.foldl_append]
  rfl

namespace View

variable {n : Nat} {e : α} {v w u : View} {h : List (Event α)}

/-- From the empty wheel the record tells whether the entry has a slot. -/
theorem Run.onWheel (hr : Run n e {} h v) : onWheel h e = v.slot.isSome := by
  induction hr with
  | refl => rfl
  | step _ hs ih =>
    cases hs with
    | skipped _ _ => simpa using ih
    | added hnone _ _ => simp [onWheel_snoc]
    | removed hsome => simp [onWheel_snoc]
    | flushStart _ => simpa [onWheel_snoc, View.start] using ih
    | handed _ _ => simpa [onWheel_snoc] using ih
    | flushEnd _ => simpa [onWheel_snoc] using ih
    | raised => simpa [onWheel_snoc] using ih
    | addedOther hne => simpa [onWheel_snoc, hne] using ih
    | removedOther hne => simpa [onWheel_snoc, hne] using ih
    | handedOther hne => simpa [onWheel_snoc] using ih

/-- An entry is handed over only while it is on the wheel. -/
theorem Run.handed (hr : Run n e {} (h ++ [.handed e]) v) : SaveWheel.onWheel h e = true := by
  obtain ⟨x, y, hx, hs, _⟩ := hr.last rfl
  rw [hx.onWheel]
  cases hs with
  | handed _ hslot => rw [hslot]; rfl
  | handedOther hne => exact absurd rfl hne

/-- How far the flushes since a view have come with an entry that keeps its slot `j`: `h` is the
record since, `base` the position at the beginning. -/
structure Progress (n base j : Nat) (e : α) (h : List (Event α)) (v : View) : Prop where
  slot : v.slot = some j
  idle : v.turn = .idle → v.hand % n + 1 = (base + h.count .flushEnd) % n + 1 ∧
    h.count (.handed e) = Turns.visits n base j (h.count .flushEnd)
  due : v.turn = .due → v.hand = (base + h.count .flushEnd) % n + 1 ∧ v.hand = j ∧
    h.count (.handed e) = Turns.visits n base j (h.count .flushEnd)
  past : v.turn = .past → v.hand = (base + h.count .flushEnd) % n + 1 ∧
    h.count (.handed e) = Turns.visits n base j (h.count .flushEnd + 1)

theorem Progress.snoc_other (hp : Progress n base j e h v) (hend : ev ≠ .flushEnd)
    (hev : ev ≠ .handed e) : Progress n base j e (h ++ [ev]) v := by
  have hcount : (h ++ [ev]).count .flushEnd = h.count .flushEnd := by
    rw [List.count_append, List.count_singleton, if_neg (by simpa using hend), Nat.add_zero]
  have hhanded : (h ++ [ev]).count (.handed e) = h.count (.handed e) := by
    rw [List.count_append, List.count_singleton, if_neg (by simpa using hev), Nat.add_zero]
  constructor
  · exact hp.slot
  · rw [hcount, hhanded]
    exact hp.idle
  · rw [hcount, hhanded]
    exact hp.due
  · rw [hcount, hhanded]
    exact hp.past

theorem Progress.step (hp : Progress n base j e h v) (hs : Step n e v (some ev) w)
    (hstay : ev ≠ .removed e) : Progress n base j e (h ++ [ev]) w := by
  cases hs with
  | added hnone _ _ => cases hp.slot.symm.trans hnone
  | removed _ => exact absurd rfl hstay
  | flushStart hidle =>
    obtain ⟨hhand, hcount⟩ := hp.idle hidle
    refine Progress.snoc_other (v := v.start n) ⟨hp.slot, ?_, ?_, ?_⟩ (by simp) (by simp)
    · intro ht
      dsimp only [start] at ht
      split at ht <;> cases ht
    · intro ht
      dsimp only [start] at ht ⊢
      split at ht
      · next hj =>
        rw [hp.slot] at hj
        exact ⟨hhand, (Option.some.inj hj).symm, hcount⟩
      · cases ht
    · intro ht
      dsimp only [start] at ht ⊢
      split at ht
      · cases ht
      · next hj =>
        rw [hp.slot, hhand] at hj
        refine ⟨hhand, ?_⟩
        rw [hcount, Turns.visits_succ, if_neg (fun he => hj (congrArg some he.symm)), Nat.add_zero]
  | handed hdue hslot =>
    obtain ⟨hhand, hj, hcount⟩ := hp.due hdue
    refine ⟨hp.slot, by rintro ⟨⟩, by rintro ⟨⟩, fun _ => ?_⟩
    have hend : (h ++ [Event.handed e]).count Event.flushEnd = h.count .flushEnd := by simp
    rw [hend, List.count_append, List.count_singleton_self, hcount, Turns.visits_succ,
      if_pos (hhand.symm.trans hj)]
    exact ⟨hhand, rfl⟩
  | flushEnd hpast =>
    obtain ⟨hhand, hcount⟩ := hp.past hpast
    refine ⟨hp.slot, fun _ => ?_, by rintro ⟨⟩, by rintro ⟨⟩⟩
    have hend : (h ++ [Event.flushEnd]).count Event.flushEnd = h.count .flushEnd + 1 := by simp
    have hhanded : (h ++ [Event.flushEnd]).count (Event.handed e) = h.count (.handed e) := by
      simp
    rw [hend, hhanded, hcount]
    dsimp only
    rw [hhand, Turns.place_succ]
    exact ⟨rfl, rfl⟩
  | raised => exact hp.snoc_other (by simp) (by simp)
  | addedOther hne => exact hp.snoc_other (by simp) (by simp)
  | removedOther hne => exact hp.snoc_other (by simp) (by simp)
  | handedOther hne => exact hp.snoc_other (by simp) (by simpa using hne)

theorem Run.progress (hr : Run n e v h w) (hidle : v.turn = .idle) (hslot : v.slot = some j)
    (hstay : .removed e ∉ h) : Progress n v.hand j e h w := by
  induction hr with
  | refl => exact ⟨hslot, fun _ => ⟨rfl, rfl⟩, by simp [hidle], by simp [hidle]⟩
  | @step h w ev u hr hs ih =>
    have hp := ih (by simp_all)
    cases ev with
    | none =>
      cases hs with
      | skipped hdue hne =>
        refine absurd ?_ hne
        rw [hp.slot, (hp.due hdue).2.1]
    | some ev =>
      refine hp.step hs ?_
      rintro rfl
      simp at hstay

/-- While it stays on the wheel an entry is handed over once in every round of flushes. -/
theorem Run.once (hr : Run n e {} (before ++ (.flushStart :: h ++ [.flushEnd])) v)
    (hon : SaveWheel.onWheel before e = true) (hstay : .removed e ∉ h)
    (hround : h.count .flushEnd + 1 = n) : h.count (.handed e) = 1 := by
  obtain ⟨w, hw, hr⟩ := hr.split rfl
  obtain ⟨x, y, hx, hlast, _⟩ := hr.last rfl
  -- the first flush starts with none under way
  obtain ⟨_, hfirst, _⟩ := Run.split (a := [.flushStart]) (b := h) hx rfl
  obtain ⟨z, _, hz, hstart, _⟩ := Run.last (h := []) hfirst rfl
  have hidle : w.turn = .idle := by
    cases hstart with
    | flushStart hidle =>
      rcases hz.quiet rfl with rfl | ⟨_, rfl⟩
      · exact hidle
      · cases hidle
  rw [hw.onWheel, Option.isSome_iff_exists] at hon
  obtain ⟨j, hj⟩ := hon
  have hp := hx.progress hidle hj (by simpa using hstay)
  obtain ⟨hle, hge⟩ := hw.slot_le j hj
  cases hlast with
  | flushEnd hpast =>
    obtain ⟨_, hcount⟩ := hp.past hpast
    have hend : (.flushStart :: h).count (.flushEnd : Event α) = h.count .flushEnd := by simp
    have hhanded : (.flushStart :: h).count (Event.handed e) = h.count (.handed e) := by simp
    rw [hhanded, hend, hround, Turns.visits_round hle hge] at hcount
    exact hcount

end View

end SaveWheel
end Skyext
