import Mathlib.Data.Int.Order.Basic
import Skyext.Lib.Machine

namespace Skyext
set_option autoImplicit true

namespace Hotfix
open Machine

def lockMaxHold : Int := 300

/-- A call of `execute_hotfix` that holds or has held the lock and has not ended. -/
structure HotfixRun where
  id : Nat
  start : Int
  deriving DecidableEq

/-- `g_hotfix_lock` and the clock, with the runs that have not ended and, as a record, every start
with the runs that were under way then. -/
structure Service where
  now : Int
  lock : Option Int
  count : Nat
  runs : List HotfixRun
  starts : List (Int × List HotfixRun)
  deriving DecidableEq

inductive Action
  | executeHotfix
  | finish (i : Nat)
  | tick (seconds : Nat)

namespace Service

/-- Another hotfix is in progress and not stale. -/
def locked (s : Service) : Bool :=
  match s.lock with
  | some lock => decide (s.now - lock < lockMaxHold)
  | none => false

def start (s : Service) : Service :=
  { s with
    lock := some s.now
    count := s.count + 1
    runs := ⟨s.count + 1, s.now⟩ :: s.runs
    starts := s.starts ++ [(s.now, s.runs)] }

def executeHotfix (s : Service) : Service := if s.locked then s else s.start

def cleanup (s : Service) : Service := { s with lock := none }

def finish (s : Service) (i : Nat) : Service := { s.cleanup with runs := s.runs.eraseIdx i }

def step (s : Service) : Action → Option Service
  | .executeHotfix => some s.executeHotfix
  | .finish i => if i < s.runs.length then some (s.finish i) else none
  | .tick seconds => some { s with now := s.now + seconds }

end Service

def system : System Service Action := ⟨fun s => s = ⟨s.now, none, 0, [], []⟩, Service.step⟩

/-- No run starts while one is under way that started recently, and the lock of the last run stays
until that run ends. -/
structure Service.Exclusive (s : Service) : Prop where
  fresh : ∀ p ∈ s.starts, ∀ r ∈ p.2, lockMaxHold ≤ p.1 - r.start
  held : ∀ r ∈ s.runs, r.id = s.count → s.lock = some r.start

/-- A run that ends has not been replaced by one that is still under way. -/
def NotOvertaken (s : Service) : Action → Prop
  | .finish i => ∀ r ∈ s.runs[i]?, ∀ other ∈ s.runs, other.id ≤ r.id
  | _ => True

instance (s : Service) (a : Action) : Decidable (NotOvertaken s a) := by
  cases a <;> unfold NotOvertaken <;> infer_instance

/-- The runs under way are stale but for the one that has the lock. -/
structure Service.Inv (s : Service) : Prop extends s.Exclusive where
  le : ∀ r ∈ s.runs, r.id ≤ s.count
  stale : ∀ r ∈ s.runs, lockMaxHold ≤ s.now - r.start ∨ s.lock = some r.start ∧ r.id = s.count
  one : s.runs.Pairwise fun r other => r.id ≠ other.id

namespace Service

variable {s t : Service}

theorem Inv.start (h : s.Inv) (hlocked : s.locked = false) : s.start.Inv := by
  have hstale : ∀ r ∈ s.runs, lockMaxHold ≤ s.now - r.start := by
    intro r hr
    rcases h.stale r hr with hs | ⟨hl, _⟩
    · exact hs
    · simpa [locked, hl] using hlocked
  refine ⟨⟨?_, ?_⟩, ?_, ?_, ?_⟩
  · intro p hp r hr
    rcases List.mem_append.mp hp with hp | hp
    · exact h.fresh p hp r hr
    · cases List.mem_singleton.mp hp
      exact hstale r hr
  · intro r hr hid
    rcases List.mem_cons.mp hr with rfl | hr
    · rfl
    · have hle := h.le r hr
      exact absurd hid (by simp only [Service.start]; omega)
  · intro r hr
    rcases List.mem_cons.mp hr with rfl | hr
    · exact Nat.le_refl _
    · exact Nat.le_trans (h.le r hr) (Nat.le_succ _)
  · intro r hr
    rcases List.mem_cons.mp hr with rfl | hr
    · exact .inr ⟨rfl, rfl⟩
    · exact .inl (hstale r hr)
  · refine List.pairwise_cons.mpr ⟨?_, h.one⟩
    intro r hr
    have hle := h.le r hr
    simp only
    omega

theorem Inv.finish (h : s.Inv) (hi : s.runs[i]? = some r)
    (hlast : ∀ other ∈ s.runs, other.id ≤ r.id) : (s.finish i).Inv := by
  have hmem := List.mem_of_getElem? hi
  -- the run that has the lock is the one that ends
  have hgone : ∀ other ∈ s.runs.eraseIdx i, lockMaxHold ≤ s.now - other.start ∧
      other.id ≠ s.count := by
    intro other ho
    have hin := List.mem_of_mem_eraseIdx ho
    have hne : other.id ≠ r.id := by
      obtain ⟨hlt, rfl⟩ := List.getElem?_eq_some_iff.mp hi
      obtain ⟨j, hj, hji, rfl⟩ := List.mem_eraseIdx_iff_getElem.mp ho
      rcases Nat.lt_or_gt_of_ne hji with hl | hl
      · exact List.pairwise_iff_getElem.mp h.one j i hj hlt hl
      · exact (List.pairwise_iff_getElem.mp h.one i j hlt hj hl).symm
    have hle := hlast other hin
    have hcount := h.le r hmem
    have hne' : other.id ≠ s.count := by omega
    rcases h.stale other hin with hs | ⟨_, hid⟩
    · exact ⟨hs, hne'⟩
    · exact absurd hid hne'
  refine ⟨⟨h.fresh, ?_⟩, ?_, ?_, h.one.sublist (List.eraseIdx_sublist ..)⟩
  · intro other ho hid
    exact absurd hid (hgone other ho).2
  · intro other ho
    exact h.le other (List.mem_of_mem_eraseIdx ho)
  · intro other ho
    exact .inl (hgone other ho).1

theorem Inv.step (h : s.Inv) (hok : NotOvertaken s a) (ht : system.step s a = some t) : t.Inv := by
  cases a with
  | executeHotfix =>
    cases ht
    rw [executeHotfix]
    split
    · exact h
    · next hl => exact h.start ((Bool.not_eq_true _).mp hl)
  | finish i =>
    obtain ⟨hi, he⟩ := Option.ite_none_right_eq_some.mp ht
    cases he
    have hr := List.getElem?_eq_getElem hi
    exact h.finish hr (hok _ hr)
  | tick seconds =>
    cases ht
    refine { h with stale := ?_ }
    intro r hr
    refine (h.stale r hr).imp_left fun hs => ?_
    simp only
    omega

end Service

/-- A fresh hotfix is the only one, and its lock is not removed by one it has replaced. -/
theorem hotfix_exclusive (h : system.Reaches NotOvertaken s) : s.Exclusive := by
  have hinv : s.Inv := by
    refine h.invariant (I := Service.Inv) ?_ fun _ _ _ hi hok ht => hi.step hok ht
    intro s hs
    rw [hs]
    constructor
    · constructor
      · rintro p ⟨⟩
      · rintro r ⟨⟩
    · rintro r ⟨⟩
    · rintro r ⟨⟩
    · exact List.Pairwise.nil
  exact hinv.toExclusive

/-- A stale run is replaced, and the run that replaced it ends before it. -/
def replaced : List Action :=
  [.executeHotfix, .tick 300, .executeHotfix, .executeHotfix, .tick 10, .finish 0, .finish 0,
    .executeHotfix]

theorem hotfix_exclusive_replaced :
    (system.run NotOvertaken ⟨0, none, 0, [], []⟩ replaced (by decide +kernel)).Exclusive :=
  hotfix_exclusive (system.run_reaches NotOvertaken replaced (by exact rfl) (by decide +kernel))

/-- The stale run ends first and clears the lock of its successor, so that a third run starts. -/
def overtaken : List Action :=
  [.executeHotfix, .tick 300, .executeHotfix, .tick 10, .finish 1, .tick 10, .executeHotfix]

theorem hotfix_overtaken : ¬ ∀ s, system.Reaches anyStep s → s.Exclusive := by
  intro h
  have hf := (h _ (system.run_reaches anyStep (s := ⟨0, none, 0, [], []⟩) overtaken
    (by exact rfl) (by decide +kernel))).fresh
  exact absurd hf (by decide +kernel)

end Hotfix
end Skyext
