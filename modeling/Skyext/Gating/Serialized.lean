import Skyext.Gating.Gates

namespace Skyext
set_option autoImplicit true

namespace Gating
open Machine

variable {κ K V : Type}

def atGate (g : Nat) (l : List (Call κ K)) : List (Call κ K) := l.filter fun x => x.gate == g

section

variable {l m : List (Call κ K)} {x : Call κ K} {g : Nat}

theorem mem_atGate : x ∈ atGate g l ↔ x ∈ l ∧ x.gate = g := by simp [atGate]

theorem atGate_append : atGate g (l ++ m) = atGate g l ++ atGate g m :=
  List.filter_append l m

theorem atGate_cons (hx : x.gate = g) : atGate g (x :: l) = x :: atGate g l :=
  List.filter_cons_of_pos (by simp [hx])

theorem atGate_cons_ne (hx : x.gate ≠ g) : atGate g (x :: l) = atGate g l :=
  List.filter_cons_of_neg (by simp [hx])

theorem atGate_eq_nil : atGate g l = [] ↔ ∀ x ∈ l, x.gate ≠ g := by
  simp [atGate, List.filter_eq_nil_iff]

end

namespace Gates

variable {Q : Fifo.Queue κ} {s t : Gates κ K V Q} {x y : Call κ K} {c : κ} {g g' n : Nat} {key : K}

/-- A queue agrees with the calls of its gate: nobody is there, or the coroutine it runs is the one
in the body and the others wait in the order of the queue. -/
def Serves (s : Gates κ K V Q) (g : Nat) : Prop :=
  (Q.holder (s.objects g).run = none ∧ Q.waiting (s.objects g).run = [] ∧
    atGate g s.running = [] ∧ atGate g s.queued = []) ∨
  ∃ c n, Q.holder (s.objects g).run = some (c, n) ∧ (atGate g s.running).length = n + 1 ∧
    (∀ x ∈ atGate g s.running, x.caller = c) ∧
    Q.waiting (s.objects g).run = (atGate g s.queued).map Call.caller ∧
    ∀ x ∈ atGate g s.queued, x.caller ≠ c

/-- What holds also while a gate that has just been created has no user. -/
structure Sound [DecidableEq K] (s : Gates κ K V Q) : Prop where
  kept : ∀ x ∈ s.running ++ s.queued, s.gates x.key = some x.gate
  lt : ∀ key g, s.gates key = some g → g < s.size
  inj : ∀ key key' g, s.gates key = some g → s.gates key' = some g → key = key'
  users : ∀ key g, s.gates key = some g →
    (s.objects g).users = (atGate g s.running).length + (atGate g s.queued).length
  serves : ∀ key g, s.gates key = some g → s.Serves g
  nodup : (s.queued.map Call.caller).Nodup
  fifo : ∀ key, s.arrived key =
    s.admitted key ++ (s.queued.filter fun x => x.key = key).map Call.caller

/-- No gate stays in the table without a call in progress. -/
def Live (s : Gates κ K V Q) : Prop :=
  ∀ key, s.gates key ≠ none → ∃ x ∈ s.running ++ s.queued, x.key = key

theorem Serves.frame (h : s.Serves g) (hobj : (t.objects g).run = (s.objects g).run)
    (hr : atGate g t.running = atGate g s.running) (hq : atGate g t.queued = atGate g s.queued) :
    t.Serves g := by
  rw [Serves, hobj, hr, hq]
  exact h

theorem holds_iff [DecidableEq κ] :
     s.holds g c = true ↔ ∃ n, Q.holder (s.objects g).run = some (c, n) := by
  simp [holds]

theorem setObject_self (a : Gate Q) : (s.setObject g a).objects g = a := by simp [setObject]

theorem setObject_setObject (a b : Gate Q) :
    (s.setObject g a).setObject g b = s.setObject g b := by
  simp only [setObject]
  congr 1
  funext g'
  by_cases h : g' = g <;> simp [h]

variable [DecidableEq K]

theorem Sound.one (h : s.Sound) (hx : x ∈ s.running) (hy : y ∈ s.running) (he : x.key = y.key) :
    x.caller = y.caller := by
  have hgx := h.kept x (List.mem_append_left _ hx)
  have hgy := h.kept y (List.mem_append_left _ hy)
  have hg : y.gate = x.gate := Option.some.inj (hgy.symm.trans (he ▸ hgx))
  rcases h.serves x.key x.gate hgx with ⟨_, _, hno, _⟩ | ⟨c, n, _, _, hrun, _⟩
  · exact absurd rfl (atGate_eq_nil.mp hno x hx)
  · rw [hrun x (mem_atGate.mpr ⟨hx, rfl⟩), hrun y (mem_atGate.mpr ⟨hy, hg⟩)]

theorem Sound.key_iff (h : s.Sound) (hg : s.gates key = some g) (hx : x ∈ s.running ++ s.queued) :
    x.key = key ↔ x.gate = g := by
  have hk := h.kept x hx
  constructor
  · rintro rfl
    exact Option.some.inj (hk.symm.trans hg)
  · rintro rfl
    exact h.inj _ _ _ hk hg

/-- The gate that the function goes on with is that of the key. -/
theorem Sound.ensureGate (h : s.Sound) (key : K) :
    (s.ensureGate key).1.Sound ∧ (s.ensureGate key).1.gates key = some (s.ensureGate key).2 ∧
      (s.ensureGate key).1.running = s.running ∧ (s.ensureGate key).1.queued = s.queued ∧
      ∀ key', key' ≠ key → (s.ensureGate key).1.gates key' = s.gates key' := by
  rw [Gates.ensureGate]
  split
  · next g hg => exact ⟨h, hg, rfl, rfl, fun _ _ => rfl⟩
  · next hnone =>
    have hkey : ∀ x ∈ s.running ++ s.queued, x.key ≠ key ∧ x.gate ≠ s.size := by
      intro x hx
      have hg := h.kept x hx
      constructor
      · rintro rfl
        cases hnone.symm.trans hg
      · have hlt := h.lt x.key x.gate hg
        omega
    have hr : atGate s.size s.running = [] :=
      atGate_eq_nil.mpr fun x hx => (hkey x (List.mem_append_left _ hx)).2
    have hq : atGate s.size s.queued = [] :=
      atGate_eq_nil.mpr fun x hx => (hkey x (List.mem_append_right _ hx)).2
    refine ⟨⟨?_, ?_, ?_, ?_, ?_, h.nodup, h.fifo⟩, ?_, rfl, rfl, ?_⟩
    · intro x hx
      exact (if_neg (hkey x hx).1).trans (h.kept x hx)
    · intro key' g hg
      by_cases he : key' = key
      · simp only [he, if_true, Option.some.injEq] at hg
        exact hg ▸ Nat.lt_succ_self _
      · simp only [he, if_false] at hg
        exact Nat.lt_succ_of_lt (h.lt key' g hg)
    · intro key' key'' g hg hg'
      by_cases he : key' = key <;> by_cases he' : key'' = key <;>
        simp only [he, he', if_true, if_false, Option.some.injEq] at hg hg'
      · rw [he, he']
      · have hlt := h.lt key'' g hg'
        omega
      · have hlt := h.lt key' g hg
        omega
      · exact h.inj key' key'' g hg hg'
    · intro key' g hg
      by_cases he : key' = key
      · simp only [he, if_true, Option.some.injEq] at hg
        subst hg
        simp [setObject, hr, hq]
      · simp only [he, if_false] at hg
        have hne := Nat.ne_of_lt (h.lt key' g hg)
        simpa [setObject, hne] using h.users key' g hg
    · intro key' g hg
      by_cases he : key' = key
      · simp only [he, if_true, Option.some.injEq] at hg
        subst hg
        refine .inl ⟨?_, ?_, hr, hq⟩
        · simp [setObject, Q.new_holder]
        · simp [setObject, Q.new_waiting]
      · simp only [he, if_false] at hg
        have hne := Nat.ne_of_lt (h.lt key' g hg)
        exact (h.serves key' g hg).frame (by simp [setObject, hne]) rfl rfl
    · simp
    · intro key' hne
      simp [hne]

/-- A step of one gate: what is left to show is about that gate. -/
theorem Sound.update (h : s.Sound) (hg : s.gates key = some g) (hx : x.key = key ∧ x.gate = g)
    (hgates : t.gates = s.gates) (hsize : t.size = s.size)
    (hmem : ∀ y ∈ t.running ++ t.queued, y = x ∨ y ∈ s.running ++ s.queued)
    (hobj : ∀ g', g' ≠ g → t.objects g' = s.objects g')
    (hr : ∀ g', g' ≠ g → atGate g' t.running = atGate g' s.running)
    (hq : ∀ g', g' ≠ g → atGate g' t.queued = atGate g' s.queued)
    (husers : (t.objects g).users = (atGate g t.running).length + (atGate g t.queued).length)
    (hserves : t.Serves g) (hnodup : (t.queued.map Call.caller).Nodup)
    (hfifo : ∀ key, t.arrived key =
      t.admitted key ++ (t.queued.filter fun x => x.key = key).map Call.caller) : t.Sound := by
  refine ⟨?_, ?_, ?_, ?_, ?_, hnodup, hfifo⟩
  · intro y hy
    rw [hgates]
    rcases hmem y hy with rfl | hy
    · rw [hx.1, hx.2]
      exact hg
    · exact h.kept y hy
  · rw [hgates, hsize]
    exact h.lt
  · rw [hgates]
    exact h.inj
  · intro key' g' hg'
    rw [hgates] at hg'
    by_cases he : g' = g
    · exact he ▸ husers
    · rw [hobj g' he, hr g' he, hq g' he]
      exact h.users key' g' hg'
  · intro key' g' hg'
    rw [hgates] at hg'
    by_cases he : g' = g
    · exact he ▸ hserves
    · exact (h.serves key' g' hg').frame (by rw [hobj g' he]) (hr g' he) (hq g' he)

theorem Sound.again (h : s.Sound) (hg : s.gates key = some g)
    (hh : Q.holder (s.objects g).run = some (c, n)) : Sound { (s.addUser g).setObject g
      ⟨Q.enter c (s.objects g).run, (s.objects g).users + 1⟩ with
        running := ⟨c, key, g⟩ :: s.running } := by
  have hcons : ∀ l, atGate g ((⟨c, key, g⟩ : Call κ K) :: l) = ⟨c, key, g⟩ :: atGate g l :=
    fun _ => atGate_cons rfl
  rcases h.serves key g hg with ⟨hnone, _⟩ | ⟨c', n', hhold, hlen, hrun, hwait, hq⟩
  · cases hnone.symm.trans hh
  · cases hhold.symm.trans hh
    obtain ⟨he, hwait'⟩ := Q.enter_again hh
    refine h.update (x := ⟨c, key, g⟩) hg ⟨rfl, rfl⟩ rfl rfl ?_ ?_ ?_ (fun _ _ => rfl) ?_ ?_
      h.nodup h.fifo
    · intro y hy
      simpa [setObject, addUser, or_assoc] using hy
    · intro g' hne
      simp [setObject, addUser, hne]
    · intro g' hne
      exact atGate_cons_ne (Ne.symm hne)
    · have hu := h.users key g hg
      simp only [setObject, addUser, if_true, hcons, List.length_cons]
      omega
    · refine .inr ⟨c, n + 1, ?_, ?_, ?_, ?_, hq⟩
      · simpa [setObject] using he
      · simp only [hcons, List.length_cons, hlen]
      · intro y hy
        simp only [hcons] at hy
        rcases List.mem_cons.mp hy with rfl | hy
        · rfl
        · exact hrun y hy
      · simpa [setObject, addUser, hwait'] using hwait

theorem Sound.free (h : s.Sound) (hg : s.gates key = some g)
    (hh : Q.holder (s.objects g).run = none) : Sound
      ((((s.addUser g).setObject g ⟨Q.enter c (s.objects g).run, (s.objects g).users + 1⟩).arrive
        ⟨c, key, g⟩).letIn ⟨c, key, g⟩) := by
  have hcons : ∀ l, atGate g ((⟨c, key, g⟩ : Call κ K) :: l) = ⟨c, key, g⟩ :: atGate g l :=
    fun _ => atGate_cons rfl
  rcases h.serves key g hg with ⟨_, hwait, hr, hq⟩ | ⟨c', n', hhold, _⟩
  · obtain ⟨he, hwait'⟩ := Q.enter_free hh
    refine h.update (x := ⟨c, key, g⟩) hg ⟨rfl, rfl⟩ rfl rfl ?_ ?_ ?_ (fun _ _ => rfl) ?_ ?_
      h.nodup ?_
    · intro y hy
      simpa [letIn, arrive, setObject, addUser, or_assoc] using hy
    · intro g' hne
      simp [letIn, arrive, setObject, addUser, hne]
    · intro g' hne
      exact atGate_cons_ne (Ne.symm hne)
    · have hu := h.users key g hg
      simp only [letIn, arrive, setObject, addUser, if_true, hcons, List.length_cons]
      omega
    · refine .inr ⟨c, 0, ?_, ?_, ?_, ?_, ?_⟩
      · simpa [letIn, arrive, setObject] using he
      · simp only [letIn, hcons, List.length_cons]
        exact congrArg (·.length + 1) hr
      · intro y hy
        simp only [letIn, hcons] at hy
        rcases List.mem_cons.mp hy with rfl | hy
        · rfl
        · have hy : y ∈ atGate g s.running := hy
          rw [hr] at hy
          cases hy
      · have hq' : atGate g s.queued = [] := hq
        simp [letIn, arrive, setObject, addUser, hwait', hwait, hq']
      · intro y hy
        have hy : y ∈ atGate g s.queued := hy
        rw [hq] at hy
        cases hy
    · intro key'
      have hf := h.fifo key'
      by_cases hk : key' = key
      · subst hk
        have hnone : (s.queued.filter fun x => x.key = key') = [] := by
          refine List.filter_eq_nil_iff.mpr fun y hy => ?_
          have hiff := h.key_iff hg (List.mem_append_right _ hy)
          have hne := atGate_eq_nil.mp hq y hy
          simp [hiff, hne]
        simp only [letIn, arrive, setObject, addUser, if_true, hnone, List.map_nil,
          List.append_nil] at hf ⊢
        rw [hf]
      · simpa [letIn, arrive, setObject, addUser, hk] using hf
  · cases hhold.symm.trans hh

theorem Sound.busy {d : κ} (h : s.Sound) (hg : s.gates key = some g)
    (hh : Q.holder (s.objects g).run = some (d, n)) (hne : d ≠ c)
    (hw : ∀ y ∈ s.queued, y.caller ≠ c) : Sound
      { ((s.addUser g).setObject g ⟨Q.enter c (s.objects g).run, (s.objects g).users + 1⟩).arrive
          ⟨c, key, g⟩ with queued := s.queued ++ [⟨c, key, g⟩] } := by
  have hsnoc : atGate g (s.queued ++ [(⟨c, key, g⟩ : Call κ K)]) =
      atGate g s.queued ++ [⟨c, key, g⟩] := by
    rw [atGate_append, atGate_cons (x := ⟨c, key, g⟩) rfl]
    rfl
  rcases h.serves key g hg with ⟨hnone, _⟩ | ⟨d', n', hhold, hlen, hrun, hwait, hq⟩
  · cases hnone.symm.trans hh
  · cases hhold.symm.trans hh
    obtain ⟨he, hwait'⟩ := Q.enter_busy hh hne
    refine h.update (x := ⟨c, key, g⟩) hg ⟨rfl, rfl⟩ rfl rfl ?_ ?_ (fun _ _ => rfl) ?_ ?_ ?_ ?_ ?_
    · intro y hy
      simp only [List.mem_append, List.mem_singleton, arrive, setObject, addUser] at hy ⊢
      rcases hy with hy | hy | hy
      · exact .inr (.inl hy)
      · exact .inr (.inr hy)
      · exact .inl hy
    · intro g' hne'
      simp [arrive, setObject, addUser, hne']
    · intro g' hne'
      simp only [atGate_append, atGate_cons_ne (x := (⟨c, key, g⟩ : Call κ K)) (Ne.symm hne')]
      exact List.append_nil _
    · have hu := h.users key g hg
      simp only [arrive, setObject, addUser, if_true, hsnoc, List.length_append,
        List.length_singleton]
      omega
    · refine .inr ⟨d, n, ?_, hlen, hrun, ?_, ?_⟩
      · simpa [arrive, setObject] using he
      · simp only [arrive, setObject, if_true, hwait', hsnoc, List.map_append, hwait,
          List.map_singleton]
      · intro y hy
        simp only [hsnoc] at hy
        rcases List.mem_append.mp hy with hy | hy
        · exact hq y hy
        · cases List.mem_singleton.mp hy
          exact Ne.symm hne
    · simp only [List.map_append, List.map_singleton]
      refine List.nodup_append.mpr ⟨h.nodup, List.pairwise_singleton _ _, ?_⟩
      intro a ha b hb
      obtain ⟨y, hy, rfl⟩ := List.mem_map.mp ha
      cases List.mem_singleton.mp hb
      exact hw y hy
    · intro key'
      have hf := h.fifo key'
      by_cases hk : key' = key
      · subst hk
        simp [arrive, setObject, addUser, hf]
      · have hk' : key ≠ key' := Ne.symm hk
        simpa [arrive, setObject, addUser, hk, hk'] using hf

/-- The gate object after one of its calls is over. -/
def released (s : Gates κ K V Q) (g : Nat) : Gates κ K V Q :=
  s.setObject g ⟨Q.leave (s.objects g).run, (s.objects g).users - 1⟩

/-- A call is over and none that waits goes on: its coroutine is still in the body, or nobody
waits. -/
theorem Sound.quiet {r r' : List (Call κ K)} (h : s.Sound) (hg : s.gates key = some g)
    (hr : s.running = r ++ x :: r') (hx : x.key = key ∧ x.gate = g)
    (hq : (∃ n, Q.holder (s.objects g).run = some (x.caller, n + 1)) ∨
      Q.waiting (s.objects g).run = []) :
    Sound ({ s with running := r ++ r' }.released g) := by
  have hat : atGate g s.running = atGate g r ++ x :: atGate g r' := by
    rw [hr, atGate_append, atGate_cons hx.2]
  have hxin : x ∈ atGate g s.running := by
    rw [hat]
    simp
  refine h.update (x := x) hg hx rfl rfl ?_ ?_ ?_ (fun _ _ => rfl) ?_ ?_ h.nodup h.fifo
  · intro y hy
    simp only [released, setObject, hr, List.mem_append, List.mem_cons] at hy ⊢
    rcases hy with (hy | hy) | hy
    · exact .inr (.inl (.inl hy))
    · exact .inr (.inl (.inr (.inr hy)))
    · exact .inr (.inr hy)
  · intro g' hne
    simp [released, setObject, hne]
  · intro g' hne
    have hne' : x.gate ≠ g' := hx.2 ▸ Ne.symm hne
    simp only [released, setObject, hr, atGate_append, atGate_cons_ne hne']
  · have hu := h.users key g hg
    rw [hat] at hu
    simp only [released, setObject, if_true, atGate_append, List.length_append,
      List.length_cons] at hu ⊢
    omega
  · rcases h.serves key g hg with ⟨_, _, hno, _⟩ | ⟨c, n, hhold, hlen, hrun, hwait, hother⟩
    · rw [hno] at hxin
      cases hxin
    · have hc : x.caller = c := hrun x hxin
      subst hc
      have hsub : ∀ y ∈ atGate g (r ++ r'), y.caller = x.caller := by
        intro y hy
        refine hrun y ?_
        rw [hat]
        rw [atGate_append] at hy
        simp only [List.mem_append, List.mem_cons] at hy ⊢
        rcases hy with hy | hy
        · exact .inl hy
        · exact .inr (.inr hy)
      rw [hat, List.length_append, List.length_cons] at hlen
      cases n with
      | succ n =>
        obtain ⟨he, hwait'⟩ := Q.leave_nested hhold
        refine .inr ⟨x.caller, n, ?_, ?_, hsub, ?_, hother⟩
        · simpa [released, setObject] using he
        · simp only [released, setObject, atGate_append, List.length_append]
          omega
        · simpa [released, setObject, hwait'] using hwait
      | zero =>
        have hnil : Q.waiting (s.objects g).run = [] := by
          rcases hq with ⟨m, hm⟩ | hnil
          · cases hhold.symm.trans hm
          · exact hnil
        obtain ⟨he, hwait'⟩ := Q.leave_last hhold
        rw [hnil] at he hwait'
        refine .inl ⟨?_, ?_, ?_, ?_⟩
        · simpa [released, setObject] using he
        · simpa [released, setObject] using hwait'
        · simp only [released, setObject, atGate_append]
          exact List.length_eq_zero_iff.mp (by rw [List.length_append]; omega)
        · exact List.map_eq_nil_iff.mp (hwait.symm.trans hnil)

/-- A call is over and the first that waits goes on. -/
theorem Sound.next {r r' q q' : List (Call κ K)} (h : s.Sound) (hg : s.gates key = some g)
    (hr : s.running = r ++ x :: r') (hx : x.key = key ∧ x.gate = g)
    (hhold : Q.holder (s.objects g).run = some (x.caller, 0))
    (hq : s.queued = q ++ y :: q') (hy : y.gate = g) (hfirst : ∀ z ∈ q, z.gate ≠ g) :
    Sound { ({ s with running := r ++ r' }.released g).letIn y with queued := q ++ q' } := by
  have hat : atGate g s.running = atGate g r ++ x :: atGate g r' := by
    rw [hr, atGate_append, atGate_cons hx.2]
  have hatq : atGate g s.queued = y :: atGate g q' := by
    rw [hq, atGate_append, atGate_cons hy, atGate_eq_nil.mpr hfirst]
    rfl
  have hatq' : atGate g (q ++ q') = atGate g q' := by
    rw [atGate_append, atGate_eq_nil.mpr hfirst]
    rfl
  have hykey : y.key = key := (h.key_iff hg (by simp [hq])).mpr hy
  rcases h.serves key g hg with ⟨hnone, _⟩ | ⟨c, n, hhold', hlen, hrun, hwait, hother⟩
  · cases hnone.symm.trans hhold
  · cases hhold.symm.trans hhold'
    rw [hat, List.length_append, List.length_cons] at hlen
    have hnil : atGate g (r ++ r') = [] := by
      rw [atGate_append]
      exact List.length_eq_zero_iff.mp (by rw [List.length_append]; omega)
    rw [hatq, List.map_cons] at hwait
    obtain ⟨he, hwait'⟩ := Q.leave_last hhold
    rw [hwait] at he hwait'
    have hnodup := h.nodup
    rw [hq] at hnodup
    refine h.update (x := x) hg hx rfl rfl ?_ ?_ ?_ ?_ ?_ ?_ ?_ ?_
    · intro z hz
      simp only [letIn, released, setObject, hr, hq, List.mem_append, List.mem_cons] at hz ⊢
      tauto
    · intro g' hne
      simp [letIn, released, setObject, hne]
    · intro g' hne
      have hne' : x.gate ≠ g' := hx.2 ▸ Ne.symm hne
      have hyne : y.gate ≠ g' := hy ▸ Ne.symm hne
      simp only [letIn, released, setObject, hr, atGate_append, atGate_cons_ne hne',
        atGate_cons_ne hyne]
    · intro g' hne
      have hyne : y.gate ≠ g' := hy ▸ Ne.symm hne
      simp only [hq, atGate_append, atGate_cons_ne hyne]
    · have hu := h.users key g hg
      rw [hat, hatq] at hu
      simp only [letIn, released, setObject, if_true, atGate_cons hy, hnil, hatq',
        List.length_append, List.length_cons, List.length_nil] at hu ⊢
      omega
    · refine .inr ⟨y.caller, 0, ?_, ?_, ?_, ?_, ?_⟩
      · simpa [letIn, released, setObject] using he
      · simp only [letIn, released, setObject, atGate_cons hy, hnil, List.length_singleton]
      · intro z hz
        simp only [letIn, released, setObject, atGate_cons hy, hnil] at hz
        rw [List.mem_singleton.mp hz]
      · simpa [letIn, released, setObject, hatq'] using hwait'
      · intro z hz
        rw [hatq'] at hz
        rw [List.map_append, List.map_cons] at hnodup
        have hz' := (List.nodup_cons.mp (List.nodup_append.mp hnodup).2.1).1
        intro he
        exact hz' (he ▸ List.mem_map_of_mem (mem_atGate.mp hz).1)
    · rw [List.map_append, List.map_cons] at hnodup
      simp only [List.map_append]
      exact hnodup.sublist (List.Sublist.append_left (List.sublist_cons_self _ _) _)
    · intro key'
      have hf := h.fifo key'
      rw [hq, List.filter_append] at hf
      by_cases hk : key' = key
      · subst hk
        have hnone : (q.filter fun x => x.key = key') = [] := by
          refine List.filter_eq_nil_iff.mpr fun z hz => ?_
          have hiff := h.key_iff hg (x := z) (by simp [hq, hz])
          have hne := hfirst z hz
          simp [hiff, hne]
        rw [List.filter_cons_of_pos (by simp [hykey]), hnone] at hf
        simp [letIn, released, setObject, hykey, List.filter_append, hnone, hf]
      · have hk' : y.key ≠ key' := by
          rw [hykey]
          exact Ne.symm hk
        rw [List.filter_cons_of_neg (by simp [hk'])] at hf
        simpa [letIn, released, setObject, Ne.symm hk', List.filter_append] using hf

theorem Sound.drop (h : s.Sound) (hg : s.gates key = some g) (hr : atGate g s.running = [])
    (hq : atGate g s.queued = []) :
    Sound { s with gates := fun key' => if key' = key then none else s.gates key' } := by
  have hkey : ∀ x ∈ s.running ++ s.queued, x.key ≠ key := by
    intro x hx he
    have hgate := (h.key_iff hg hx).mp he
    rcases List.mem_append.mp hx with hx | hx
    · exact atGate_eq_nil.mp hr x hx hgate
    · exact atGate_eq_nil.mp hq x hx hgate
  have hold : ∀ key' g', (if key' = key then none else s.gates key') = some g' →
      s.gates key' = some g' := by
    intro key' g' he
    split at he
    · cases he
    · exact he
  refine ⟨?_, ?_, ?_, ?_, ?_, h.nodup, h.fifo⟩
  · intro x hx
    exact (if_neg (hkey x hx)).trans (h.kept x hx)
  · intro key' g' he
    exact h.lt key' g' (hold key' g' he)
  · intro key' key'' g' he he'
    exact h.inj key' key'' g' (hold key' g' he) (hold key'' g' he')
  · intro key' g' he
    exact h.users key' g' (hold key' g' he)
  · intro key' g' he
    exact h.serves key' g' (hold key' g' he)

theorem Sound.initial : (initial κ K V Q).Sound := by
  refine ⟨?_, ?_, ?_, ?_, ?_, List.nodup_nil, fun _ => rfl⟩
  · rintro x ⟨⟩
  · rintro key g ⟨⟩
  · rintro key key' g ⟨⟩
  · rintro key g ⟨⟩
  · rintro key g ⟨⟩

variable [DecidableEq κ]

theorem Sound.enterGate (h : s.Sound) (hg : s.gates key = some g)
    (hw : ∀ y ∈ s.queued, y.caller ≠ c) :
    ((s.addUser g).enterGate ⟨c, key, g⟩).Sound ∧
      ((s.addUser g).enterGate ⟨c, key, g⟩).gates = s.gates ∧
      ∀ y, y = ⟨c, key, g⟩ ∨ y ∈ s.running ++ s.queued →
        y ∈ ((s.addUser g).enterGate ⟨c, key, g⟩).running ++
          ((s.addUser g).enterGate ⟨c, key, g⟩).queued := by
  have ho : (s.addUser g).objects g = ⟨(s.objects g).run, (s.objects g).users + 1⟩ := by
    simp [addUser, setObject]
  simp only [Gates.enterGate, ho]
  split
  · next hh =>
    obtain ⟨n, hn⟩ := holds_iff.mp hh
    rw [ho] at hn
    refine ⟨h.again hg hn, rfl, fun y hy => ?_⟩
    simpa [setObject, addUser, or_assoc] using hy
  · next hh =>
    split
    · next hin =>
      have hfree : Q.holder (s.objects g).run = none := by
        rcases h.serves key g hg with ⟨hnone, _⟩ | ⟨d, n, hhold, _⟩
        · exact hnone
        · have hne : d ≠ c := by
            rintro rfl
            exact hh (holds_iff.mpr ⟨n, by rw [ho]; exact hhold⟩)
          obtain ⟨m, hm⟩ := holds_iff.mp hin
          have hm : Q.holder (Q.enter c (s.objects g).run) = some (c, m) := by
            simpa [setObject] using hm
          cases (Q.enter_busy hhold hne).1.symm.trans hm
          exact absurd rfl hne
      refine ⟨h.free hg hfree, rfl, fun y hy => ?_⟩
      simpa [letIn, arrive, setObject, addUser, or_assoc] using hy
    · next hout =>
      rcases h.serves key g hg with ⟨hnone, _⟩ | ⟨d, n, hhold, _⟩
      · refine absurd (holds_iff.mpr ⟨0, ?_⟩) hout
        simpa [setObject] using (Q.enter_free (c := c) hnone).1
      · have hne : d ≠ c := by
          rintro rfl
          exact hh (holds_iff.mpr ⟨n, by rw [ho]; exact hhold⟩)
        refine ⟨h.busy hg hhold hne hw, rfl, fun y hy => ?_⟩
        simp only [List.mem_append, List.mem_singleton, arrive, setObject, addUser] at hy ⊢
        rcases hy with hy | hy | hy
        · exact .inr (.inr hy)
        · exact .inl hy
        · exact .inr (.inl hy)

theorem Sound.call (h : s.Sound) (hl : s.Live) (hw : s.waits c = false) :
    (s.call c key).Sound ∧ (s.call c key).Live := by
  obtain ⟨hs, hg, hrunning, hqueued, hother⟩ := h.ensureGate key
  have hnot : ∀ y ∈ (s.ensureGate key).1.queued, y.caller ≠ c := by
    rw [hqueued]
    intro y hy he
    have ht : s.waits c = true := List.any_eq_true.mpr ⟨y, hy, by simp [he]⟩
    cases hw.symm.trans ht
  obtain ⟨hsound, hgates, hmem⟩ := hs.enterGate hg hnot
  rw [hrunning, hqueued] at hmem
  refine ⟨hsound, fun key' hk => ?_⟩
  by_cases he : key' = key
  · exact ⟨_, hmem _ (.inl rfl), he.symm⟩
  · have hk' : s.gates key' ≠ none := by
      rw [← hother key' he, ← hgates]
      exact hk
    obtain ⟨y, hy, hkey⟩ := hl key' hk'
    exact ⟨y, hmem y (.inr hy), hkey⟩

theorem resume_none (hno : ∀ y ∈ s.queued, y.gate = g → s.holds g y.caller = false) :
    s.resume g = s := by
  have hnone : s.queued.find? (fun x => x.gate == g && s.holds g x.caller) = none := by
    refine List.find?_eq_none.mpr fun y hy => ?_
    have h := hno y hy
    simp only [Bool.and_eq_true, beq_iff_eq, not_and, Bool.not_eq_true]
    exact h
  rw [resume, hnone]

theorem resume_some {q q' : List (Call κ K)} (hq : s.queued = q ++ y :: q') (hy : y.gate = g)
    (hfirst : ∀ z ∈ q, z.gate ≠ g) (hh : s.holds g y.caller = true) :
    s.resume g = { s.letIn y with queued := q ++ q' } := by
  have hneg : ∀ z ∈ q, ¬ (z.gate == g && s.holds g z.caller) = true := by
    intro z hz
    simp [hfirst z hz]
  have hpos : (y.gate == g && s.holds g y.caller) = true := by simp [hy, hh]
  have hfind : s.queued.find? (fun x => x.gate == g && s.holds g x.caller) = some y := by
    rw [hq, List.find?_append, List.find?_eq_none.mpr hneg]
    exact List.find?_cons_of_pos (p := fun x : Call κ K => x.gate == g && s.holds g x.caller)
      hpos
  have herase : s.queued.eraseP (fun x => x.gate == g && s.holds g x.caller) = q ++ q' := by
    rw [hq, List.eraseP_append_right _ hneg]
    exact congrArg (q ++ ·)
      (List.eraseP_cons_of_pos (p := fun x : Call κ K => x.gate == g && s.holds g x.caller)
      hpos)
  rw [resume, hfind]
  simp only
  rw [herase]

theorem Sound.leaveGate {r r' : List (Call κ K)} (h : s.Sound) (hg : s.gates key = some g)
    (hr : s.running = r ++ x :: r') (hx : x.key = key ∧ x.gate = g)
    (ht : t = { s with running := r ++ r' }.leaveGate g) :
    (t.setObject g { t.objects g with users := (t.objects g).users - 1 }).Sound ∧
      t.gates = s.gates ∧ t.returned = s.returned ∧
      ∀ y, y ∈ t.running ++ t.queued ↔ y ∈ r ++ r' ++ s.queued := by
  have hxin : x ∈ atGate g s.running := mem_atGate.mpr ⟨by simp [hr], hx.2⟩
  rcases h.serves key g hg with ⟨_, _, hno, _⟩ | ⟨c, n, hhold, hlen, hrun, hwait, hother⟩
  · rw [hno] at hxin
    cases hxin
  · have hc : x.caller = c := hrun x hxin
    subst hc
    by_cases hq : (∃ n, Q.holder (s.objects g).run = some (x.caller, n + 1)) ∨
        Q.waiting (s.objects g).run = []
    · rw [Gates.leaveGate, resume_none] at ht
      · subst ht
        refine ⟨?_, rfl, rfl, fun y => Iff.rfl⟩
        rw [setObject_self, setObject_setObject]
        exact h.quiet hg hr hx hq
      · intro y hy hgate
        have hne := hother y (mem_atGate.mpr ⟨hy, hgate⟩)
        simp only [holds, setObject_self]
        cases n with
        | succ n => simp [(Q.leave_nested hhold).1, Ne.symm hne]
        | zero =>
          have hnil : Q.waiting (s.objects g).run = [] := by
            rcases hq with ⟨m, hm⟩ | hnil
            · cases hhold.symm.trans hm
            · exact hnil
          simp [(Q.leave_last hhold).1, hnil]
    · obtain ⟨hnest, hne⟩ := not_or.mp hq
      have hzero : n = 0 := by
        cases n with
        | zero => rfl
        | succ n => exact absurd ⟨n, hhold⟩ hnest
      subst hzero
      obtain ⟨y, ys, hys⟩ : ∃ y ys, atGate g s.queued = y :: ys := by
        cases hat : atGate g s.queued with
        | nil => exact absurd (by rw [hwait, hat]; rfl) hne
        | cons y ys => exact ⟨y, ys, rfl⟩
      obtain ⟨q, q', hsplit, hfirst, hy, _⟩ := List.filter_eq_cons_iff.mp hys
      have hy : y.gate = g := by simpa using hy
      have hfirst : ∀ z ∈ q, z.gate ≠ g := by simpa using hfirst
      let u := { s with running := r ++ r' }.setObject g
        ⟨Q.leave (s.objects g).run, (s.objects g).users⟩
      have hholds : u.holds g y.caller = true := by
        rw [hys, List.map_cons] at hwait
        simp [u, holds, setObject_self, (Q.leave_last hhold).1, hwait]
      have ht : t = { u.letIn y with queued := q ++ q' } :=
        ht.trans (resume_some (s := u) hsplit hy hfirst hholds)
      have hobj : t.objects g = ⟨Q.leave (s.objects g).run, (s.objects g).users⟩ := by
        rw [ht]
        exact setObject_self _
      subst ht
      refine ⟨?_, rfl, rfl, ?_⟩
      · have hs := h.next hg hr hx hhold hsplit hy hfirst
        rw [released, ← setObject_setObject ⟨Q.leave (s.objects g).run, (s.objects g).users⟩] at hs
        rw [hobj]
        exact hs
      · intro z
        simp only [u, letIn, setObject, hsplit, List.mem_append, List.mem_cons]
        tauto

theorem Sound.finish (h : s.Sound) (hl : s.Live) (w : Wrapper) (result : Result V)
    (hi : s.running[i]? = some x) :
    (s.finish w i x result).Sound ∧ (s.finish w i x result).Live ∧
      (s.finish w i x result).returned = s.returned ++ [(result, w.pass result)] := by
  obtain ⟨hlt, rfl⟩ := List.getElem?_eq_some_iff.mp hi
  let x := s.running[i]
  have hsplit : s.running = s.running.take i ++ x :: s.running.drop (i + 1) := by simp [x]
  have hg := h.kept x (List.mem_append_left _ (List.getElem_mem hlt))
  obtain ⟨hs, hgates, hret, hmem⟩ := h.leaveGate hg hsplit ⟨rfl, rfl⟩ rfl
  rw [← List.eraseIdx_eq_take_drop_succ] at hs hgates hret hmem
  -- the other calls are still in progress
  have hstill : ∀ key', key' ≠ x.key → s.gates key' ≠ none →
      ∃ y ∈ s.running.eraseIdx i ++ s.queued, y.key = key' := by
    intro key' hne hk
    obtain ⟨y, hy, rfl⟩ := hl key' hk
    refine ⟨y, ?_, rfl⟩
    rcases List.mem_append.mp hy with hy | hy
    · rw [hsplit] at hy
      rw [List.eraseIdx_eq_take_drop_succ]
      simp only [List.mem_append, List.mem_cons] at hy ⊢
      rcases hy with hy | rfl | hy
      · exact .inl (.inl hy)
      · exact absurd rfl hne
      · exact .inl (.inr hy)
    · exact List.mem_append_right _ hy
  simp only [Gates.finish, removeUser]
  split
  · next hzero =>
    have hu := hs.users x.key x.gate ((congrFun hgates x.key).trans hg)
    have hu := hu.symm.trans hzero
    obtain ⟨hr, hq⟩ := Nat.add_eq_zero_iff.mp hu
    have hd := hs.drop ((congrFun hgates x.key).trans hg) (List.length_eq_zero_iff.mp hr)
      (List.length_eq_zero_iff.mp hq)
    refine ⟨{ hd with }, ?_, congrArg (· ++ _) hret⟩
    intro key' hk
    by_cases he : key' = x.key
    · exact absurd (if_pos he) hk
    · have hk' : s.gates key' ≠ none := by
        rw [← hgates]
        intro hnone
        exact hk ((if_neg he).trans hnone)
      obtain ⟨y, hy, hkey⟩ := hstill key' he hk'
      exact ⟨y, (hmem y).mpr hy, hkey⟩
  · next hpos =>
    refine ⟨{ hs with }, ?_, congrArg (· ++ _) hret⟩
    intro key' hk
    by_cases he : key' = x.key
    · have hu := hs.users x.key x.gate ((congrFun hgates x.key).trans hg)
      rw [hu, ← List.length_append] at hpos
      obtain ⟨y, hy⟩ := List.exists_mem_of_length_pos (Nat.pos_of_ne_zero hpos)
      rw [← atGate_append] at hy
      obtain ⟨hin, hgate⟩ := mem_atGate.mp hy
      exact ⟨y, hin, he ▸ (hs.key_iff ((congrFun hgates x.key).trans hg) hin).mpr hgate⟩
    · have hk' : s.gates key' ≠ none := by
        rw [← hgates]
        exact hk
      obtain ⟨y, hy, hkey⟩ := hstill key' he hk'
      exact ⟨y, (hmem y).mpr hy, hkey⟩

theorem call_returned : (s.call c key).returned = s.returned := by
  have he : (s.ensureGate key).1.returned = s.returned := by
    rw [Gates.ensureGate]
    split <;> rfl
  rw [Gates.call, Gates.enterGate]
  split
  · exact he
  · split
    · exact he
    · exact he

end Gates

theorem pass_same (w : Wrapper) (result : Result V)
    (hok : ∀ values, result = .ok values → w = .withRowLock → (values.drop 2).all Option.isNone) :
    result.Same (w.pass result) := by
  cases result with
  | error e => rfl
  | ok values =>
    cases w with
    | withGate => exact fun _ => rfl
    | withRowLock =>
      have hnil := List.all_eq_true.mp (hok values rfl rfl)
      intro i
      rcases i with _ | _ | i
      · rfl
      · rfl
      · change values.getD (i + 2) none = none
        rw [List.getD_eq_getElem?_getD]
        cases hv : values[i + 2]? with
        | none => rfl
        | some v =>
          have hmem : v ∈ values.drop 2 := by
            refine List.mem_of_getElem? (i := i) ?_
            rw [List.getElem?_drop, Nat.add_comm]
            exact hv
          exact Option.isNone_iff_eq_none.mp (hnil v hmem)

variable [DecidableEq κ] [DecidableEq K] {Q : Fifo.Queue κ}

/-- The calls of one key come one after another, whatever the queue is made of. -/
theorem gates_serialized {s : Gates κ K V Q} (w : Wrapper)
    (h : (system V Q w).Reaches (Passes w) s) : s.Serialized := by
  have hinv : s.Sound ∧ s.Live ∧ ∀ r ∈ s.returned, r.1.Same r.2 := by
    refine h.invariant (I := fun s => s.Sound ∧ s.Live ∧ ∀ r ∈ s.returned, r.1.Same r.2) ?_ ?_
    · rintro s rfl
      refine ⟨.initial, ?_, ?_⟩
      · intro key hk
        exact absurd rfl hk
      · rintro r ⟨⟩
    · rintro s a t ⟨hs, hl, hr⟩ hok ht
      cases a with
      | call caller key =>
        obtain ⟨hw, he⟩ := Option.ite_none_left_eq_some.mp ht
        cases he
        have hcall : (s.call caller key).Sound ∧ (s.call caller key).Live :=
          hs.call hl ((Bool.not_eq_true _).mp hw)
        refine ⟨hcall.1, hcall.2, ?_⟩
        rw [Gates.call_returned]
        exact hr
      | finish i result =>
        simp only [system, Gates.step] at ht
        split at ht
        · next x hi =>
          obtain ⟨_, he⟩ := Option.ite_none_right_eq_some.mp ht
          cases he
          obtain ⟨hs', hl', hret⟩ := hs.finish hl w result hi
          refine ⟨hs', hl', ?_⟩
          rw [hret]
          intro r hin
          rcases List.mem_append.mp hin with hin | hin
          · exact hr r hin
          · cases List.mem_singleton.mp hin
            refine pass_same w result ?_
            rintro values rfl rfl
            exact hok
        · cases ht
  obtain ⟨hs, hl, hr⟩ := hinv
  refine ⟨fun x hx y hy he => hs.one hx hy he, ?_, hs.kept, hl, hr⟩
  intro key
  exact ⟨_, (hs.fifo key).symm⟩

/-- A coroutine goes into the body, in again, and two wait; one key ends in between. -/
def crowded : List (Action Nat Nat Nat) :=
  [.call 1 7, .call 2 7, .call 1 7, .call 3 7, .call 1 8, .finish 0 (.error "e"),
    .finish 0 (.ok [some 1, none]), .finish 0 (.ok []), .call 1 7, .finish 0 (.ok [some 2])]

theorem gates_serialized_crowded :
    ((system Nat (Fifo.skynetQueue Nat) .withRowLock).run (Passes .withRowLock)
      (.initial Nat Nat Nat _) crowded (by decide +kernel)).Serialized :=
  gates_serialized .withRowLock
    ((system Nat (Fifo.skynetQueue Nat) .withRowLock).run_reaches (Passes .withRowLock) crowded rfl
      (by decide +kernel))

/-- The body of `recover` when the fence cannot be claimed, with a reason and its detail. -/
def detailed : List (Action Nat Nat Nat) :=
  [.call 1 7, .finish 0 (.ok [some 0, some 1, some 2])]

theorem detail_dropped : ¬ ∀ (w : Wrapper) (s : Gates Nat Nat Nat (Fifo.skynetQueue Nat)),
    (system Nat (Fifo.skynetQueue Nat) w).Reaches anyStep s → s.Serialized := by
  intro h
  have hp := (h .withRowLock _ ((system Nat (Fifo.skynetQueue Nat) .withRowLock).run_reaches
    anyStep detailed rfl (by decide +kernel))).passed
  have hs := hp (.ok [some 0, some 1, some 2], .ok [some 0, some 1]) (by decide +kernel) 2
  cases hs

end Gating
end Skyext
