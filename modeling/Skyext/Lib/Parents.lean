import Mathlib.Data.List.Perm.Subperm
import Mathlib.Data.List.Range
import Mathlib.Logic.Function.Basic
import Mathlib.Logic.Relation

namespace Parents
set_option autoImplicit true

/-- Following the parents from `a` ends at a root. -/
inductive Rooted (p : α → Option α) : α → Prop
  | root : p a = none → Rooted p a
  | child : p a = some b → Rooted p b → Rooted p a

/-- `b` is `a` or one of the nodes above it. -/
def Above (p : α → Option α) (b a : α) : Prop := Relation.ReflTransGen (fun x y => p x = some y) a b

/-- The nodes from `a` up to its root. -/
inductive Path (p : α → Option α) : α → List α → Prop
  | root : p a = none → Path p a [a]
  | child : p a = some b → Path p b l → Path p a (a :: l)

variable {α : Type*} {p q : α → Option α} {a b c : α} {l : List α}

theorem Above.refl (p : α → Option α) (a : α) : Above p a a := Relation.ReflTransGen.refl

theorem Above.child (h : p a = some b) (hb : Above p c b) : Above p c a :=
  Relation.ReflTransGen.head h hb

theorem Above.trans (hb : Above p b a) (hc : Above p c b) : Above p c a :=
  Relation.ReflTransGen.trans hb hc

theorem Above.cases (h : Above p c a) : c = a ∨ ∃ b, p a = some b ∧ Above p c b := by
  cases Relation.ReflTransGen.cases_head h with
  | inl he => exact .inl he.symm
  | inr hb => exact .inr hb

theorem Above.eq_of_root (h : Above p b a) (ha : p a = none) : b = a := by
  rcases h.cases with he | ⟨c, hc, _⟩
  · exact he
  · cases ha.symm.trans hc

theorem Rooted.not_above (h : Rooted p a) : ∀ b, p a = some b → ¬ Above p a b := by
  induction h with
  | root ha =>
    intro b hb
    cases ha.symm.trans hb
  | @child a b ha _ ih =>
    intro b' hb' habove
    cases Option.some.inj (ha.symm.trans hb')
    rcases habove.cases with rfl | ⟨c, hc, habove⟩
    · exact ih _ ha (.refl _ _)
    · exact ih c hc (habove.trans (.child ha (.refl _ _)))

theorem Rooted.parent (h : Rooted p a) (ha : p a = some b) : Rooted p b := by
  cases h with
  | root hn => cases hn.symm.trans ha
  | child hb hr => exact Option.some.inj (hb.symm.trans ha) ▸ hr

theorem Rooted.path (h : Rooted p a) : ∃ l, Path p a l := by
  induction h with
  | root ha => exact ⟨_, .root ha⟩
  | child ha _ ih =>
    obtain ⟨l, hl⟩ := ih
    exact ⟨_, .child ha hl⟩

theorem Path.rooted (h : Path p a l) : Rooted p a := by
  induction h with
  | root ha => exact .root ha
  | child ha _ ih => exact .child ha ih

theorem Path.mem_iff (h : Path p a l) : b ∈ l ↔ Above p b a := by
  induction h with
  | root ha =>
    rw [List.mem_singleton]
    exact ⟨fun he => he ▸ .refl _ _, fun hb => hb.eq_of_root ha⟩
  | child ha _ ih =>
    rw [List.mem_cons, ih]
    refine ⟨fun hb => hb.elim (fun he => he ▸ .refl _ _) (.child ha), fun hb => ?_⟩
    rcases hb.cases with he | ⟨c, hc, hb⟩
    · exact .inl he
    · exact .inr (Option.some.inj (ha.symm.trans hc) ▸ hb)

theorem Path.nodup (h : Path p a l) : l.Nodup := by
  induction h with
  | root => exact List.pairwise_singleton ..
  | child ha hl ih =>
    refine List.nodup_cons.mpr ⟨fun hm => ?_, ih⟩
    exact (Rooted.child ha hl.rooted).not_above _ ha (hl.mem_iff.mp hm)

theorem Path.length_pos (h : Path p a l) : 0 < l.length := by
  cases h <;> exact Nat.succ_pos _

theorem Path.detach (h : Path p a l) (he : ∀ x ∈ l, q x = p x ∨ q x = none) :
    ∃ l', Path q a l' ∧ l'.length ≤ l.length := by
  induction h with
  | @root a ha =>
    have hq : q a = none := (he a List.mem_cons_self).elim (·.trans ha) fun hq => hq
    exact ⟨[a], .root hq, Nat.le_refl _⟩
  | @child a b l ha _ ih =>
    obtain ⟨l', hl', hlen⟩ := ih fun x hx => he x (List.mem_cons_of_mem _ hx)
    rcases he a List.mem_cons_self with hq | hq
    · exact ⟨a :: l', .child (hq.trans ha) hl', Nat.succ_le_succ hlen⟩
    · exact ⟨[a], .root hq, Nat.succ_le_succ (Nat.zero_le _)⟩

/-- A path among `n` nodes has at most `n` of them. -/
theorem Path.length_le {p : Nat → Option Nat} {a n : Nat} {l : List Nat} (h : Path p a l)
    (hn : ∀ x ∈ l, x < n) : l.length ≤ n := by
  have hsub : l ⊆ List.range n := fun x hx => List.mem_range.mpr (hn x hx)
  have hlen := (List.subperm_of_subset h.nodup hsub).length_le
  rwa [List.length_range] at hlen

theorem Rooted.exists_root (h : Rooted p a) : ∃ r, Above p r a ∧ p r = none := by
  induction h with
  | root ha => exact ⟨_, .refl _ _, ha⟩
  | child ha _ ih =>
    obtain ⟨r, hr, hn⟩ := ih
    exact ⟨r, hr.child ha, hn⟩

theorem Above.comparable (hb : Above p b a) (hc : Above p c a) : Above p b c ∨ Above p c b := by
  induction hb using Relation.ReflTransGen.head_induction_on with
  | refl => exact .inr hc
  | head hab hb ih =>
    rcases hc.cases with rfl | ⟨d, hd, hc⟩
    · exact .inl (.head hab hb)
    · exact ih (Option.some.inj (hd.symm.trans hab) ▸ hc)

theorem Above.mono (h : Above q b a) (he : ∀ x y, q x = some y → p x = some y) : Above p b a :=
  Relation.ReflTransGen.mono he _ _ h

/-- Where the nodes above `a` keep their parents, nothing changes for `a`. -/
theorem Above.congr (h : Above p b a) (he : ∀ x, Above p x a → q x = p x) : Above q b a := by
  induction h using Relation.ReflTransGen.head_induction_on with
  | refl => exact .refl _ _
  | head hab _ ih =>
    refine .child ((he _ (.refl _ _)).trans hab) (ih fun x hx => he x (hx.child hab))

theorem Above.of_congr (h : Above q b a) (he : ∀ x, Above p x a → q x = p x) : Above p b a := by
  induction h with
  | refl => exact .refl _ _
  | tail _ hbc ih => exact Relation.ReflTransGen.tail ih ((he _ ih).symm.trans hbc)

theorem Rooted.congr (h : Rooted p a) (he : ∀ x, Above p x a → q x = p x) : Rooted q a := by
  induction h with
  | root ha => exact .root ((he _ (.refl _ _)).trans ha)
  | child ha _ ih => exact .child ((he _ (.refl _ _)).trans ha) (ih fun x hx => he x (hx.child ha))

theorem Rooted.detach (h : Rooted p a) (he : ∀ x, q x = p x ∨ q x = none) : Rooted q a := by
  induction h with
  | root ha => exact .root ((he _).elim (·.trans ha) id)
  | child ha _ ih =>
    rcases he _ with hq | hq
    · exact .child (hq.trans ha) ih
    · exact .root hq

/-- A root may move below a node that it is not above. -/
theorem Rooted.attach [DecidableEq α] (h : Rooted p a) (hb : Rooted p b) (hc : ¬ Above p c b) :
    Rooted (Function.update p c (some b)) a := by
  have hb' : Rooted (Function.update p c (some b)) b :=
    hb.congr fun x hx => Function.update_of_ne (fun he : x = c => hc (he ▸ hx)) ..
  induction h with
  | @root a ha =>
    by_cases he : a = c
    · exact .child (he ▸ Function.update_self ..) hb'
    · exact .root ((Function.update_of_ne he ..).trans ha)
  | @child a d ha _ ih =>
    by_cases he : a = c
    · exact .child (he ▸ Function.update_self ..) hb'
    · exact .child ((Function.update_of_ne he ..).trans ha) ih

end Parents
