import Mathlib.Data.List.Sort
import Mathlib.Order.Lattice

namespace Skyext
set_option autoImplicit true

namespace Paging

variable [LinearOrder α]

/-- `find_many` over the pending messages of one target, which go by their distinct `seq`. -/
def findMany (pending : List α) (afterSeq : Option α) (limit : Nat) : List α :=
  ((pending.filter fun seq => afterSeq.all (· < seq)).insertionSort (· ≤ ·)).take limit

/-- The variables of `load_pending`; `finds` counts the pages it has asked for. -/
structure Loading (α : Type*) where
  result : List α
  afterSeq : Option α
  progressed : Bool
  finds : Nat
  deriving DecidableEq

namespace Loading

def append (l : Loading α) (seq : α) : Loading α :=
  let t := { l with result := l.result ++ [seq] }
  if l.afterSeq.all (· < seq) then { t with afterSeq := some seq, progressed := true } else t

end Loading

/-- The limit of the next page, unless there is enough. -/
def pageLimit (pageSize : Int) (maxCount : Option Int) (loaded : Nat) : Option Nat :=
  match maxCount with
  | none => some pageSize.toNat
  | some max =>
    if max - loaded ≤ 0 then none
    else if max - loaded < pageSize then some (max - loaded).toNat
    else some pageSize.toNat

/-- The loop, the collection being what it is at each page, for so many pages. -/
def loadPages (coll : Nat → List α) (pageSize : Int) (maxCount : Option Int) :
    Nat → Loading α → Option (Loading α)
  | 0, _ => none
  | fuel + 1, l =>
    match pageLimit pageSize maxCount l.result.length with
    | none => some l
    | some limit =>
      let batch := findMany (coll l.finds) l.afterSeq limit
      let t := batch.foldl Loading.append { l with progressed := false, finds := l.finds + 1 }
      if batch.length = 0 then some t
      else if batch.length < limit then some t
      else if t.progressed = false then some t
      else loadPages coll pageSize maxCount fuel t

/-- `load_pending`, if it returns within so many pages; a page size that is not positive raises. -/
def loadPending (coll : Nat → List α) (pageSize : Int) (maxCount : Option Int)
    (afterSeq : Option α) (fuel : Nat) : Option (Except String (Loading α)) :=
  if pageSize ≤ 0 then some (.error "page_size must be positive")
  else (loadPages coll pageSize maxCount fuel ⟨[], afterSeq, false, 0⟩).map .ok

/-- In increasing order, after the given one, no more than asked for, each pending at some page;
and what was pending at every page is there up to the last, or altogether when there are fewer than
asked for. -/
structure Exact (coll : Nat → List α) (maxCount : Option Int) (afterSeq : Option α)
    (l : Loading α) : Prop where
  increasing : l.result.Pairwise (· < ·)
  after : ∀ seq ∈ l.result, ∀ a ∈ afterSeq, a < seq
  atMost : ∀ max ∈ maxCount, l.result.length ≤ max.toNat
  found : ∀ seq ∈ l.result, ∃ n < l.finds, seq ∈ coll n
  complete : ∀ seq, (∀ n < l.finds, seq ∈ coll n) → (∀ a ∈ afterSeq, a < seq) →
    (∀ max ∈ maxCount, (l.result.length : Int) < max) ∨ (∃ last ∈ l.result, seq ≤ last) →
    seq ∈ l.result

/-- One page: the least of what is pending beyond the given one. -/
structure Batch (pending : List α) (afterSeq : Option α) (limit : Nat) (batch : List α) : Prop where
  increasing : batch.Pairwise (· < ·)
  mem : ∀ seq ∈ batch, seq ∈ pending ∧ ∀ a ∈ afterSeq, a < seq
  length : batch.length ≤ limit
  complete : ∀ seq ∈ pending, (∀ a ∈ afterSeq, a < seq) →
    seq ∈ batch ∨ batch.length = limit ∧ ∀ b ∈ batch, b < seq

variable {pending l m : List α} {afterSeq : Option α}

theorem all_lt_iff {seq : α} : afterSeq.all (· < seq) = true ↔ ∀ a ∈ afterSeq, a < seq := by
  cases afterSeq <;> simp

/-- What a query sorts: the pending messages beyond the given one. -/
theorem mem_sorted (pending : List α) (afterSeq : Option α) (seq : α) :
    seq ∈ (pending.filter fun seq => afterSeq.all (· < seq)).insertionSort (· ≤ ·) ↔
      seq ∈ pending ∧ ∀ a ∈ afterSeq, a < seq := by
  rw [List.mem_insertionSort, List.mem_filter, all_lt_iff]

theorem sorted_increasing (h : pending.Nodup) (p : α → Bool) :
    ((pending.filter p).insertionSort (· ≤ ·)).Pairwise (· < ·) := by
  have hnodup : ((pending.filter p).insertionSort (· ≤ ·)).Nodup :=
    (List.perm_insertionSort (· ≤ ·) (pending.filter p)).nodup_iff.mpr (h.filter _)
  refine ((List.pairwise_insertionSort (· ≤ ·) (pending.filter p)).and hnodup).imp ?_
  rintro a b ⟨hle, hne⟩
  exact lt_of_le_of_ne hle hne

theorem findMany_batch (h : pending.Nodup) (afterSeq : Option α) (limit : Nat) :
    Batch pending afterSeq limit (findMany pending afterSeq limit) := by
  let kept := pending.filter fun seq => afterSeq.all (· < seq)
  have hmem : ∀ seq, seq ∈ kept.insertionSort (· ≤ ·) ↔
      seq ∈ pending ∧ ∀ a ∈ afterSeq, a < seq := mem_sorted pending afterSeq
  have hsorted : (kept.insertionSort (· ≤ ·)).Pairwise (· < ·) := sorted_increasing h _
  refine ⟨hsorted.sublist (List.take_sublist _ _), ?_, List.length_take_le _ _, ?_⟩
  · intro seq hseq
    exact (hmem seq).mp (List.mem_of_mem_take hseq)
  · intro seq hin hafter
    have hs := (hmem seq).mpr ⟨hin, hafter⟩
    rw [← List.take_append_drop limit (kept.insertionSort (· ≤ ·))] at hs hsorted
    rcases List.mem_append.mp hs with hs | hs
    · exact .inl hs
    · refine .inr ⟨?_, fun b hb => (List.pairwise_append.mp hsorted).2.2 b hb seq hs⟩
      have hpos := List.length_pos_of_mem hs
      rw [List.length_drop] at hpos
      have hle : limit ≤ (kept.insertionSort (· ≤ ·)).length := by omega
      exact List.length_take_of_le hle

theorem foldl_append {t : Loading α} (h : l.Pairwise (· < ·))
    (hafter : ∀ seq ∈ l, ∀ a ∈ t.afterSeq, a < seq) :
    l.foldl Loading.append t = { t with
      result := t.result ++ l
      afterSeq := l.getLast?.or t.afterSeq
      progressed := t.progressed || !l.isEmpty } := by
  induction l generalizing t with
  | nil => simp
  | cons seq l ih =>
    have hhead : t.append seq =
        { t with result := t.result ++ [seq], afterSeq := some seq, progressed := true } := by
      rw [Loading.append]
      exact if_pos (all_lt_iff.mpr (hafter seq List.mem_cons_self))
    rw [List.foldl_cons, hhead, ih (List.pairwise_cons.mp h).2]
    · cases l with
      | nil => simp
      | cons b l =>
        have hlast := List.getLast?_eq_some_getLast (List.cons_ne_nil b l)
        simp [List.getLast?_cons_cons, hlast]
    · intro b hb a ha
      cases ha
      exact (List.pairwise_cons.mp h).1 b hb

/-- What holds whenever the next page is asked for. -/
structure Inv (coll : Nat → List α) (maxCount : Option Int) (first : Option α) (l : Loading α) :
    Prop where
  increasing : l.result.Pairwise (· < ·)
  after : ∀ seq ∈ l.result, ∀ a ∈ first, a < seq
  last : l.afterSeq = l.result.getLast?.or first
  atMost : ∀ max ∈ maxCount, l.result.length ≤ max.toNat
  found : ∀ seq ∈ l.result, ∃ n < l.finds, seq ∈ coll n
  covered : ∀ seq, (∀ n < l.finds, seq ∈ coll n) → (∀ a ∈ first, a < seq) →
    (∃ b ∈ l.result, seq ≤ b) → seq ∈ l.result

variable {coll : Nat → List α} {maxCount : Option Int} {pageSize : Int} {first : Option α}
  {s t : Loading α}

theorem le_getLast (h : m.Pairwise (· < ·)) {seq : α} (hs : seq ∈ m) :
    ∃ b, m.getLast? = some b ∧ seq ≤ b := by
  have hne := List.ne_nil_of_mem hs
  refine ⟨m.getLast hne, List.getLast?_eq_some_getLast hne, ?_⟩
  rw [← List.dropLast_append_getLast hne] at h hs
  rcases List.mem_append.mp hs with hs | hs
  · exact ((List.pairwise_append.mp h).2.2 seq hs _ (List.mem_singleton_self _)).le
  · exact (List.mem_singleton.mp hs).le

/-- What is beyond the variable of the loop is beyond all that has been loaded. -/
theorem Inv.beyond (h : Inv coll maxCount first s) {seq : α} :
    (∀ a ∈ s.afterSeq, a < seq) ↔ (∀ a ∈ first, a < seq) ∧ ∀ b ∈ s.result, b < seq := by
  rw [h.last]
  constructor
  · intro hall
    cases hl : s.result.getLast? with
    | none =>
      rw [hl] at hall
      have hnil := List.getLast?_eq_none_iff.mp hl
      refine ⟨hall, fun b hb => ?_⟩
      rw [hnil] at hb
      cases hb
    | some last =>
      rw [hl] at hall
      have hlt : last < seq := hall last rfl
      refine ⟨fun a ha => (h.after last (List.mem_of_getLast? hl) a ha).trans hlt, fun b hb => ?_⟩
      obtain ⟨c, hc, hle⟩ := le_getLast h.increasing hb
      cases hl.symm.trans hc
      exact lt_of_le_of_lt hle hlt
  · rintro ⟨hfirst, hres⟩ a ha
    cases hl : s.result.getLast? with
    | none =>
      rw [hl] at ha
      exact hfirst a ha
    | some last =>
      rw [hl] at ha
      cases ha
      exact hres _ (List.mem_of_getLast? hl)

/-- A page goes behind what has been loaded; a short one leaves nothing out. -/
theorem Inv.page {batch : List α} {limit : Nat} (h : Inv coll maxCount first s)
    (hb : Batch (coll s.finds) s.afterSeq limit batch)
    (hlimit : ∀ max ∈ maxCount, s.result.length + limit ≤ max.toNat)
    (ht : t = batch.foldl Loading.append { s with progressed := false, finds := s.finds + 1 }) :
    Inv coll maxCount first t ∧ t.result = s.result ++ batch ∧ t.progressed = !batch.isEmpty ∧
      (batch.length < limit → ∀ seq, (∀ n < t.finds, seq ∈ coll n) → (∀ a ∈ first, a < seq) →
        seq ∈ t.result) := by
  have hbeyond : ∀ seq ∈ batch, (∀ a ∈ first, a < seq) ∧ ∀ b ∈ s.result, b < seq :=
    fun seq hs => h.beyond.mp (hb.mem seq hs).2
  have ht := ht.trans (foldl_append hb.increasing (by exact fun seq hs => (hb.mem seq hs).2))
  subst ht
  -- what is pending at this page and not loaded yet is in the batch or behind it
  have hcases : ∀ seq ∈ coll s.finds, (∀ a ∈ first, a < seq) → (∀ n < s.finds, seq ∈ coll n) →
      seq ∈ s.result ++ batch ∨ batch.length = limit ∧ ∀ b ∈ s.result ++ batch, b < seq := by
    intro seq hin hfirst hall
    by_cases hle : ∃ b ∈ s.result, seq ≤ b
    · exact .inl (List.mem_append_left _ (h.covered seq hall hfirst hle))
    · have hgt : ∀ b ∈ s.result, b < seq := fun b hb => not_le.mp fun hle' => hle ⟨b, hb, hle'⟩
      rcases hb.complete seq hin (h.beyond.mpr ⟨hfirst, hgt⟩) with hbatch | ⟨hlen, hlt⟩
      · exact .inl (List.mem_append_right _ hbatch)
      · refine .inr ⟨hlen, fun b hb => ?_⟩
        rcases List.mem_append.mp hb with hb | hb
        · exact hgt b hb
        · exact hlt b hb
  refine ⟨⟨?_, ?_, ?_, ?_, ?_, ?_⟩, rfl, rfl, ?_⟩
  · exact List.pairwise_append.mpr ⟨h.increasing, hb.increasing,
      fun a ha b hb => (hbeyond b hb).2 a ha⟩
  · intro seq hs
    rcases List.mem_append.mp hs with hs | hs
    · exact h.after seq hs
    · exact (hbeyond seq hs).1
  · simp only [h.last, List.getLast?_append]
    cases batch.getLast? <;> rfl
  · intro max hmax
    have hle := hlimit max hmax
    have hlen := hb.length
    simp only [List.length_append]
    omega
  · intro seq hs
    rcases List.mem_append.mp hs with hs | hs
    · obtain ⟨n, hn, hin⟩ := h.found seq hs
      exact ⟨n, Nat.lt_succ_of_lt hn, hin⟩
    · exact ⟨s.finds, Nat.lt_succ_self _, (hb.mem seq hs).1⟩
  · rintro seq hall hfirst ⟨b, hb', hle⟩
    rcases hcases seq (hall _ (Nat.lt_succ_self _)) hfirst
      fun n hn => hall n (Nat.lt_succ_of_lt hn) with hin | ⟨_, hlt⟩
    · exact hin
    · exact absurd (hlt b hb') (not_lt_of_ge hle)
  · intro hshort seq hall hfirst
    rcases hcases seq (hall _ (Nat.lt_succ_self _)) hfirst
      fun n hn => hall n (Nat.lt_succ_of_lt hn) with hin | ⟨hlen, _⟩
    · exact hin
    · omega

theorem pageLimit_some {loaded limit : Nat} (hpage : 0 < pageSize)
    (hp : pageLimit pageSize maxCount loaded = some limit) :
    0 < limit ∧ ∀ max ∈ maxCount, loaded + limit ≤ max.toNat := by
  cases maxCount with
  | none =>
    cases hp
    exact ⟨by omega, by rintro _ ⟨⟩⟩
  | some max =>
    simp only [pageLimit] at hp
    split at hp
    · cases hp
    · split at hp <;> cases hp
      · refine ⟨by omega, ?_⟩
        rintro _ ⟨⟩
        omega
      · refine ⟨by omega, ?_⟩
        rintro _ ⟨⟩
        omega

theorem pageLimit_none {loaded : Nat} (hp : pageLimit pageSize maxCount loaded = none) :
    ∃ max ∈ maxCount, max ≤ (loaded : Int) := by
  cases maxCount with
  | none => cases hp
  | some max =>
    simp only [pageLimit] at hp
    split at hp
    · exact ⟨max, rfl, by omega⟩
    · split at hp <;> cases hp

/-- Whatever the loop ends with is exact. -/
theorem loadPages_exact (hnodup : ∀ n, (coll n).Nodup) (hpage : 0 < pageSize) (fuel : Nat)
    (h : Inv coll maxCount first s) (hr : loadPages coll pageSize maxCount fuel s = some t) :
    Exact coll maxCount first t := by
  induction fuel generalizing s with
  | zero => cases hr
  | succ fuel ih =>
    simp only [loadPages] at hr
    split at hr
    · next hp =>
      cases hr
      obtain ⟨max, hmax, hle⟩ := pageLimit_none hp
      refine { h with complete := fun seq hall hfirst hlast => ?_ }
      rcases hlast with hlt | hlast
      · have hlt' := hlt max hmax
        omega
      · exact h.covered seq hall hfirst hlast
    · next limit hp =>
      obtain ⟨hpos, hlimit⟩ := pageLimit_some hpage hp
      obtain ⟨ht, _, hprog, hshort⟩ := h.page (findMany_batch (hnodup _) _ limit) hlimit rfl
      split at hr
      · next hnil =>
        cases hr
        exact { ht with complete := fun seq hall hfirst _ => hshort (by omega) seq hall hfirst }
      · split at hr
        · next hlt =>
          cases hr
          exact { ht with complete := fun seq hall hfirst _ => hshort hlt seq hall hfirst }
        · next hne _ =>
          split at hr
          · next hno =>
            rw [hprog] at hno
            have hemp : (findMany (coll s.finds) s.afterSeq limit).length = 0 := by simpa using hno
            exact absurd hemp hne
          · exact ih ht hr

/-- Every page but the last adds a message, so a bound for what can be loaded bounds the pages. -/
theorem loadPages_returns {bound : Nat} (hnodup : ∀ n, (coll n).Nodup) (hpage : 0 < pageSize)
    (hbound : ∀ u, Inv coll maxCount first u → u.result.length ≤ bound) (fuel : Nat)
    (h : Inv coll maxCount first s) (hfuel : bound < fuel + s.result.length) :
    ∃ t, loadPages coll pageSize maxCount fuel s = some t := by
  induction fuel generalizing s with
  | zero =>
    have hle := hbound s h
    omega
  | succ fuel ih =>
    simp only [loadPages]
    split
    · exact ⟨s, rfl⟩
    · next limit hp =>
      obtain ⟨hpos, hlimit⟩ := pageLimit_some hpage hp
      obtain ⟨ht, hres, _, _⟩ := h.page (findMany_batch (hnodup _) _ limit) hlimit rfl
      split
      · exact ⟨_, rfl⟩
      · split
        · exact ⟨_, rfl⟩
        · next hne _ =>
          split
          · exact ⟨_, rfl⟩
          · refine ih ht ?_
            rw [hres, List.length_append]
            omega

theorem Inv.initial : Inv coll maxCount first ⟨[], first, false, 0⟩ := by
  refine ⟨List.Pairwise.nil, ?_, rfl, fun _ _ => Nat.zero_le _, ?_, ?_⟩
  · rintro seq ⟨⟩
  · rintro seq ⟨⟩
  · rintro seq _ _ ⟨b, ⟨⟩, _⟩

theorem prefix_of_least (hl : l.Pairwise (· < ·)) (hm : m.Pairwise (· < ·))
    (hsub : ∀ a ∈ l, a ∈ m) (hleast : ∀ a ∈ m, (∃ b ∈ l, a ≤ b) → a ∈ l) : l <+: m := by
  induction l generalizing m with
  | nil => exact List.nil_prefix
  | cons a l ih =>
    cases m with
    | nil => cases hsub a List.mem_cons_self
    | cons b m =>
      obtain ⟨hal, htl⟩ := List.pairwise_cons.mp hl
      obtain ⟨hbm, htm⟩ := List.pairwise_cons.mp hm
      have hba : b ≤ a := by
        rcases List.mem_cons.mp (hsub a List.mem_cons_self) with rfl | ha
        · exact le_refl a
        · exact (hbm a ha).le
      have hab : b = a := by
        rcases List.mem_cons.mp (hleast b List.mem_cons_self ⟨a, List.mem_cons_self, hba⟩) with
          rfl | hb
        · rfl
        · exact absurd (hal b hb) (not_lt_of_ge hba)
      subst hab
      refine List.cons_prefix_cons.mpr ⟨rfl, ih htl htm ?_ ?_⟩
      · intro x hx
        rcases List.mem_cons.mp (hsub x (List.mem_cons_of_mem _ hx)) with rfl | hx'
        · exact absurd (hal x hx) (lt_irrefl x)
        · exact hx'
      · rintro x hx ⟨c, hc, hle⟩
        have hin := hleast x (List.mem_cons_of_mem _ hx) ⟨c, List.mem_cons_of_mem _ hc, hle⟩
        rcases List.mem_cons.mp hin with rfl | hx'
        · exact absurd (hbm x hx) (lt_irrefl x)
        · exact hx'

/-- The pending messages beyond the given one, as many as asked for. -/
def firstPending (pending : List α) (maxCount : Option Int) (afterSeq : Option α) : List α :=
  let all := (pending.filter fun seq => afterSeq.all (· < seq)).insertionSort (· ≤ ·)
  match maxCount with
  | none => all
  | some max => all.take max.toNat

theorem Exact.eq_first (hnodup : pending.Nodup) (hcoll : ∀ n, coll n = pending)
    (h : Exact coll maxCount first t) : t.result = firstPending pending maxCount first := by
  let all := (pending.filter fun seq => first.all (· < seq)).insertionSort (· ≤ ·)
  have hmem : ∀ seq, seq ∈ all ↔ seq ∈ pending ∧ ∀ a ∈ first, a < seq := mem_sorted pending first
  have hall : all.Pairwise (· < ·) := sorted_increasing hnodup _
  have hin : ∀ seq ∈ all, ∀ n < t.finds, seq ∈ coll n := by
    intro seq hs n _
    rw [hcoll]
    exact ((hmem seq).mp hs).1
  have hsub : ∀ seq ∈ t.result, seq ∈ all := by
    intro seq hs
    obtain ⟨n, _, hc⟩ := h.found seq hs
    rw [hcoll] at hc
    exact (hmem seq).mpr ⟨hc, h.after seq hs⟩
  have hpre : t.result <+: all := by
    refine prefix_of_least h.increasing hall hsub fun seq hs hle => ?_
    exact h.complete seq (hin seq hs) ((hmem seq).mp hs).2 (.inr hle)
  have hfull : (∀ max ∈ maxCount, (t.result.length : Int) < max) → t.result = all := by
    intro hlt
    refine hpre.eq_of_length (Nat.le_antisymm hpre.length_le ?_)
    have hsub' : all ⊆ t.result := fun seq hs =>
      h.complete seq (hin seq hs) ((hmem seq).mp hs).2 (.inl hlt)
    exact (List.subperm_of_subset (hall.imp ne_of_lt) hsub').length_le
  cases maxCount with
  | none => exact hfull (by rintro _ ⟨⟩)
  | some max =>
    by_cases hlt : (t.result.length : Int) < max
    · have he : t.result = all := hfull (by
        rintro _ ⟨⟩
        exact hlt)
      rw [he] at hlt ⊢
      exact (List.take_of_length_le (by omega)).symm
    · have hle := h.atMost max rfl
      have hlen : t.result.length = max.toNat := by omega
      rw [List.prefix_iff_eq_take.mp hpre, hlen]
      rfl

/-- What comes back is exact; and it comes back when a number is asked for, or when the messages
that are ever pending are finitely many, in particular when nothing changes. -/
theorem loadPending_exact (coll : Nat → List α) (hnodup : ∀ n, (coll n).Nodup)
    (pageSize : Int) (hpage : 0 < pageSize) (maxCount : Option Int) (afterSeq : Option α) :
    (∀ fuel t, loadPending coll pageSize maxCount afterSeq fuel = some (.ok t) →
      Exact coll maxCount afterSeq t) ∧
    (maxCount.isSome ∨ (∃ all : List α, ∀ n, coll n ⊆ all) →
      ∃ fuel t, loadPending coll pageSize maxCount afterSeq fuel = some (.ok t)) ∧
    ∀ pending, (∀ n, coll n = pending) → ∃ fuel t,
      loadPending coll pageSize maxCount afterSeq fuel = some (.ok t) ∧
        t.result = firstPending pending maxCount afterSeq := by
  have hload : ∀ fuel, loadPending coll pageSize maxCount afterSeq fuel =
      (loadPages coll pageSize maxCount fuel ⟨[], afterSeq, false, 0⟩).map .ok :=
    fun fuel => if_neg (not_le_of_gt hpage)
  have hexact : ∀ fuel t, loadPending coll pageSize maxCount afterSeq fuel = some (.ok t) →
      Exact coll maxCount afterSeq t := by
    intro fuel t ht
    rw [hload] at ht
    obtain ⟨u, hu, he⟩ := Option.map_eq_some_iff.mp ht
    cases he
    exact loadPages_exact hnodup hpage fuel .initial hu
  have hreturns : ∀ bound : Nat,
      (∀ u, Inv coll maxCount afterSeq u → u.result.length ≤ bound) →
      ∃ fuel t, loadPending coll pageSize maxCount afterSeq fuel = some (.ok t) := by
    intro bound hbound
    obtain ⟨t, ht⟩ := loadPages_returns hnodup hpage hbound (bound + 1) .initial
      (Nat.lt_succ_self bound)
    exact ⟨bound + 1, t, by rw [hload, ht]; rfl⟩
  have hfinite : ∀ all : List α, (∀ n, coll n ⊆ all) →
      ∃ fuel t, loadPending coll pageSize maxCount afterSeq fuel = some (.ok t) := by
    intro all hall
    refine hreturns all.length fun u hu => ?_
    refine (List.subperm_of_subset (hu.increasing.imp ne_of_lt) fun seq hs => ?_).length_le
    obtain ⟨n, _, hin⟩ := hu.found seq hs
    exact hall n hin
  refine ⟨hexact, ?_, ?_⟩
  · rintro (hmax | ⟨all, hall⟩)
    · obtain ⟨max, rfl⟩ := Option.isSome_iff_exists.mp hmax
      exact hreturns max.toNat fun u hu => hu.atMost max rfl
    · exact hfinite all hall
  · intro pending hcoll
    obtain ⟨fuel, t, ht⟩ := hfinite pending fun n => (hcoll n) ▸ List.Subset.refl _
    exact ⟨fuel, t, ht, (hexact fuel t ht).eq_first (hcoll 0 ▸ hnodup 0) hcoll⟩

theorem loadPending_exact_two : Exact (fun _ : Nat => [5, 3, 9, 4]) (some 3) (some 3)
    (⟨[4, 5, 9], some 9, true, 2⟩ : Loading Nat) :=
  (loadPending_exact (fun _ : Nat => [5, 3, 9, 4]) (fun _ => by decide) 2 (by decide) (some 3)
    (some 3)).1 3 _ (by decide +kernel)

/-- A message comes and the one before it is settled ahead of every page. -/
def endless (n : Nat) : List Nat := [n]

theorem loadPages_endless (fuel n : Nat) (t : Loading Nat) (hn : t.finds = n)
    (hafter : ∀ a ∈ t.afterSeq, a < n) : loadPages endless 1 none fuel t = none := by
  induction fuel generalizing n t with
  | zero => rfl
  | succ fuel ih =>
    subst hn
    have hfind : findMany (endless t.finds) t.afterSeq 1 = [t.finds] := by
      simp [findMany, endless, all_lt_iff.mpr hafter]
    have happ := foldl_append (t := { t with progressed := false, finds := t.finds + 1 })
      (List.pairwise_singleton (· < ·) t.finds) (by simpa using hafter)
    simp only [loadPages, pageLimit, Int.toNat_one, hfind, happ]
    exact ih (t.finds + 1) _ rfl (by simp)

/-- Without a number the loop goes on as long as messages come. -/
theorem loadPending_endless : ¬ ∀ coll : Nat → List Nat, (∀ n, (coll n).Nodup) →
    ∃ fuel t, loadPending coll 1 none none fuel = some (.ok t) := by
  intro h
  obtain ⟨fuel, t, ht⟩ := h endless fun n => List.nodup_singleton n
  have hnone := loadPages_endless fuel 0 ⟨[], none, false, 0⟩ rfl (by simp)
  simp [loadPending, hnone] at ht

end Paging
end Skyext
