import Mathlib.Algebra.BigOperators.Group.List.Lemmas
import Skyext.Metrics.Exact

namespace Skyext
set_option autoImplicit true

namespace Metrics

variable {ν : Type} {L L' R : List (Item ν)} {a f it : Item ν} {c : Sample ν}
  {r r' r'' : Snapshot ν × List String} {acc : Accumulator ν} {k : Kind} {x : String}

def Snapshot.series (snapshot : Snapshot ν) (x : String) (labels : Labels) :
    List (Kind × Sample ν) :=
  ((items [some snapshot]).filter fun it => it.name = x && it.labels = labels).map fun it =>
    (it.kind, it.sample)

/-- The samples under a name that were reported with the given type and labels. -/
def reported (L : List (Item ν)) (x : String) (k : Kind) (labels : Labels) : List (Sample ν) :=
  (L.filter fun it => it.name = x && it.kind = k && it.labels = labels).map Item.sample

/-- No two label sets of a name have the same key. -/
def DistinctKeys (L : List (Item ν)) : Prop :=
  ∀ a ∈ L, ∀ b ∈ L, a.name = b.name → seriesKey a.labels = seriesKey b.labels → a.labels = b.labels

/-- Histograms of a name with equally many buckets have the same buckets. -/
def SameBounds (L : List (Item ν)) : Prop :=
  ∀ a ∈ L, ∀ b ∈ L, a.name = b.name → a.kind.agrees b.kind = true → a.kind = b.kind

/-- The same conflicts, and the same series under every other name. -/
def SameResult (r r' : Snapshot ν × List String) : Prop :=
  (∀ x, x ∈ r.2 ↔ x ∈ r'.2) ∧ ∀ x, x ∉ r.2 → ∀ labels, r.1.series x labels = r'.1.series x labels

theorem flatMap_entries {l : List (Σ _ : String, β)} (hnodup : l.NodupKeys) (x : String)
    (g : (Σ _ : String, β) → List γ) (hg : ∀ e ∈ l, e.1 ≠ x → g e = []) :
    l.flatMap g = ((l.dlookup x).map fun b => g ⟨x, b⟩).getD [] := by
  induction l with
  | nil => rfl
  | cons e l ih =>
    obtain ⟨hnot, htail⟩ := List.nodupKeys_cons.mp hnodup
    have hrest := ih htail fun e' he' => hg e' (List.mem_cons_of_mem _ he')
    rw [List.flatMap_cons, hrest]
    by_cases hx : e.1 = x
    · subst hx
      rw [List.dlookup_eq_none.mpr hnot]
      have hself : (e :: l).dlookup e.1 = some e.2 := List.dlookup_cons_eq l e.1 e.2
      simp [hself]
    · rw [hg e List.mem_cons_self hx, List.dlookup_cons_ne _ _ (Ne.symm hx), List.nil_append]

theorem filter_map_eq_flatMap (l : List α) (p : α → Bool) (f : α → β) :
    (l.filter p).map f = l.flatMap fun a => if p a then [f a] else [] := by
  induction l with
  | nil => rfl
  | cons a l ih =>
    by_cases h : p a = true
    · simp [h, ih]
    · simp [h, ih]

theorem mem_keyed (h : c ∈ keyed L x k key) :
    ∃ it ∈ L, it.sample = c ∧ it.name = x ∧ k.agrees it.kind = true ∧
      seriesKey it.labels = key := by
  obtain ⟨it, hit, rfl⟩ := List.mem_map.mp h
  obtain ⟨hin, hp⟩ := List.mem_filter.mp hit
  simp only [Bool.and_eq_true, decide_eq_true_eq] at hp
  exact ⟨it, hin, rfl, hp.1.1, hp.1.2, hp.2⟩

theorem items_result (acc : Accumulator ν) (x : String) (labels : Labels) :
    acc.result.1.series x labels = acc.metrics.entries.flatMap fun e =>
      if e.1 = x then e.2.series.entries.flatMap fun s =>
        if s.2.labels = labels then [(e.2.kind, s.2)] else []
      else [] := by
  rw [Snapshot.series, items, List.flatMap_singleton, Option.getD_some, Accumulator.result,
    List.flatMap_map, List.filter_flatMap, List.map_flatMap]
  congr 1
  funext e
  rw [filter_map_eq_flatMap, List.map_map, List.flatMap_map]
  split
  · next hx => simp [Item.name, Item.kind, Item.labels, hx]
  · next hx => simp [Item.name, hx]

theorem first_mem (h : first L x = some f) : f ∈ L ∧ f.name = x :=
  ⟨List.mem_of_find?_eq_some h, first_name h⟩

/-- Under the key of a label set are the samples that were reported with it, and others only if
their labels have the same key. -/
theorem keyed_filter (hbounds : SameBounds L) (hf : first L x = some f) (labels : Labels) :
    (keyed L x f.kind (seriesKey labels)).filter (fun c => c.labels = labels) =
      reported L x f.kind labels := by
  obtain ⟨hin, hname⟩ := first_mem hf
  rw [keyed, reported, List.filter_map, List.filter_filter]
  congr 1
  refine List.filter_congr fun it hit => ?_
  by_cases hx : it.name = x
  · have hagree : f.kind.agrees it.kind = decide (it.kind = f.kind) := by
      rw [Bool.eq_iff_iff, decide_eq_true_eq]
      constructor
      · intro h
        exact (hbounds f hin it hit (hname.trans hx.symm) h).symm
      · intro h
        rw [h]
        exact Kind.agrees_self f.kind
    by_cases hl : it.labels = labels
    · have hl' : it.sample.labels = labels := hl
      simp [hx, hagree, hl, hl']
    · have hl' : it.sample.labels ≠ labels := hl
      simp [hl, hl']
  · simp [hx]

theorem conflict_iff (hbounds : SameBounds L) :
    Conflict L x ↔ ∃ a ∈ L, ∃ b ∈ L, a.name = x ∧ b.name = x ∧ a.kind ≠ b.kind := by
  constructor
  · rintro ⟨f, hf, a, ha, hname, hag⟩
    obtain ⟨hin, hfn⟩ := first_mem hf
    refine ⟨f, hin, a, ha, hfn, hname, fun heq => ?_⟩
    rw [heq, Kind.agrees_self] at hag
    cases hag
  · rintro ⟨a, ha, b, hb, han, hbn, hne⟩
    cases hf : first L x with
    | none => exact absurd (decide_eq_true han) (List.find?_eq_none.mp hf a ha)
    | some f =>
      obtain ⟨hin, hfn⟩ := first_mem hf
      by_contra hno
      have hkind : ∀ c ∈ L, c.name = x → c.kind = f.kind := by
        intro c hc hcn
        refine (hbounds f hin c hc (hfn.trans hcn.symm) ?_).symm
        by_contra hag
        exact hno ⟨f, hf, c, hc, hcn, by simpa using hag⟩
      exact hne ((hkind a ha han).trans (hkind b hb hbn).symm)

def named (L : List (Item ν)) (x : String) (labels : Labels) : List (Sample ν) :=
  (L.filter fun it => it.name = x && it.labels = labels).map Item.sample

theorem mem_named : c ∈ named L x labels ↔
    ∃ it ∈ L, it.sample = c ∧ it.name = x ∧ it.labels = labels := by
  simp only [named, List.mem_map, List.mem_filter, Bool.and_eq_true, decide_eq_true_eq]
  constructor
  · rintro ⟨it, ⟨hit, hn, hl⟩, hs⟩
    exact ⟨it, hit, hs, hn, hl⟩
  · rintro ⟨it, hit, hs, hn, hl⟩
    exact ⟨it, ⟨hit, hn, hl⟩, hs⟩

theorem named_labels (h : c ∈ named L x labels) : c.labels = labels := by
  obtain ⟨it, _, rfl, _, hl⟩ := mem_named.mp h
  exact hl

theorem SameResult.trans (h : SameResult r r') (h' : SameResult r' r'') : SameResult r r'' := by
  constructor
  · intro x
    exact (h.1 x).trans (h'.1 x)
  · intro x hx labels
    exact (h.2 x hx labels).trans (h'.2 x (mt (h.1 x).mpr hx) labels)

theorem items_flatten (groups : List (List (Option (Snapshot ν)))) :
    items groups.flatten = groups.flatMap items := by
  induction groups with
  | nil => rfl
  | cons g groups ih =>
    have happ : items (g ++ groups.flatten) = items g ++ items groups.flatten := List.flatMap_append
    rw [List.flatten_cons, happ, ih, List.flatMap_cons]

theorem DistinctKeys.of_origin {μ : Type} {R : List (Item μ)} (h : DistinctKeys L)
    (ho : ∀ it ∈ R, ∃ a ∈ L, a.name = it.name ∧ a.kind = it.kind ∧ a.labels = it.labels) :
    DistinctKeys R := by
  intro it hit it' hit' hn hk
  obtain ⟨a, ha, han, _, hal⟩ := ho it hit
  obtain ⟨b, hb, hbn, _, hbl⟩ := ho it' hit'
  rw [← hal, ← hbl] at hk ⊢
  exact h a ha b hb (by rw [han, hbn, hn]) hk

theorem SameBounds.of_origin {μ : Type} {R : List (Item μ)} (h : SameBounds L)
    (ho : ∀ it ∈ R, ∃ a ∈ L, a.name = it.name ∧ a.kind = it.kind ∧ a.labels = it.labels) :
    SameBounds R := by
  intro it hit it' hit' hn hag
  obtain ⟨a, ha, han, hak, _⟩ := ho it hit
  obtain ⟨b, hb, hbn, hbk, _⟩ := ho it' hit'
  rw [← hak, ← hbk] at hag ⊢
  exact h a ha b hb (by rw [han, hbn, hn]) hag

variable [AddCommMonoid ν] {s : Sample ν} {cs cs' : List (Sample ν)} {labels : Labels}

/-- One series with the exact sum of the samples that are as the first one, if there are any. -/
def expected (L : List (Item ν)) (x : String) (labels : Labels) : List (Kind × Sample ν) :=
  match first L x with
  | none => []
  | some f => (summed f.kind (reported L x f.kind labels)).toList.map fun s => (f.kind, s)

/-- The merge of the samples, with the names that were reported with different types or buckets. -/
structure Exact (L : List (Item ν)) (r : Snapshot ν × List String) : Prop where
  series : ∀ x labels, r.1.series x labels = expected L x labels
  conflicts : ∀ x, x ∈ r.2 ↔ ∃ a ∈ L, ∃ b ∈ L, a.name = x ∧ b.name = x ∧ a.kind ≠ b.kind
  nodup : r.2.Nodup

@[simp] theorem total_labels (k : Kind) (labels : Labels) (cs : List (Sample ν)) :
    (total k labels cs).labels = labels := by
  cases k <;> rfl

theorem summed_labels (h : summed k cs = some s) : ∃ c ∈ cs, s.labels = c.labels := by
  cases cs with
  | nil => cases h
  | cons c cs =>
    cases h
    exact ⟨c, List.mem_cons_self, total_labels _ _ _⟩

/-- A series is found under its labels, if they are those of all its samples. -/
theorem summed_filter (hsame : ∀ c ∈ cs, ∀ c' ∈ cs, c.labels = c'.labels) (labels : Labels) :
    (summed k cs).toList.filter (fun s => s.labels = labels) =
      (summed k (cs.filter fun c => c.labels = labels)).toList := by
  cases cs with
  | nil => rfl
  | cons c cs =>
    by_cases hc : c.labels = labels
    · subst hc
      have hall : (c :: cs).filter (fun c' => c'.labels = c.labels) = c :: cs :=
        List.filter_eq_self.mpr fun c' hc' => decide_eq_true (hsame c' hc' c List.mem_cons_self)
      rw [hall]
      simp [summed]
    · have hnone : (c :: cs).filter (fun c => c.labels = labels) = [] :=
        List.filter_eq_nil_iff.mpr fun c' hc' h =>
          hc ((hsame c' hc' c List.mem_cons_self).symm.trans (of_decide_eq_true h))
      rw [hnone]
      simp [summed, hc]

theorem Good.series (h : Good L acc) (hkeys : DistinctKeys L) (hbounds : SameBounds L) (x : String)
    (labels : Labels) : acc.result.1.series x labels = expected L x labels := by
  rw [items_result, flatMap_entries acc.metrics.nodupKeys x _ fun e _ hne => if_neg hne, expected]
  cases hf : first L x with
  | none =>
    have hnone : acc.metrics.entries.dlookup x = none := h.absent x hf
    rw [hnone]
    rfl
  | some f =>
    obtain ⟨e, hl, hkind, hseries⟩ := h.present x f hf
    have hlookup : acc.metrics.entries.dlookup x = some e := hl
    have hother : ∀ s ∈ e.series.entries, s.1 ≠ seriesKey labels → (if s.2.labels = labels then
        [(e.kind, s.2)] else []) = [] := by
      intro s hs hne
      rw [if_neg]
      intro heq
      have hs' : e.series.lookup s.1 = some s.2 := (List.mem_dlookup_iff e.series.nodupKeys).mpr hs
      obtain ⟨c, hc, hcl⟩ := summed_labels ((hseries s.1).symm.trans hs')
      obtain ⟨it, _, rfl, _, _, hkey⟩ := mem_keyed hc
      exact hne (hkey.symm.trans (congrArg seriesKey (hcl.symm.trans heq)))
    have hsame : ∀ c ∈ keyed L x f.kind (seriesKey labels),
        ∀ c' ∈ keyed L x f.kind (seriesKey labels), c.labels = c'.labels := by
      intro c hc c' hc'
      obtain ⟨it, hit, rfl, hn, _, hk⟩ := mem_keyed hc
      obtain ⟨it', hit', rfl, hn', _, hk'⟩ := mem_keyed hc'
      exact hkeys it hit it' hit' (hn.trans hn'.symm) (hk.trans hk'.symm)
    have hkey : e.series.entries.dlookup (seriesKey labels) =
        summed f.kind (keyed L x f.kind (seriesKey labels)) := hseries _
    rw [hlookup, Option.map_some, Option.getD_some, if_pos rfl,
      flatMap_entries e.series.nodupKeys (seriesKey labels) _ hother, hkey]
    simp only
    rw [← keyed_filter hbounds hf, ← summed_filter hsame, hkind]
    cases summed f.kind (keyed L x f.kind (seriesKey labels)) with
    | none => rfl
    | some s =>
      by_cases hs : s.labels = labels
      · simp [hs]
      · simp [hs]

theorem exact_merge (snapshots : List (Option (Snapshot ν)))
    (hkeys : DistinctKeys (items snapshots))
    (hbounds : SameBounds (items snapshots)) : Exact (items snapshots) (merge snapshots) := by
  have hgood := good_merge snapshots
  refine ⟨fun x labels => hgood.series hkeys hbounds x labels, fun x => ?_, hgood.nodup⟩
  exact (hgood.conflicts x).trans (conflict_iff hbounds)

/-- Without a conflict all the samples of the name count. -/
theorem expected_plain (hk : ∀ a ∈ L, a.name = x → a.kind = k) (labels : Labels) :
    expected L x labels = (summed k (named L x labels)).toList.map fun s => (k, s) := by
  rw [expected]
  cases hf : first L x with
  | none =>
    have hnil : named L x labels = [] := by
      refine List.eq_nil_iff_forall_not_mem.mpr fun c hc => ?_
      obtain ⟨it, hit, _, hn, _⟩ := mem_named.mp hc
      exact List.find?_eq_none.mp hf it hit (decide_eq_true hn)
    rw [hnil]
    rfl
  | some f =>
    obtain ⟨hin, hfn⟩ := first_mem hf
    obtain rfl := hk f hin hfn
    have hsame : reported L x f.kind labels = named L x labels := by
      rw [reported, named]
      congr 1
      refine List.filter_congr fun it hit => ?_
      by_cases hx : it.name = x
      · simp [hx, hk it hit hx]
      · simp [hx]
    simp only [hsame]

theorem summed_eq (hl : ∀ c ∈ cs, c.labels = labels) :
    summed k cs = if cs = [] then none else some (total k labels cs) := by
  cases cs with
  | nil => rfl
  | cons c cs => rw [summed, hl c List.mem_cons_self, if_neg (List.cons_ne_nil c cs)]

theorem total_perm (h : cs.Perm cs') (k : Kind) (labels : Labels) :
    total k labels cs = total k labels cs' := by
  cases k with
  | counter => simp only [total, (h.map _).sum_eq]
  | gauge => simp only [total, (h.map _).sum_eq]
  | histogram buckets => simp only [total, (h.map _).sum_eq]

theorem summed_perm (h : cs.Perm cs') (hl : ∀ c ∈ cs, c.labels = labels) :
    summed k cs = summed k cs' := by
  have hl' : ∀ c ∈ cs', c.labels = labels := fun c hc => hl c (h.mem_iff.mpr hc)
  have hnil : cs = [] ↔ cs' = [] := by
    constructor
    · rintro rfl
      exact h.symm.eq_nil
    · rintro rfl
      exact h.eq_nil
  simp only [summed_eq hl, summed_eq hl', hnil, total_perm h]

theorem sum_summed (φ : Sample ν → ν) (hφ : ∀ cs, φ (total k labels cs) = (cs.map φ).sum)
    (css : List (List (Sample ν))) (hl : ∀ cs ∈ css, ∀ c ∈ cs, c.labels = labels) :
    ((css.flatMap fun cs => (summed k cs).toList).map φ).sum = (css.flatten.map φ).sum := by
  induction css with
  | nil => rfl
  | cons cs css ih =>
    have hcs := hl cs List.mem_cons_self
    have hrest := ih fun cs' hcs' => hl cs' (List.mem_cons_of_mem _ hcs')
    rw [List.flatMap_cons, List.flatten_cons, List.map_append, List.map_append, List.sum_append,
      List.sum_append, hrest, summed_eq hcs]
    by_cases hnil : cs = []
    · simp [hnil]
    · simp [hnil, hφ]

theorem total_summed (css : List (List (Sample ν))) (hl : ∀ cs ∈ css, ∀ c ∈ cs, c.labels = labels) :
    total k labels (css.flatMap fun cs => (summed k cs).toList) = total k labels css.flatten := by
  have hsum := fun φ hφ => sum_summed (k := k) φ hφ css hl
  cases k with
  | counter => simp only [total, hsum (fun c => c.value.getD 0) fun _ => rfl]
  | gauge => simp only [total, hsum (fun c => c.value.getD 0) fun _ => rfl]
  | histogram buckets =>
    have hcounts : ∀ i ∈ List.range buckets.length,
        ((css.flatMap fun cs => (summed (.histogram buckets) cs).toList).map fun c =>
          (c.counts.getD []).getD i 0).sum =
        (css.flatten.map fun c => (c.counts.getD []).getD i 0).sum := by
      intro i hi
      refine hsum (fun c => (c.counts.getD []).getD i 0) fun cs => ?_
      simp [total, List.getD, List.getElem?_map, List.getElem?_range (List.mem_range.mp hi)]
    simp only [total, hsum (fun c => c.count.getD 0) fun _ => rfl,
      hsum (fun c => c.sum.getD 0) fun _ => rfl, List.map_congr_left hcounts]

theorem summed_summed (css : List (List (Sample ν)))
    (hl : ∀ cs ∈ css, ∀ c ∈ cs, c.labels = labels) :
    summed k (css.flatMap fun cs => (summed k cs).toList) = summed k css.flatten := by
  have hflat : ∀ c ∈ css.flatten, c.labels = labels := by
    intro c hc
    obtain ⟨cs, hcs, hin⟩ := List.mem_flatten.mp hc
    exact hl cs hcs c hin
  have htotals : ∀ c ∈ css.flatMap fun cs => (summed k cs).toList, c.labels = labels := by
    intro c hc
    obtain ⟨cs, hcs, hin⟩ := List.mem_flatMap.mp hc
    obtain ⟨c', hc', he⟩ := summed_labels (Option.mem_toList.mp hin)
    exact he.trans (hl cs hcs c' hc')
  have hnil : (css.flatMap fun cs => (summed k cs).toList) = [] ↔ css.flatten = [] := by
    rw [List.flatMap_eq_nil_iff, List.flatten_eq_nil_iff]
    refine forall₂_congr fun cs _ => ?_
    cases cs <;> simp [summed]
  simp only [summed_eq htotals, summed_eq hflat, hnil, total_summed css hl]

theorem Exact.one_kind (h : Exact L r) (hx : x ∉ r.2) (ha : a ∈ L) (hn : a.name = x) :
    ∀ b ∈ L, b.name = x → b.kind = a.kind := by
  intro b hb hbn
  by_contra hne
  exact hx ((h.conflicts x).mpr ⟨b, hb, a, ha, hbn, hn, hne⟩)

theorem Exact.same_perm (h : Exact L r) (h' : Exact L' r') (hp : L.Perm L') : SameResult r r' := by
  constructor
  · intro x
    rw [h.conflicts, h'.conflicts]
    simp only [hp.mem_iff]
  · intro x hx labels
    rw [h.series, h'.series]
    by_cases hin : ∃ a ∈ L, a.name = x
    · obtain ⟨a, ha, hn⟩ := hin
      have hk := h.one_kind hx ha hn
      have hk' : ∀ b ∈ L', b.name = x → b.kind = a.kind := fun b hb => hk b (hp.mem_iff.mpr hb)
      have hnamed : (named L x labels).Perm (named L' x labels) := (hp.filter _).map _
      rw [expected_plain hk, expected_plain hk', summed_perm hnamed fun c hc => named_labels hc]
    · have hnone : first L x = none :=
        List.find?_eq_none.mpr fun a ha hn => hin ⟨a, ha, of_decide_eq_true hn⟩
      have hnone' : first L' x = none :=
        List.find?_eq_none.mpr fun a ha hn => hin ⟨a, hp.mem_iff.mpr ha, of_decide_eq_true hn⟩
      rw [expected, expected, hnone, hnone']

theorem items_groups (groups : List (List (Option (Snapshot ν)))) :
    items (groups.map fun g => some (merge g).1) =
      groups.flatMap fun g => items [some (merge g).1] := by
  simp only [items, List.flatMap_map, List.flatMap_singleton]

theorem Exact.origin (h : Exact L r) (hit : it ∈ items [some r.1]) :
    ∃ a ∈ L, a.name = it.name ∧ a.kind = it.kind ∧ a.labels = it.labels := by
  have hin : (it.kind, it.sample) ∈ r.1.series it.name it.labels := by
    refine List.mem_map.mpr ⟨it, List.mem_filter.mpr ⟨hit, by simp⟩, rfl⟩
  rw [h.series, expected] at hin
  split at hin
  · cases hin
  · next f hf =>
    obtain ⟨s, hs, he⟩ := List.mem_map.mp hin
    obtain ⟨hk, rfl⟩ := Prod.mk.inj he
    obtain ⟨c, hc, _⟩ := summed_labels (Option.mem_toList.mp hs)
    obtain ⟨a, ha, _⟩ := List.mem_map.mp hc
    obtain ⟨hal, hp⟩ := List.mem_filter.mp ha
    simp only [Bool.and_eq_true, decide_eq_true_eq] at hp
    exact ⟨a, hal, hp.1.1, hp.1.2.trans hk, hp.2⟩

theorem Exact.present (h : Exact L r) (ha : a ∈ L) (hx : a.name ∉ r.2) :
    ∃ it ∈ items [some r.1], it.name = a.name ∧ it.kind = a.kind := by
  have hk := h.one_kind hx ha rfl
  have hs := h.series a.name a.labels
  have hin : a.sample ∈ named L a.name a.labels := mem_named.mpr ⟨a, ha, rfl, rfl, rfl⟩
  rw [expected_plain hk, summed_eq fun c hc => named_labels hc,
    if_neg (List.ne_nil_of_mem hin)] at hs
  have hmem : (a.kind, total a.kind a.labels (named L a.name a.labels)) ∈
      r.1.series a.name a.labels := by
    rw [hs]
    simp
  obtain ⟨it, hit, he⟩ := List.mem_map.mp hmem
  obtain ⟨hit, hp⟩ := List.mem_filter.mp hit
  simp only [Bool.and_eq_true, decide_eq_true_eq] at hp
  exact ⟨it, hit, hp.1, (Prod.mk.inj he).1⟩

/-- The merge of what was merged in groups is the merge of all. -/
theorem same_groups (groups : List (List (Option (Snapshot ν))))
    (hkeys : DistinctKeys (items groups.flatten)) (hbounds : SameBounds (items groups.flatten)) :
    SameResult (mergeGroups groups) (merge groups.flatten) := by
  have hself : ∀ it ∈ items groups.flatten, ∃ a ∈ items groups.flatten, a.name = it.name ∧
      a.kind = it.kind ∧ a.labels = it.labels := fun it hit => ⟨it, hit, rfl, rfl, rfl⟩
  have hsub : ∀ g ∈ groups, ∀ it ∈ items g, it ∈ items groups.flatten := by
    intro g hg it hit
    rw [items_flatten]
    exact List.mem_flatMap.mpr ⟨g, hg, hit⟩
  have hgroup : ∀ g ∈ groups, Exact (items g) (merge g) := fun g hg =>
    exact_merge g (hkeys.of_origin fun it hit => hself it (hsub g hg it hit))
      (hbounds.of_origin fun it hit => hself it (hsub g hg it hit))
  have horigin : ∀ it ∈ items (groups.map fun g => some (merge g).1),
      ∃ a ∈ items groups.flatten, a.name = it.name ∧ a.kind = it.kind ∧ a.labels = it.labels := by
    intro it hit
    rw [items_groups] at hit
    obtain ⟨g, hg, hin⟩ := List.mem_flatMap.mp hit
    obtain ⟨a, ha, hrest⟩ := (hgroup g hg).origin hin
    exact ⟨a, hsub g hg a ha, hrest⟩
  have hall := exact_merge groups.flatten hkeys hbounds
  have hmerged := exact_merge (groups.map fun g => some (merge g).1) (hkeys.of_origin horigin)
    (hbounds.of_origin horigin)
  have hconflicts : ∀ x, x ∈ (mergeGroups groups).2 ↔ x ∈ (merge groups.flatten).2 := by
    intro x
    rw [mergeGroups, List.mem_append, List.mem_flatMap, hall.conflicts]
    constructor
    · rintro (⟨g, hg, hx⟩ | hx)
      · obtain ⟨a, ha, b, hb, hrest⟩ := ((hgroup g hg).conflicts x).mp hx
        exact ⟨a, hsub g hg a ha, b, hsub g hg b hb, hrest⟩
      · obtain ⟨it, hit, it', hit', hn, hn', hne⟩ := (hmerged.conflicts x).mp hx
        obtain ⟨a, ha, han, hak, _⟩ := horigin it hit
        obtain ⟨b, hb, hbn, hbk, _⟩ := horigin it' hit'
        exact ⟨a, ha, b, hb, han.trans hn, hbn.trans hn', by rwa [hak, hbk]⟩
    · rintro ⟨a, ha, b, hb, han, hbn, hne⟩
      by_cases hin : ∃ g ∈ groups, x ∈ (merge g).2
      · exact .inl hin
      · have hpresent : ∀ c ∈ items groups.flatten, c.name = x →
            ∃ it ∈ items (groups.map fun g => some (merge g).1),
              it.name = x ∧ it.kind = c.kind := by
          intro c hc hcn
          rw [items_flatten] at hc
          obtain ⟨g, hg, hcg⟩ := List.mem_flatMap.mp hc
          subst hcn
          obtain ⟨it, hit, hrest⟩ := (hgroup g hg).present hcg fun hx => hin ⟨g, hg, hx⟩
          rw [items_groups]
          exact ⟨it, List.mem_flatMap.mpr ⟨g, hg, hit⟩, hrest⟩
        obtain ⟨it, hit, hn, hk⟩ := hpresent a ha han
        obtain ⟨it', hit', hn', hk'⟩ := hpresent b hb hbn
        exact .inr ((hmerged.conflicts x).mpr ⟨it, hit, it', hit', hn, hn', by rwa [hk, hk']⟩)
  refine ⟨hconflicts, fun x hx labels => ?_⟩
  have hno : x ∉ (merge groups.flatten).2 := mt (hconflicts x).mpr hx
  change (merge (groups.map fun g => some (merge g).1)).1.series x labels = _
  rw [hmerged.series, hall.series]
  by_cases hin : ∃ a ∈ items groups.flatten, a.name = x
  · obtain ⟨a, ha, hn⟩ := hin
    have hk := hall.one_kind hno ha hn
    have hk' : ∀ it ∈ items (groups.map fun g => some (merge g).1), it.name = x →
        it.kind = a.kind := by
      intro it hit hitn
      obtain ⟨b, hb, hbn, hbk, _⟩ := horigin it hit
      exact hbk.symm.trans (hk b hb (hbn.trans hitn))
    have hnamed : named (items (groups.map fun g => some (merge g).1)) x labels =
        (groups.map fun g => named (items g) x labels).flatMap fun cs =>
          (summed a.kind cs).toList := by
      rw [items_groups, named, List.filter_flatMap, List.map_flatMap, List.flatMap_map]
      refine List.flatMap_congr fun g hg => ?_
      have hs := (hgroup g hg).series x labels
      rw [expected_plain fun b hb => hk b (hsub g hg b hb)] at hs
      have hmap := congrArg (List.map Prod.snd) hs
      rw [Snapshot.series, List.map_map, List.map_map] at hmap
      simpa [Function.comp_def] using hmap
    have hflat : (groups.map fun g => named (items g) x labels).flatten =
        named (items groups.flatten) x labels := by
      rw [items_flatten, named, List.filter_flatMap, List.map_flatMap]
      rfl
    rw [expected_plain hk', expected_plain hk, hnamed, summed_summed, hflat]
    intro cs hcs c hc
    obtain ⟨g, _, rfl⟩ := List.mem_map.mp hcs
    exact named_labels hc
  · have hnone : first (items groups.flatten) x = none :=
      List.find?_eq_none.mpr fun a ha hn => hin ⟨a, ha, of_decide_eq_true hn⟩
    have hnone' : first (items (groups.map fun g => some (merge g).1)) x = none := by
      refine List.find?_eq_none.mpr fun it hit hn => hin ?_
      obtain ⟨a, ha, han, _⟩ := horigin it hit
      exact ⟨a, ha, han.trans (of_decide_eq_true hn)⟩
    rw [expected, expected, hnone, hnone']

end Metrics
end Skyext
