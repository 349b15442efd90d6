import Mathlib.Algebra.BigOperators.Group.List.Basic
import Mathlib.Data.List.Induction
import Skyext.Metrics.Merge

namespace Skyext
set_option autoImplicit true

namespace Metrics

variable {ν : Type}

structure Item (ν : Type) where
  metric : Metric ν
  sample : Sample ν

def Item.name (it : Item ν) : String := it.metric.name

def Item.kind (it : Item ν) : Kind := it.metric.kind

def Item.labels (it : Item ν) : Labels := it.sample.labels

def items (snapshots : List (Option (Snapshot ν))) : List (Item ν) :=
  snapshots.flatMap fun s => (s.getD []).flatMap fun m => m.samples.map (Item.mk m)

/-- The types are the same and the histograms have equally many buckets. -/
def Kind.agrees (k k' : Kind) : Bool := k.same k' && k.size = k'.size

theorem Kind.same_cases {k k' : Kind} (h : k.same k' = true) :
    k = k' ∨ ∃ buckets buckets', k = .histogram buckets ∧ k' = .histogram buckets' := by
  cases k <;> cases k' <;> first | exact .inl rfl | exact .inr ⟨_, _, rfl, rfl⟩ | cases h

theorem Kind.agrees_self (k : Kind) : k.agrees k = true := by
  cases k <;> simp [Kind.agrees, Kind.same]

def first (L : List (Item ν)) (x : String) : Option (Item ν) := L.find? fun it => it.name = x

def keyed (L : List (Item ν)) (x : String) (k : Kind) (key : String) : List (Sample ν) :=
  (L.filter fun it => it.name = x && k.agrees it.kind && seriesKey it.labels = key).map Item.sample

/-- A sample of the name does not agree with the first one. -/
def Conflict (L : List (Item ν)) (x : String) : Prop :=
  ∃ f, first L x = some f ∧ ∃ a ∈ L, a.name = x ∧ f.kind.agrees a.kind = false

theorem first_snoc (L : List (Item ν)) (it : Item ν) (x : String) :
    first (L ++ [it]) x = (first L x).or (if it.name = x then some it else none) := by
  rw [first, List.find?_append, ← first]
  by_cases h : it.name = x
  · simp [h]
  · simp [h]

theorem first_name (h : first L x = some f) : f.name = x := by
  rw [first] at h
  simpa using List.find?_some h

theorem keyed_snoc (L : List (Item ν)) (it : Item ν) (x : String) (k : Kind) (key : String) :
    keyed (L ++ [it]) x k key = keyed L x k key ++
      if it.name = x ∧ k.agrees it.kind = true ∧ seriesKey it.labels = key then [it.sample]
      else [] := by
  rw [keyed, List.filter_append, List.map_append, ← keyed]
  by_cases h : it.name = x ∧ k.agrees it.kind = true ∧ seriesKey it.labels = key
  · simp [h]
  · have hno : (decide (it.name = x) && k.agrees it.kind && decide (seriesKey it.labels = key)) =
        false := by
      by_contra hc
      simp only [Bool.not_eq_false, Bool.and_eq_true, decide_eq_true_eq] at hc
      exact h ⟨hc.1.1, hc.1.2, hc.2⟩
    rw [if_neg h, List.filter_cons_of_neg (by simp [hno])]
    rfl

theorem keyed_nil (h : first L x = none) (k : Kind) (key : String) : keyed L x k key = [] := by
  rw [keyed, List.filter_eq_nil_iff.mpr, List.map_nil]
  intro it hit hc
  have hne := List.find?_eq_none.mp h it hit
  simp only [Bool.and_eq_true] at hc
  exact hne hc.1.1

theorem conflict_snoc (L : List (Item ν)) (it : Item ν) (x : String) :
    Conflict (L ++ [it]) x ↔
      Conflict L x ∨ x = it.name ∧ ∃ f, first L x = some f ∧ f.kind.agrees it.kind = false := by
  cases hf : first L x with
  | none =>
    have hnot : ∀ a ∈ L, a.name ≠ x := fun a ha => by simpa using List.find?_eq_none.mp hf a ha
    constructor
    · rintro ⟨f, hfirst, a, ha, hname, hag⟩
      rw [first_snoc, hf, Option.none_or] at hfirst
      split at hfirst
      · cases hfirst
        rcases List.mem_append.mp ha with ha | ha
        · exact absurd hname (hnot a ha)
        · cases List.mem_singleton.mp ha
          rw [Kind.agrees_self] at hag
          cases hag
      · cases hfirst
    · rintro (⟨f, hfirst, _⟩ | ⟨_, f, hfirst, _⟩)
      · cases hf.symm.trans hfirst
      · cases hfirst
  | some f =>
    have hfirst : first (L ++ [it]) x = some f := by rw [first_snoc, hf, Option.some_or]
    constructor
    · rintro ⟨f', hf', a, ha, hname, hag⟩
      cases hfirst.symm.trans hf'
      rcases List.mem_append.mp ha with ha | ha
      · exact .inl ⟨f, hf, a, ha, hname, hag⟩
      · cases List.mem_singleton.mp ha
        exact .inr ⟨hname.symm, f, rfl, hag⟩
    · rintro (⟨f', hf', a, ha, hname, hag⟩ | ⟨hx, f', hf', hag⟩)
      · cases hf.symm.trans hf'
        exact ⟨f, hfirst, a, List.mem_append_left _ ha, hname, hag⟩
      · cases hf'
        exact ⟨f, hfirst, it, List.mem_append_right _ (List.mem_singleton_self it), hx.symm, hag⟩

theorem Accumulator.setSeries_insert (acc : Accumulator ν) (name : String) (e : Entry ν)
    (labels : Labels) (f : Sample ν → Sample ν) :
    setSeries { acc with metrics := acc.metrics.insert name e } name e labels f =
      acc.setSeries name e labels f := by
  simp [setSeries, AList.insert_insert]

theorem Accumulator.setSeries_lookup (acc : Accumulator ν) (name x : String) (e : Entry ν)
    (labels : Labels) (f : Sample ν → Sample ν) (hx : x ≠ name) :
    (acc.setSeries name e labels f).metrics.lookup x = acc.metrics.lookup x :=
  AList.lookup_insert_ne hx

theorem Accumulator.mem_conflict (acc : Accumulator ν) (name x : String) :
    x ∈ (acc.conflict name).conflicts ↔ x ∈ acc.conflicts ∨ x = name := by
  rw [conflict]
  split
  · next hin =>
    refine ⟨.inl, ?_⟩
    rintro (h | rfl)
    · exact h
    · exact hin
  · simp

theorem Accumulator.conflict_metrics (acc : Accumulator ν) (name : String) :
    (acc.conflict name).metrics = acc.metrics := by
  rw [conflict]
  split <;> rfl

theorem Accumulator.conflict_nodup {acc : Accumulator ν} (h : acc.conflicts.Nodup) (name : String) :
    (acc.conflict name).conflicts.Nodup := by
  rw [conflict]
  split
  · exact h
  · next hnot =>
    refine List.nodup_append.mpr ⟨h, List.nodup_singleton name, ?_⟩
    intro a ha b hb
    cases List.mem_singleton.mp hb
    rintro rfl
    exact hnot ha

section Add

variable [Zero ν] [Add ν]

def grow (k : Kind) (s : Sample ν) : Sample ν → Sample ν :=
  match k with
  | .histogram buckets => fun series =>
    { series with
      count := some (series.count.getD 0 + s.count.getD 0)
      sum := some (series.sum.getD 0 + s.sum.getD 0)
      counts := some (Accumulator.addCounts buckets.length
        (series.counts.getD (List.replicate buckets.length 0)) (s.counts.getD [])) }
  | _ => fun series => { series with value := some (series.value.getD 0 + s.value.getD 0) }

namespace Accumulator

theorem add_eq (acc : Accumulator ν) (name : String) (help : Option String) (k : Kind)
    (labels : Labels) (value : ν) :
    acc.add name help k labels value =
      let f := fun series : Sample ν => { series with value := some (series.value.getD 0 + value) }
      match acc.metrics.lookup name with
      | none => acc.setSeries name ⟨help.getD name, k, ∅⟩ labels f
      | some e => if e.kind.same k then acc.setSeries name e labels f else acc.conflict name := by
  cases hl : acc.metrics.lookup name with
  | none => simp [add, metric, hl, setSeries_insert]
  | some e =>
    by_cases hsame : e.kind.same k = true
    · simp [add, metric, hl, hsame]
    · simp [add, metric, hl, hsame]

theorem addHistogram_eq (acc : Accumulator ν) (name : String) (help : Option String)
    (buckets : List LuaNumber) (s : Sample ν) :
    acc.addHistogram name help buckets s.labels (s.count.getD 0) (s.sum.getD 0) s.counts =
      match acc.metrics.lookup name with
      | none => acc.setSeries name ⟨help.getD name, .histogram buckets, ∅⟩ s.labels
          (grow (.histogram buckets) s)
      | some e =>
        if e.kind.agrees (.histogram buckets) then
          acc.setSeries name e s.labels (grow (.histogram buckets) s)
        else acc.conflict name := by
  cases hl : acc.metrics.lookup name with
  | none => simp [addHistogram, metric, hl, setSeries_insert, grow, Kind.size]
  | some e =>
    by_cases hsame : e.kind.same (.histogram buckets) = true
    · by_cases hsize : e.kind.size = buckets.length
      · have hagree : e.kind.agrees (.histogram buckets) = true := by
          rw [Kind.agrees, hsame, Bool.true_and]
          exact decide_eq_true hsize
        simp [addHistogram, metric, hl, hsame, hagree, hsize, grow]
      · have hagree : e.kind.agrees (.histogram buckets) = false := by
          rw [Kind.agrees, hsame, Bool.true_and]
          exact decide_eq_false hsize
        simp [addHistogram, metric, hl, hsame, hagree, hsize]
    · have hagree : e.kind.agrees (.histogram buckets) = false := by simp [Kind.agrees, hsame]
      simp [addHistogram, metric, hl, hsame, hagree]

/-- What one sample does: it starts a metric, goes into a series or is a conflict. -/
theorem addSample_eq (acc : Accumulator ν) (m : Metric ν) (s : Sample ν) :
    acc.addSample m s =
      match acc.metrics.lookup m.name with
      | none => acc.setSeries m.name ⟨m.help.getD m.name, m.kind, ∅⟩ s.labels (grow m.kind s)
      | some e =>
        if e.kind.agrees m.kind then acc.setSeries m.name e s.labels (grow m.kind s)
        else acc.conflict m.name := by
  cases hk : m.kind with
  | counter =>
    have hagree : ∀ k : Kind, k.agrees .counter = k.same .counter := by
      rintro (_ | _ | _) <;> rfl
    simp only [addSample, hk, add_eq, hagree]
    rfl
  | gauge =>
    have hagree : ∀ k : Kind, k.agrees .gauge = k.same .gauge := by
      rintro (_ | _ | _) <;> rfl
    simp only [addSample, hk, add_eq, hagree]
    rfl
  | histogram buckets =>
    simp only [addSample, hk]
    exact addHistogram_eq acc m.name m.help buckets s

end Accumulator

theorem foldl_addSnapshot (acc : Accumulator ν) (snapshots : List (Option (Snapshot ν))) :
    snapshots.foldl Accumulator.addSnapshot acc =
      (items snapshots).foldl (fun acc it => acc.addSample it.metric it.sample) acc := by
  rw [items, List.foldl_flatMap]
  congr 1
  funext acc s
  cases s with
  | none => rfl
  | some snapshot =>
    rw [Accumulator.addSnapshot, Option.getD_some, List.foldl_flatMap]
    congr 1
    funext acc m
    rw [List.foldl_map]

end Add

variable [AddCommMonoid ν]

def total (k : Kind) (labels : Labels) (cs : List (Sample ν)) : Sample ν :=
  match k with
  | .histogram buckets =>
    { labels := labels
      count := some (cs.map fun c => c.count.getD 0).sum
      sum := some (cs.map fun c => c.sum.getD 0).sum
      counts := some ((List.range buckets.length).map fun i =>
        (cs.map fun c => (c.counts.getD []).getD i 0).sum) }
  | _ => { labels := labels, value := some (cs.map fun c => c.value.getD 0).sum }

def summed (k : Kind) : List (Sample ν) → Option (Sample ν)
  | [] => none
  | c :: cs => some (total k c.labels (c :: cs))

theorem grow_new (k : Kind) (s : Sample ν) :
    grow k s { labels := s.labels } = total k s.labels [s] := by
  have hcounts : ∀ buckets : List LuaNumber, Accumulator.addCounts buckets.length
      (List.replicate buckets.length 0) (s.counts.getD []) =
      (List.range buckets.length).map fun i =>
        ([s].map fun c => (c.counts.getD []).getD i 0).sum := by
    intro buckets
    refine List.map_congr_left fun i hi => ?_
    simp [List.getD, List.mem_range.mp hi]
  cases k with
  | counter => simp [grow, total]
  | gauge => simp [grow, total]
  | histogram buckets => simp [grow, total, hcounts]

theorem grow_total (k : Kind) (labels : Labels) (cs : List (Sample ν)) (s : Sample ν) :
    grow k s (total k labels cs) = total k labels (cs ++ [s]) := by
  have hcounts : ∀ (n : Nat) (g : Nat → ν), Accumulator.addCounts n ((List.range n).map g)
      (s.counts.getD []) = (List.range n).map fun i => g i + (s.counts.getD []).getD i 0 := by
    intro n g
    refine List.map_congr_left fun i hi => ?_
    simp [List.getD, List.getElem?_map, List.getElem?_range (List.mem_range.mp hi)]
  cases k with
  | counter => simp [grow, total]
  | gauge => simp [grow, total]
  | histogram buckets => simp [grow, total, hcounts]

theorem total_congr (h : k.agrees k' = true) (labels : Labels) (cs : List (Sample ν)) :
    total k labels cs = total k' labels cs := by
  obtain ⟨hsame, hsize⟩ := Bool.and_eq_true_iff.mp h
  rcases Kind.same_cases hsame with rfl | ⟨buckets, buckets', rfl, rfl⟩
  · rfl
  · have hlen : buckets.length = buckets'.length := of_decide_eq_true hsize
    simp only [total, hlen]

theorem summed_snoc (h : k.agrees k' = true) (cs : List (Sample ν)) (s : Sample ν) :
    some (grow k' s ((summed k cs).getD { labels := s.labels })) = summed k (cs ++ [s]) := by
  cases cs with
  | nil => simp only [summed, Option.getD_none, grow_new, total_congr h, List.nil_append]
  | cons c cs =>
    simp only [summed, Option.getD_some, total_congr h, grow_total, List.cons_append]

/-- Every metric is as its first sample declared it, with the exact sum of the samples under each
key that agree with it; the names of the others are noted once. -/
structure Good (L : List (Item ν)) (acc : Accumulator ν) : Prop where
  absent : ∀ x, first L x = none → acc.metrics.lookup x = none
  present : ∀ x f, first L x = some f → ∃ e, acc.metrics.lookup x = some e ∧ e.kind = f.kind ∧
    ∀ key, e.series.lookup key = summed f.kind (keyed L x f.kind key)
  conflicts : ∀ x, x ∈ acc.conflicts ↔ Conflict L x
  nodup : acc.conflicts.Nodup

theorem Good.new : Good ([] : List (Item ν)) .new := by
  refine ⟨fun _ _ => rfl, ?_, ?_, List.nodup_nil⟩
  · rintro x f ⟨⟩
  · intro x
    simp [Accumulator.new, Conflict, first]

/-- A sample goes into the series of its key and into no other. -/
theorem series_snoc {e : Entry ν} {k : Kind} (hagree : k.agrees it.kind = true)
    (hseries : ∀ key, e.series.lookup key = summed k (keyed L it.name k key)) (key : String) :
    (e.series.insert (seriesKey it.labels) (grow it.kind it.sample
      ((e.series.lookup (seriesKey it.labels)).getD { labels := it.labels }))).lookup key =
      summed k (keyed (L ++ [it]) it.name k key) := by
  rw [keyed_snoc]
  by_cases hkey : seriesKey it.labels = key
  · subst hkey
    rw [AList.lookup_insert, hseries, if_pos ⟨rfl, hagree, rfl⟩]
    exact summed_snoc hagree _ _
  · rw [AList.lookup_insert_ne (Ne.symm hkey), hseries, if_neg (fun h => hkey h.2.2),
      List.append_nil]

theorem Good.others {acc' : Accumulator ν} (h : Good L acc) (it : Item ν) (hx : x ≠ it.name)
    (hl : acc'.metrics.lookup x = acc.metrics.lookup x) :
    (first (L ++ [it]) x = none → acc'.metrics.lookup x = none) ∧
      ∀ f, first (L ++ [it]) x = some f → ∃ e, acc'.metrics.lookup x = some e ∧ e.kind = f.kind ∧
        ∀ key, e.series.lookup key = summed f.kind (keyed (L ++ [it]) x f.kind key) := by
  have hfirst : first (L ++ [it]) x = first L x := by
    rw [first_snoc, if_neg (Ne.symm hx), Option.or_none]
  have hkeyed : ∀ k key, keyed (L ++ [it]) x k key = keyed L x k key := by
    intro k key
    rw [keyed_snoc, if_neg (fun h => hx h.1.symm), List.append_nil]
  simp only [hfirst, hkeyed, hl]
  exact ⟨h.absent x, h.present x⟩

theorem Good.setSeries {e : Entry ν} {f : Item ν} (h : Good L acc) (it : Item ν)
    (hfirst : first (L ++ [it]) it.name = some f) (hkind : e.kind = f.kind)
    (hagree : f.kind.agrees it.kind = true)
    (hseries : ∀ key, e.series.lookup key = summed f.kind (keyed L it.name f.kind key))
    (hnone : ∀ g, first L it.name = some g → g = f) :
    Good (L ++ [it]) (acc.setSeries it.name e it.labels (grow it.kind it.sample)) := by
  refine ⟨?_, ?_, ?_, h.nodup⟩
  · intro x hx
    by_cases hname : x = it.name
    · subst hname
      cases hfirst.symm.trans hx
    · exact (h.others it hname (acc.setSeries_lookup _ _ _ _ _ hname)).1 hx
  · intro x g hx
    by_cases hname : x = it.name
    · subst hname
      cases hfirst.symm.trans hx
      exact ⟨_, AList.lookup_insert _, hkind, series_snoc hagree hseries⟩
    · exact (h.others it hname (acc.setSeries_lookup _ _ _ _ _ hname)).2 g hx
  · intro x
    rw [conflict_snoc, ← h.conflicts x]
    constructor
    · exact .inl
    · rintro (hin | ⟨rfl, g, hg, hno⟩)
      · exact hin
      · rw [hnone g hg, hagree] at hno
        cases hno

theorem Good.addSample (h : Good L acc) (it : Item ν) :
    Good (L ++ [it]) (acc.addSample it.metric it.sample) := by
  rw [Accumulator.addSample_eq]
  change Good _ (match acc.metrics.lookup it.name with
    | none => acc.setSeries it.name ⟨it.metric.help.getD it.name, it.kind, ∅⟩ it.labels
        (grow it.kind it.sample)
    | some e => if e.kind.agrees it.kind then acc.setSeries it.name e it.labels
        (grow it.kind it.sample) else acc.conflict it.name)
  cases hf : first L it.name with
  | none =>
    rw [h.absent it.name hf]
    refine h.setSeries it (f := it) ?_ rfl (Kind.agrees_self _) ?_ ?_
    · simp [first_snoc, hf]
    · intro key
      rw [keyed_nil hf]
      rfl
    · intro g hg
      cases hf.symm.trans hg
  | some f =>
    obtain ⟨e, hl, hkind, hseries⟩ := h.present it.name f hf
    rw [hl]
    simp only [hkind]
    split
    · next hagree =>
      refine h.setSeries it ?_ hkind hagree hseries ?_
      · rw [first_snoc, hf, Option.some_or]
      · intro g hg
        exact (Option.some.inj (hf.symm.trans hg)).symm
    · next hno =>
      rw [Bool.not_eq_true] at hno
      have hmetrics := acc.conflict_metrics it.name
      refine ⟨?_, ?_, ?_, Accumulator.conflict_nodup h.nodup it.name⟩
      · intro x hx
        rw [first_snoc] at hx
        rw [hmetrics]
        exact h.absent x (Option.or_eq_none_iff.mp hx).1
      · intro x g hx
        by_cases hname : x = it.name
        · subst hname
          rw [first_snoc, hf, Option.some_or] at hx
          cases hx
          refine ⟨e, by rw [hmetrics, hl], hkind, fun key => ?_⟩
          rw [keyed_snoc, hno, if_neg (by simp), List.append_nil]
          exact hseries key
        · exact (h.others it hname (by rw [hmetrics])).2 g hx
      · intro x
        rw [Accumulator.mem_conflict, h.conflicts, conflict_snoc]
        refine or_congr_right ⟨fun hx => ⟨hx, ?_⟩, And.left⟩
        subst hx
        exact ⟨f, hf, hno⟩

theorem good_items (L rest : List (Item ν)) (h : Good L acc) :
    Good (L ++ rest) (rest.foldl (fun acc it => acc.addSample it.metric it.sample) acc) := by
  induction rest generalizing L acc with
  | nil => simpa using h
  | cons it rest ih =>
    have hstep := ih (L ++ [it]) (h.addSample it)
    rwa [List.append_assoc, List.singleton_append] at hstep

/-- The accumulator after the snapshots is as their samples make it. -/
theorem good_merge (snapshots : List (Option (Snapshot ν))) :
    Good (items snapshots) (snapshots.foldl Accumulator.addSnapshot .new) := by
  rw [foldl_addSnapshot]
  simpa using good_items [] (items snapshots) .new

end Metrics
end Skyext
