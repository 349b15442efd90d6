import Skyext.Metrics.Exact

namespace Skyext
set_option autoImplicit true

namespace Metrics

variable {ν μ : Type}

/-- A change of the numbers that keeps sums. -/
structure Additive [Zero ν] [Add ν] [Zero μ] [Add μ] (φ : ν → μ) : Prop where
  zero : φ 0 = 0
  add : ∀ a b, φ (a + b) = φ a + φ b

def Sample.map (φ : ν → μ) (s : Sample ν) : Sample μ where
  labels := s.labels
  value := s.value.map φ
  count := s.count.map φ
  sum := s.sum.map φ
  counts := s.counts.map (List.map φ)

def Metric.map (φ : ν → μ) (m : Metric ν) : Metric μ :=
  ⟨m.name, m.help, m.kind, m.samples.map (Sample.map φ)⟩

def Snapshot.map (φ : ν → μ) (snapshot : Snapshot ν) : Snapshot μ :=
  List.map (Metric.map φ) snapshot

def mapValues (f : β → γ) (l : AList fun _ : String => β) : AList fun _ : String => γ :=
  ⟨l.entries.map (.map id fun _ => f), l.nodupKeys.map₂ (fun _ => f) l.entries⟩

def Entry.map (φ : ν → μ) (e : Entry ν) : Entry μ :=
  ⟨e.help, e.kind, mapValues (Sample.map φ) e.series⟩

def Accumulator.map (φ : ν → μ) (acc : Accumulator ν) : Accumulator μ :=
  ⟨mapValues (Entry.map φ) acc.metrics, acc.conflicts⟩

theorem mapValues_lookup (f : β → γ) (l : AList fun _ : String => β) (x : String) :
    (mapValues f l).lookup x = (l.lookup x).map f :=
  List.dlookup_map₂ x

theorem kerase_map (f : β → γ) (l : List (Σ _ : String, β)) (x : String) :
    (l.map (.map id fun _ => f) : List (Σ _ : String, γ)).kerase x =
      (l.kerase x).map (.map id fun _ => f) := by
  induction l with
  | nil => rfl
  | cons e l ih =>
    have hkey : (Sigma.map id (fun _ => f) e : Σ _ : String, γ).1 = e.1 := rfl
    by_cases hx : x = e.1
    · rw [List.map_cons, List.kerase_cons_eq (hx.trans hkey.symm), List.kerase_cons_eq hx]
    · rw [List.map_cons, List.kerase_cons_ne fun h => hx (h.trans hkey), List.kerase_cons_ne hx,
        List.map_cons, ih]

theorem mapValues_insert (f : β → γ) (l : AList fun _ : String => β) (x : String) (b : β) :
    mapValues f (l.insert x b) = (mapValues f l).insert x (f b) := by
  refine AList.ext ?_
  rw [AList.entries_insert]
  exact congrArg _ (kerase_map f l.entries x).symm

def Item.map (φ : ν → μ) (it : Item ν) : Item μ := ⟨it.metric.map φ, it.sample.map φ⟩

theorem items_map (φ : ν → μ) (snapshots : List (Option (Snapshot ν))) :
    items (snapshots.map (Option.map (Snapshot.map φ))) = (items snapshots).map (Item.map φ) := by
  rw [items, items, List.flatMap_map, List.map_flatMap]
  refine List.flatMap_congr fun s _ => ?_
  cases s with
  | none => rfl
  | some snapshot =>
    simp only [Option.map_some, Option.getD_some, Snapshot.map, List.flatMap_map, List.map_flatMap]
    refine List.flatMap_congr fun m _ => ?_
    simp only [Metric.map, List.map_map]
    rfl

theorem conflict_map (φ : ν → μ) (acc : Accumulator ν) (name : String) :
    (acc.conflict name).map φ = (acc.map φ).conflict name := by
  have hc : (acc.map φ).conflicts = acc.conflicts := rfl
  rw [Accumulator.conflict, Accumulator.conflict, hc]
  split <;> rfl

theorem setSeries_map (φ : ν → μ) (acc : Accumulator ν) (name : String) (e : Entry ν)
    (labels : Labels) {f : Sample ν → Sample ν} {g : Sample μ → Sample μ}
    (h : ∀ s, (f s).map φ = g (s.map φ)) :
    (acc.setSeries name e labels f).map φ = (acc.map φ).setSeries name (e.map φ) labels g := by
  have hfind : ((mapValues (Sample.map φ) e.series).lookup (seriesKey labels)).getD
      { labels := labels } =
      ((e.series.lookup (seriesKey labels)).getD { labels := labels }).map φ := by
    rw [mapValues_lookup]
    cases e.series.lookup (seriesKey labels) <;> rfl
  simp only [Accumulator.setSeries, Accumulator.map, Entry.map, mapValues_insert, hfind, h]

theorem result_map (φ : ν → μ) (acc : Accumulator ν) :
    (acc.map φ).result = (acc.result.1.map φ, acc.result.2) := by
  simp only [Accumulator.result, Accumulator.map, mapValues, Snapshot.map, List.map_map]
  congr 1
  refine List.map_congr_left fun e _ => ?_
  simp only [Function.comp_apply, Sigma.map, Entry.map, mapValues, Metric.map, List.map_map]
  rfl

variable [Zero ν] [Add ν] [Zero μ] [Add μ] {φ : ν → μ}

theorem Additive.getD (h : Additive φ) (a : Option ν) : φ (a.getD 0) = (a.map φ).getD 0 := by
  cases a with
  | none => exact h.zero
  | some a => rfl

theorem Additive.addCounts (h : Additive φ) (n : Nat) (merged counts : List ν) :
    (Accumulator.addCounts n merged counts).map φ =
      Accumulator.addCounts n (merged.map φ) (counts.map φ) := by
  have hget : ∀ (l : List ν) (i : Nat), φ (l.getD i 0) = (l.map φ).getD i 0 := by
    intro l i
    rw [List.getD_eq_getElem?_getD, List.getD_eq_getElem?_getD, List.getElem?_map, h.getD]
  rw [Accumulator.addCounts, Accumulator.addCounts, List.map_map]
  refine List.map_congr_left fun i _ => ?_
  rw [Function.comp_apply, h.add, hget, hget]

theorem Additive.grow (h : Additive φ) (k : Kind) (s series : Sample ν) :
    (grow k s series).map φ = grow k (s.map φ) (series.map φ) := by
  cases k with
  | histogram buckets =>
    have hmerged : (series.counts.getD (List.replicate buckets.length 0)).map φ =
        (series.counts.map (List.map φ)).getD (List.replicate buckets.length 0) := by
      cases series.counts with
      | none => simp [h.zero]
      | some counts => rfl
    have hcounts : (s.counts.getD []).map φ = (s.counts.map (List.map φ)).getD [] := by
      cases s.counts <;> rfl
    simp only [Metrics.grow, Sample.map, Option.map_some, h.add, h.getD, h.addCounts, hmerged,
      hcounts]
  | _ => simp only [Metrics.grow, Sample.map, Option.map_some, h.add, h.getD]

theorem Additive.addSample (h : Additive φ) (acc : Accumulator ν) (m : Metric ν) (s : Sample ν) :
    (acc.addSample m s).map φ = (acc.map φ).addSample (m.map φ) (s.map φ) := by
  have hgrow := h.grow m.kind s
  have hl : (acc.map φ).metrics.lookup m.name = (acc.metrics.lookup m.name).map (Entry.map φ) :=
    mapValues_lookup _ _ _
  rw [Accumulator.addSample_eq, Accumulator.addSample_eq]
  simp only [Metric.map, Sample.map] at hgrow ⊢
  rw [hl]
  cases acc.metrics.lookup m.name with
  | none => exact setSeries_map φ acc _ _ _ hgrow
  | some e =>
    by_cases hag : e.kind.agrees m.kind = true
    · simp only [Option.map_some, Entry.map, hag, if_true]
      exact setSeries_map φ acc _ _ _ hgrow
    · simp only [Option.map_some, Entry.map, hag]
      exact conflict_map φ acc _

/-- Merging commutes with a change of the numbers that keeps sums. -/
theorem Additive.merge (h : Additive φ) (snapshots : List (Option (Snapshot ν))) :
    merge (snapshots.map (Option.map (Snapshot.map φ))) =
      ((merge snapshots).1.map φ, (merge snapshots).2) := by
  have hfold : ∀ (L : List (Item ν)) (acc : Accumulator ν),
      (L.map (Item.map φ)).foldl (fun acc it => acc.addSample it.metric it.sample) (acc.map φ) =
        (L.foldl (fun acc it => acc.addSample it.metric it.sample) acc).map φ := by
    intro L
    induction L with
    | nil => intro acc; rfl
    | cons it L ih =>
      intro acc
      rw [List.map_cons, List.foldl_cons, List.foldl_cons, ← ih, h.addSample]
      rfl
  have hnew : (Accumulator.new : Accumulator μ) = Accumulator.new.map φ := rfl
  rw [Metrics.merge, foldl_addSnapshot, items_map, hnew, hfold, result_map, Metrics.merge,
    foldl_addSnapshot]

theorem Additive.mergeGroups (h : Additive φ) (groups : List (List (Option (Snapshot ν)))) :
    mergeGroups (groups.map (List.map (Option.map (Snapshot.map φ)))) =
      ((mergeGroups groups).1.map φ, (mergeGroups groups).2) := by
  have hmerged : (groups.map (List.map (Option.map (Snapshot.map φ)))).map
      (fun g => some (Metrics.merge g).1) =
      (groups.map fun g => some (Metrics.merge g).1).map (Option.map (Snapshot.map φ)) := by
    simp only [List.map_map]
    refine List.map_congr_left fun g _ => ?_
    simp only [Function.comp_apply, h.merge, Option.map_some]
  simp only [Metrics.mergeGroups, hmerged, h.merge, List.flatMap_map]

end Metrics
end Skyext
