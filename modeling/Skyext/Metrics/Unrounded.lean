import Skyext.Lib.LuaSums
import Skyext.Metrics.Maps
import Skyext.Metrics.OrderFree

namespace Skyext
set_option autoImplicit true

namespace Metrics

open LuaNumber (Addable Traced)

inductive Field
  | value
  | count
  | sum
  | bucket (i : Nat)

/-- What is added of samples of a type. -/
def Kind.fields : Kind → List Field
  | .histogram buckets => .count :: .sum :: (List.range buckets.length).map .bucket
  | _ => [.value]

def Sample.field (s : Sample ν) : Field → Option ν
  | .value => s.value
  | .count => s.count
  | .sum => s.sum
  | .bucket i => (s.counts.getD [])[i]?

/-- Lua adds up every field of the samples of a series without rounding or overflow. -/
def ExactSums (L : List (Item LuaNumber)) : Prop :=
  ∀ x k labels, ∀ field ∈ k.fields,
    Addable ((reported L x k labels).filterMap fun s => s.field field)

def values (r : Snapshot LuaNumber × List String) : Snapshot (WithTop ℚ) × List String :=
  (r.1.map LuaNumber.value, r.2)

def Sample.numbers (s : Sample ν) : List ν :=
  s.value.toList ++ s.count.toList ++ s.sum.toList ++ s.counts.getD []

section Numbers

variable {ν μ : Type} {φ ψ : ν → μ} {s : Sample ν}

theorem Sample.numbers_map (φ : ν → μ) (s : Sample ν) :
    (s.map φ).numbers = s.numbers.map φ := by
  obtain ⟨labels, value, count, sum, counts⟩ := s
  cases value <;> cases count <;> cases sum <;> cases counts <;> simp [numbers, map]

theorem Sample.field_map (φ : ν → μ) (s : Sample ν) (field : Field) :
    (s.map φ).field field = (s.field field).map φ := by
  cases field with
  | bucket i =>
    cases hc : s.counts with
    | none => simp [Sample.field, Sample.map, hc]
    | some counts => simp [Sample.field, Sample.map, hc]
  | _ => rfl

theorem Sample.map_congr (h : ∀ n ∈ s.numbers, φ n = ψ n) : s.map φ = s.map ψ := by
  obtain ⟨labels, value, count, sum, counts⟩ := s
  simp only [numbers, List.mem_append, Option.mem_toList] at h
  simp only [map, Sample.mk.injEq, true_and]
  refine ⟨Option.map_congr fun n hn => ?_, Option.map_congr fun n hn => ?_,
    Option.map_congr fun n hn => ?_, Option.map_congr fun l hl => ?_⟩
  · exact h n (.inl (.inl (.inl hn)))
  · exact h n (.inl (.inl (.inr hn)))
  · exact h n (.inl (.inr hn))
  · refine List.map_congr_left fun n hn => h n (.inr ?_)
    rw [hl]
    exact hn

theorem numbers_total [AddCommMonoid ν] {k : Kind} {labels : Labels} {cs : List (Sample ν)} {n : ν}
    (h : n ∈ (total k labels cs).numbers) :
    ∃ field ∈ k.fields, n = (cs.map fun c => (c.field field).getD 0).sum := by
  cases k with
  | histogram buckets =>
    simp only [total, Sample.numbers, Option.toList_none, Option.toList_some, List.nil_append,
      List.cons_append, Option.getD_some, List.mem_cons, List.mem_map,
      List.mem_range] at h
    rcases h with rfl | rfl | ⟨i, hi, rfl⟩
    · exact ⟨.count, by simp [Kind.fields], rfl⟩
    · exact ⟨.sum, by simp [Kind.fields], rfl⟩
    · refine ⟨.bucket i, by simp [Kind.fields, hi], ?_⟩
      simp only [Sample.field, List.getD_eq_getElem?_getD]
  | _ =>
    simp only [total, Sample.numbers, Option.toList_none, Option.toList_some, List.append_nil,
      List.mem_singleton, Option.getD_none] at h
    exact ⟨.value, by simp [Kind.fields], h⟩

theorem Snapshot.map_map {ξ : Type} (φ : ν → μ) (ψ : μ → ξ) (snapshot : Snapshot ν) :
    (snapshot.map φ).map ψ = snapshot.map (ψ ∘ φ) := by
  simp only [Snapshot.map, List.map_map]
  refine List.map_congr_left fun m _ => ?_
  simp only [Function.comp_apply, Metric.map, List.map_map, Metric.mk.injEq, true_and]
  refine List.map_congr_left fun s _ => ?_
  simp only [Function.comp_apply, Sample.map, Option.map_map, List.map_comp_map]

theorem Snapshot.series_map (φ : ν → μ) (snapshot : Snapshot ν) (x : String) (labels : Labels) :
    (snapshot.map φ).series x labels =
      (snapshot.series x labels).map (Prod.map id (Sample.map φ)) := by
  have hitems : items [some (snapshot.map φ)] = (items [some snapshot]).map (Item.map φ) :=
    items_map φ [some snapshot]
  rw [Snapshot.series, Snapshot.series, hitems, List.filter_map, List.map_map, List.map_map]
  rfl

theorem reported_map (φ : ν → μ) (L : List (Item ν)) (x : String) (k : Kind) (labels : Labels) :
    reported (L.map (Item.map φ)) x k labels = (reported L x k labels).map (Sample.map φ) := by
  rw [reported, reported, List.filter_map, List.map_map, List.map_map]
  rfl

end Numbers

/-- The samples with every number noted as its own sum. -/
def traced (snapshots : List (Option (Snapshot LuaNumber))) : List (Option (Snapshot Traced)) :=
  snapshots.map (Option.map (Snapshot.map Traced.one))

/-- The exact sum of the numbers a number was added from. -/
def exactly (t : Traced) : WithTop ℚ := (t.parts.map LuaNumber.value).sum

theorem number_additive : Additive Traced.number := ⟨rfl, fun _ _ => rfl⟩

theorem parts_additive : Additive Traced.parts := ⟨rfl, fun _ _ => rfl⟩

theorem exactly_additive : Additive exactly := by
  refine ⟨rfl, fun s t => ?_⟩
  rw [exactly, Traced.parts_add, Multiset.map_add, Multiset.sum_add]
  rfl

/-- Where Lua does not round, the sums are the exact ones. -/
theorem series_exactly (R : Snapshot Traced) (x : String) (labels : Labels)
    (h : ∀ p ∈ (R.map Traced.parts).series x labels, ∀ n ∈ p.2.numbers, Addable n) :
    (R.map (LuaNumber.value ∘ Traced.number)).series x labels =
      (R.map exactly).series x labels := by
  rw [Snapshot.series_map] at h ⊢
  rw [Snapshot.series_map]
  refine List.map_congr_left fun p hp => Prod.ext rfl (Sample.map_congr fun t ht => ?_)
  have hparts : t.parts ∈ (p.2.map Traced.parts).numbers := by
    rw [Sample.numbers_map]
    exact List.mem_map_of_mem ht
  exact t.sums.value (h _ (List.mem_map_of_mem hp) t.parts hparts)

theorem traced_map {μ : Type} (φ : Traced → μ) (snapshots : List (Option (Snapshot LuaNumber))) :
    (traced snapshots).map (Option.map (Snapshot.map φ)) =
      snapshots.map (Option.map (Snapshot.map fun v => φ (.one v))) := by
  rw [traced, List.map_map]
  refine List.map_congr_left fun s _ => ?_
  cases s with
  | none => rfl
  | some snapshot => exact congrArg some (Snapshot.map_map _ _ _)

theorem sum_parts (cs : List (Sample LuaNumber)) (field : Field) :
    ((cs.map (Sample.map fun v => ({v} : Multiset LuaNumber))).map fun c =>
      (c.field field).getD 0).sum = (cs.filterMap fun s => s.field field : Multiset LuaNumber) := by
  induction cs with
  | nil => rfl
  | cons c cs ih =>
    rw [List.map_cons, List.map_cons, List.sum_cons, ih, Sample.field_map]
    cases hf : c.field field with
    | none => simp [hf]
    | some v => simp [hf]

theorem merge_traced {μ : Type} [Zero μ] [Add μ] {φ : Traced → μ} (h : Additive φ)
    (snapshots : List (Option (Snapshot LuaNumber))) :
    merge (snapshots.map (Option.map (Snapshot.map fun v => φ (.one v)))) =
      ((merge (traced snapshots)).1.map φ, (merge (traced snapshots)).2) := by
  rw [← traced_map, h.merge]

theorem mergeGroups_traced {μ : Type} [Zero μ] [Add μ] {φ : Traced → μ} (h : Additive φ)
    (groups : List (List (Option (Snapshot LuaNumber)))) :
    mergeGroups (groups.map (List.map (Option.map (Snapshot.map fun v => φ (.one v))))) =
      ((mergeGroups (groups.map traced)).1.map φ, (mergeGroups (groups.map traced)).2) := by
  rw [← h.mergeGroups, List.map_map]
  congr 1
  refine List.map_congr_left fun g _ => ?_
  rw [Function.comp_apply, traced_map]

/-- The snapshots as numbers of another type. -/
abbrev numbered {μ : Type} (φ : LuaNumber → μ) (snapshots : List (Option (Snapshot LuaNumber))) :
    List (Option (Snapshot μ)) :=
  snapshots.map (Option.map (Snapshot.map φ))

/-- Numbers of another type come under the names and labels of the items they are made from. -/
theorem numbered_origin {μ : Type} (φ : LuaNumber → μ)
    (snapshots : List (Option (Snapshot LuaNumber))) : ∀ it ∈ items (numbered φ snapshots),
    ∃ a ∈ items snapshots, a.name = it.name ∧ a.kind = it.kind ∧ a.labels = it.labels := by
  intro it hit
  rw [items_map] at hit
  obtain ⟨a, ha, rfl⟩ := List.mem_map.mp hit
  exact ⟨a, ha, rfl, rfl, rfl⟩

theorem addable_parts {snapshots : List (Option (Snapshot LuaNumber))}
    (hkeys : DistinctKeys (items snapshots)) (hbounds : SameBounds (items snapshots))
    (hsums : ExactSums (items snapshots)) (x : String) (labels : Labels) :
    ∀ p ∈ (merge (numbered (fun v => ({v} : Multiset LuaNumber)) snapshots)).1.series x labels,
      ∀ n ∈ p.2.numbers, Addable n := by
  intro p hp n hn
  have hexact := exact_merge _ (hkeys.of_origin
    (numbered_origin (fun v => ({v} : Multiset LuaNumber)) snapshots))
    (hbounds.of_origin (numbered_origin _ _))
  rw [hexact.series, expected] at hp
  split at hp
  · cases hp
  · next f hf =>
    obtain ⟨s, hs, rfl⟩ := List.mem_map.mp hp
    rw [items_map, reported_map] at hs
    obtain ⟨l, hl⟩ : ∃ l, s = total f.kind l ((reported (items snapshots) x f.kind labels).map
        (Sample.map fun v => ({v} : Multiset LuaNumber))) := by
      revert hs
      cases (reported (items snapshots) x f.kind labels).map
        (Sample.map fun v => ({v} : Multiset LuaNumber)) with
      | nil => rintro ⟨⟩
      | cons c cs =>
        intro hs
        exact ⟨c.labels, (Option.some.inj (Option.mem_toList.mp hs)).symm⟩
    subst hl
    obtain ⟨field, hfield, rfl⟩ := numbers_total hn
    rw [sum_parts]
    exact hsums x f.kind labels field hfield

theorem exactly_one : (fun v => exactly (.one v)) = LuaNumber.value := by
  funext v
  rw [exactly, Traced.one, Multiset.map_singleton, Multiset.sum_singleton]

theorem numbered_self (snapshots : List (Option (Snapshot LuaNumber))) :
    numbered (fun v => v) snapshots = snapshots := by
  have hsample : Sample.map (fun v : LuaNumber => v) = id := by
    funext sample
    simp [Sample.map]
  have hmetric : Metric.map (fun v : LuaNumber => v) = id := by
    funext metric
    simp [Metric.map, hsample]
  have hsnapshot : Snapshot.map (fun v : LuaNumber => v) = id := by
    funext snapshot
    simp [Snapshot.map, hmetric]
  rw [numbered, hsnapshot, Option.map_id, List.map_id]

theorem values_merge (snapshots : List (Option (Snapshot LuaNumber))) :
    values (merge snapshots) = ((merge (traced snapshots)).1.map (LuaNumber.value ∘ Traced.number),
      (merge (traced snapshots)).2) := by
  have hmerge := merge_traced number_additive snapshots
  change merge (numbered (fun v => v) snapshots) = _ at hmerge
  rw [numbered_self] at hmerge
  rw [hmerge, values, Snapshot.map_map]

theorem values_mergeGroups (groups : List (List (Option (Snapshot LuaNumber)))) :
    values (mergeGroups groups) =
      ((mergeGroups (groups.map traced)).1.map (LuaNumber.value ∘ Traced.number),
        (mergeGroups (groups.map traced)).2) := by
  have hmerge := mergeGroups_traced number_additive groups
  have hself : groups.map (numbered fun v => v) = groups := by
    simp only [funext numbered_self, List.map_id']
  change mergeGroups (groups.map (numbered fun v => v)) = _ at hmerge
  rw [hself] at hmerge
  rw [hmerge, values, Snapshot.map_map]

/-- Lua's merge is the merge of the exact numbers. -/
theorem values_series {snapshots : List (Option (Snapshot LuaNumber))}
    (hkeys : DistinctKeys (items snapshots)) (hbounds : SameBounds (items snapshots))
    (hsums : ExactSums (items snapshots)) (x : String) (labels : Labels) :
    (values (merge snapshots)).1.series x labels =
      (merge (numbered LuaNumber.value snapshots)).1.series x labels := by
  have hparts : merge (numbered (fun v => ({v} : Multiset LuaNumber)) snapshots) = _ :=
    merge_traced parts_additive snapshots
  have hvalue := merge_traced exactly_additive snapshots
  rw [exactly_one] at hvalue
  rw [values_merge, hvalue]
  have haddable := addable_parts hkeys hbounds hsums x labels
  rw [hparts] at haddable
  exact series_exactly _ x labels haddable

theorem exact_values {snapshots : List (Option (Snapshot LuaNumber))}
    (hkeys : DistinctKeys (items snapshots)) (hbounds : SameBounds (items snapshots))
    (hsums : ExactSums (items snapshots)) :
    Exact (items (numbered LuaNumber.value snapshots)) (values (merge snapshots)) := by
  have hexact := exact_merge _ (hkeys.of_origin (numbered_origin LuaNumber.value _))
    (hbounds.of_origin (numbered_origin _ _))
  have hconflicts : (values (merge snapshots)).2 =
      (merge (numbered LuaNumber.value snapshots)).2 := by
    have hvalue := merge_traced exactly_additive snapshots
    rw [exactly_one] at hvalue
    rw [values_merge, hvalue]
  refine ⟨fun x labels => ?_, fun x => ?_, ?_⟩
  · rw [values_series hkeys hbounds hsums, hexact.series]
  · rw [hconflicts, hexact.conflicts]
  · rw [hconflicts]
    exact hexact.nodup

/-- Groups of Lua's numbers are merged as those of the exact numbers, but for names with a
conflict. -/
theorem values_groups {groups : List (List (Option (Snapshot LuaNumber)))}
    (hkeys : DistinctKeys (items groups.flatten)) (hbounds : SameBounds (items groups.flatten))
    (hsums : ExactSums (items groups.flatten)) :
    SameResult (values (mergeGroups groups))
      (mergeGroups (groups.map (numbered LuaNumber.value))) := by
  have hparts : mergeGroups (groups.map (numbered fun v => ({v} : Multiset LuaNumber))) = _ :=
    mergeGroups_traced parts_additive groups
  have hvalue := mergeGroups_traced exactly_additive groups
  rw [exactly_one] at hvalue
  rw [values_mergeGroups, hvalue]
  refine ⟨fun x => Iff.rfl, fun x hx labels => series_exactly _ x labels ?_⟩
  have hflat : (groups.map (numbered fun v => ({v} : Multiset LuaNumber))).flatten =
      numbered (fun v => ({v} : Multiset LuaNumber)) groups.flatten := List.map_flatten.symm
  have hsame := same_groups (groups.map (numbered fun v => ({v} : Multiset LuaNumber)))
    (by rw [hflat]; exact hkeys.of_origin (numbered_origin _ _))
    (by rw [hflat]; exact hbounds.of_origin (numbered_origin _ _))
  rw [hflat, hparts] at hsame
  have haddable := addable_parts hkeys hbounds hsums x labels
  rwa [← hsame.2 x hx labels] at haddable

theorem ExactSums.perm {L L' : List (Item LuaNumber)} (h : ExactSums L) (hp : L'.Perm L) :
    ExactSums L' := by
  intro x k labels field hfield
  have hreported : (reported L' x k labels).Perm (reported L x k labels) := (hp.filter _).map _
  rw [Multiset.coe_eq_coe.mpr (hreported.filterMap _)]
  exact h x k labels field hfield

/-- Where Lua adds up exactly, a merge has one series with the exact sum for each label set of a
name; names that were reported differently are noted; the others do not depend on the order of the
snapshots, nor on whether they were merged in groups before. -/
theorem merge_exact (snapshots : List (Option (Snapshot LuaNumber)))
    (hkeys : DistinctKeys (items snapshots)) (hbounds : SameBounds (items snapshots))
    (hsums : ExactSums (items snapshots)) :
    Exact (items (numbered LuaNumber.value snapshots)) (values (merge snapshots)) ∧
    (∀ others, others.Perm snapshots →
      SameResult (values (merge others)) (values (merge snapshots))) ∧
    ∀ groups, groups.flatten.Perm snapshots →
      SameResult (values (mergeGroups groups)) (values (merge snapshots)) := by
  have hexact := exact_values hkeys hbounds hsums
  have hperm : ∀ others, others.Perm snapshots → DistinctKeys (items others) ∧
      SameBounds (items others) ∧ ExactSums (items others) := by
    intro others hp
    have hitems : (items others).Perm (items snapshots) := hp.flatMap_right _
    have ho : ∀ it ∈ items others, ∃ a ∈ items snapshots, a.name = it.name ∧ a.kind = it.kind ∧
        a.labels = it.labels := fun it hit => ⟨it, hitems.mem_iff.mp hit, rfl, rfl, rfl⟩
    exact ⟨hkeys.of_origin ho, hbounds.of_origin ho, hsums.perm hitems⟩
  have hothers : ∀ others, others.Perm snapshots →
      SameResult (values (merge others)) (values (merge snapshots)) := by
    intro others hp
    obtain ⟨hk, hb, hs⟩ := hperm others hp
    exact (exact_values hk hb hs).same_perm hexact ((hp.map _).flatMap_right _)
  refine ⟨hexact, hothers, ?_⟩
  intro groups hp
  obtain ⟨hk, hb, hs⟩ := hperm groups.flatten hp
  have hflat : (groups.map (numbered LuaNumber.value)).flatten =
      numbered LuaNumber.value groups.flatten := List.map_flatten.symm
  have hsame := same_groups (groups.map (numbered LuaNumber.value))
    (by rw [hflat]; exact hk.of_origin (numbered_origin _ _))
    (by rw [hflat]; exact hb.of_origin (numbered_origin _ _))
  rw [hflat] at hsame
  have hflatten : SameResult (merge (numbered LuaNumber.value groups.flatten))
      (values (merge groups.flatten)) :=
    (exact_merge _ (hk.of_origin (numbered_origin _ _))
      (hb.of_origin (numbered_origin _ _))).same_perm (exact_values hk hb hs) (.refl _)
  exact (((values_groups hk hb hs).trans hsame).trans hflatten).trans (hothers groups.flatten hp)

def noLabels : Labels := ⟨[], .nil⟩

/-- A service reports one value of a metric. -/
def report (name : String) (kind : Kind) (value : LuaNumber) : Option (Snapshot LuaNumber) :=
  some [{ name := name, kind := kind, samples := [{ labels := noLabels, value := some value }] }]

/-- A half, two, and a service without an answer. -/
def loads : List (Option (Snapshot LuaNumber)) :=
  [report "load" .gauge (.float 0.5), none, report "load" .gauge (.integer 2)]

theorem value_half : (LuaNumber.float 0.5).value = ((1 * 2 ^ (-1 : ℤ) : ℚ) : WithTop ℚ) := by
  have hunpack : (0.5 : Float).toModel.unpack = .finite .positive (2 ^ 52) (-53) (by decide) := rfl
  rw [LuaNumber.value, Binary64.value, hunpack, Binary64.amount]
  norm_num [Float.Model.UnpackedFloat.Sign.apply]

theorem loads_addable : Addable ([.float 0.5, .integer 2] : List LuaNumber) := by
  refine ⟨by decide, .inr ⟨-1, fun x => if x = .integer 2 then 4 else 1, by decide, by decide, ?_,
    by decide⟩⟩
  intro x hx
  simp only [Multiset.mem_coe, List.mem_cons, List.not_mem_nil, or_false] at hx
  rcases hx with rfl | rfl
  · simpa using value_half
  · simp only [LuaNumber.value, if_true]
    norm_num

theorem loads_exact : ExactSums (items loads) := by
  intro x k labels field _
  have hsub : (reported (items loads) x k labels).Sublist ((items loads).map Item.sample) :=
    List.filter_sublist.map _
  refine (?_ : Addable (((items loads).map Item.sample).filterMap fun s => s.field field)).mono
    (Multiset.coe_le.mpr (hsub.filterMap _).subperm)
  cases field with
  | value => exact loads_addable
  | _ => exact loads_addable.mono (Multiset.zero_le _)

theorem merge_exact_loads :
    Exact (items (numbered LuaNumber.value loads)) (values (merge loads)) :=
  (merge_exact loads (by unfold DistinctKeys; decide +kernel) (by unfold SameBounds; decide +kernel)
    loads_exact).1

/-- Of a counter and a gauge of one name the first is kept, and floats are rounded as they come. -/
theorem order_matters :
    (¬ ∀ snapshots others : List (Option (Snapshot LuaNumber)), others.Perm snapshots →
      ∀ x labels, (merge others).1.series x labels = (merge snapshots).1.series x labels) ∧
    (merge [report "load" .gauge (.float 0.1), report "load" .gauge (.float 0.2),
      report "load" .gauge (.float 0.3)]).1.series "load" noLabels ≠
    (merge [report "load" .gauge (.float 0.3), report "load" .gauge (.float 0.2),
      report "load" .gauge (.float 0.1)]).1.series "load" noLabels := by
  refine ⟨fun h => ?_, by decide +kernel⟩
  have he := h [report "thing" .counter (.integer 1), report "thing" .gauge (.integer 100)]
    [report "thing" .gauge (.integer 100), report "thing" .counter (.integer 1)]
    (List.Perm.swap _ _ []) "thing" noLabels
  exact absurd he (by decide +kernel)

end Metrics
end Skyext
