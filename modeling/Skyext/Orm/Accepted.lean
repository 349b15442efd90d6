import Skyext.Orm.Contents

namespace Skyext.Orm
set_option autoImplicit true

open Parents Prog

mutual

/-- Every key can be parsed and every value is accepted in its slot. -/
def AllAccepted (schemas : Schemas) (h : Heap) (schema : SchemaType) : List (Key × Arg) → Prop
  | [] => True
  | (k, v) :: entries =>
    ((schema.parseK schemas k).isOk ∧ ∀ need ∈ schema.index schemas k, v.Accepted schemas h need) ∧
      AllAccepted schemas h schema entries

/-- What may be assigned where a type is declared, at every depth. -/
def Arg.Accepted (schemas : Schemas) (h : Heap) (need : SchemaType) : Arg → Prop
  | .scalar s => checkVTp (.inl s) need = .ok ()
  | .doc c => checkVTp (.inr (h.schema c)) need = .ok ()
  | .table entries => need.IsSchema ∧ AllAccepted schemas h need entries

end

mutual

def decAllAccepted (schemas : Schemas) (h : Heap) (schema : SchemaType) :
    (entries : List (Key × Arg)) → Decidable (AllAccepted schemas h schema entries)
  | [] => isTrue trivial
  | (k, v) :: entries =>
    have (need : SchemaType) := v.decAccepted schemas h need
    have := decAllAccepted schemas h schema entries
    inferInstanceAs (Decidable ((_ ∧ ∀ need ∈ schema.index schemas k,
      v.Accepted schemas h need) ∧ _))

def Arg.decAccepted (schemas : Schemas) (h : Heap) (need : SchemaType) :
    (v : Arg) → Decidable (v.Accepted schemas h need)
  | .scalar s => inferInstanceAs (Decidable (checkVTp (.inl s) need = .ok ()))
  | .doc c => inferInstanceAs (Decidable (checkVTp (.inr (h.schema c)) need = .ok ()))
  | .table entries =>
    have := decAllAccepted schemas h need entries
    inferInstanceAs (Decidable (need.IsSchema ∧ AllAccepted schemas h need entries))

end

instance : Decidable (Arg.Accepted schemas h need v) := v.decAccepted schemas h need

variable {schemas : Schemas} {h t u : Heap} {c d d' i n x : Nat} {k k' : Key} {v : Option Value}
  {schema need : SchemaType}

theorem checkVTp_schema : checkVTp (.inr schema) need = .ok () ↔ schema = need ∧ need.IsSchema := by
  cases need <;> simp [checkVTp, SchemaType.IsSchema]

theorem SchemaType.checkKv_eq (hc : schema.checkK schemas k = .ok ())
    (hi : schema.index schemas k = some need) (v : Scalar ⊕ SchemaType) :
    schema.checkKv schemas k v = checkVTp v need := by
  rcases container_cases schemas schema with ⟨key, value, hkey, _⟩ | ⟨hkey, _⟩
  · simp only [checkK, hkey] at hc
    simp only [checkKv, hi, hkey, hc]
    rfl
  · simp only [checkKv, hi, hkey]

mutual

theorem allAccepted_congr (ht : ∀ x, x < h.size → t.schema x = h.schema x) (schema : SchemaType) :
    (entries : List (Key × Arg)) → (∀ c ∈ docsOf entries, c < h.size) →
      (AllAccepted schemas t schema entries ↔ AllAccepted schemas h schema entries)
  | [], _ => Iff.rfl
  | (k, v) :: entries, hc => by
    unfold AllAccepted
    unfold docsOf at hc
    rw [allAccepted_congr ht schema entries fun c hm => hc c (List.mem_append_right _ hm)]
    have hv : ∀ need, v.Accepted schemas t need ↔ v.Accepted schemas h need := fun need =>
      v.accepted_congr ht need fun c hm => hc c (List.mem_append_left _ hm)
    simp only [hv]

theorem Arg.accepted_congr (ht : ∀ x, x < h.size → t.schema x = h.schema x) (need : SchemaType) :
    (a : Arg) → (∀ c ∈ a.docs, c < h.size) →
      (a.Accepted schemas t need ↔ a.Accepted schemas h need)
  | .scalar _, _ => Iff.rfl
  | .doc c, hc => by
    unfold Arg.Accepted
    unfold Arg.docs at hc
    rw [ht c (hc c List.mem_cons_self)]
  | .table entries, hc => by
    unfold Arg.Accepted
    unfold Arg.docs at hc
    rw [allAccepted_congr ht need entries hc]

end

theorem wp_alloc (h : Heap) (schema : SchemaType) {E : Heap → Prop} :
    wp (alloc schema) (fun c t => c = h.size ∧ t.size = h.size + 1 ∧ t.parent c = none ∧
      t.schema c = schema ∧ (∀ k, t.slot c k = none) ∧ h.Grown t []) E h := by
  let t : Heap := { h with
    size := h.size + 1
    docs := fun d => if d = h.size then ⟨schema, none, ∅, [], false, false, 0⟩ else h.docs d }
  have hdocs : ∀ x, x < h.size → t.docs x = h.docs x := fun x hx => if_neg (Nat.ne_of_lt hx)
  refine wp_bind (wp_get (wp_bind (wp_ok (a := ()) (t := t) rfl
    (wp_pure _ ⟨rfl, rfl, ?_, ?_, ?_, ?_⟩))))
  · simp [t, Heap.parent]
  · simp [t, Heap.schema]
  · simp [t, Heap.slot]
  · refine ⟨Nat.le_succ _, fun x hx => ?_, fun x hx k => ?_, fun x hx => .inl ?_⟩
    · simp only [Heap.schema, hdocs x hx]
    · simp only [Heap.slot, hdocs x hx]
    · simp only [Heap.parent, hdocs x hx]

/-- A document that is new since `h` is being filled; what it holds is new too, or a root that has
been moved into it. -/
structure Filling (schemas : Schemas) (h t : Heap) (moved : List Nat) (d : Nat)
    (schema : SchemaType) : Prop where
  grown : h.Grown t moved
  new : h.size ≤ d
  lt : d < t.size
  root : t.parent d = none
  tp : t.schema d = schema
  slots : ∀ k x, t.slot d k = some (.doc x) → x < t.size ∧ x ≠ d ∧ t.parent x = some d ∧
    (x < h.size → h.parent x = none ∧ x ∈ moved)
  once : ∀ k k' x, t.slot d k = some (.doc x) → t.slot d k' = some (.doc x) → k = k'
  scalars : ∀ k s need, t.slot d k = some (.scalar s) → schema.index schemas k = some need →
    checkVTp (.inl s) need = .ok ()

namespace Filling

variable {moved moved' : List Nat}

theorem initial (ht : h.Grown t []) (hc : h.size ≤ d) (hlt : d < t.size) (hroot : t.parent d = none)
    (hschema : t.schema d = schema) (hempty : ∀ k, t.slot d k = none) :
    Filling schemas h t [] d schema := by
  refine ⟨ht, hc, hlt, hroot, hschema, ?_, ?_, ?_⟩
  · intro k x hk
    cases (hempty k).symm.trans hk
  · intro k k' x hk
    cases (hempty k).symm.trans hk
  · intro k s need hk
    cases (hempty k).symm.trans hk

/-- Other documents are made and other roots are moved. -/
theorem grow (hf : Filling schemas h t moved d schema) (hg : t.Grown u moved')
    (hm : ∀ c ∈ moved', c < h.size) : Filling schemas h u (moved ++ moved') d schema := by
  have hslot := hg.slot d hf.lt
  refine ⟨?_, hf.new, Nat.lt_of_lt_of_le hf.lt hg.size, ?_, (hg.schema d hf.lt).trans hf.tp,
    ?_, ?_, ?_⟩
  · refine Heap.Grown.trans ⟨hf.grown.size, hf.grown.schema, hf.grown.slot, fun x hx => ?_⟩ hg
      fun x hx _ => List.mem_append_right _ hx
    exact (hf.grown.parent x hx).imp_right fun hp => ⟨hp.1, List.mem_append_left _ hp.2⟩
  · rcases hg.parent d hf.lt with hp | ⟨_, hmem⟩
    · exact hp.trans hf.root
    · exact absurd (hm d hmem) (Nat.not_lt.mpr hf.new)
  · intro k x hk
    obtain ⟨hlt, hne, hp, hold⟩ := hf.slots k x ((hslot k).symm.trans hk)
    refine ⟨Nat.lt_of_lt_of_le hlt hg.size, hne, ?_, fun hx => ?_⟩
    · rcases hg.parent x hlt with hp' | ⟨hp', _⟩
      · exact hp'.trans hp
      · cases hp'.symm.trans hp
    · exact ⟨(hold hx).1, List.mem_append_left _ (hold hx).2⟩
  · intro k k' x hk hk'
    exact hf.once k k' x ((hslot k).symm.trans hk) ((hslot k').symm.trans hk')
  · intro k s need hk
    exact hf.scalars k s need ((hslot k).symm.trans hk)

theorem written (hf : Filling schemas h t moved d schema) (hw : t.Written u d k v)
    (hv : ∀ c, v = some (.doc c) → c < t.size ∧ c ≠ d ∧ t.parent c = none ∧
      (c < h.size → c ∈ moved))
    (hs : ∀ s need, v = some (.scalar s) → schema.index schemas k = some need →
      checkVTp (.inl s) need = .ok ()) : Filling schemas h u moved d schema := by
  have hfree : ∀ c k', v = some (.doc c) → t.slot d k' ≠ some (.doc c) := by
    intro c k' hc hk
    cases (hv c hc).2.2.1.symm.trans (hf.slots k' c hk).2.2.1
  have hslot : ∀ k' x, u.slot d k' = some x → k' = k ∧ v = some x ∨
      k' ≠ k ∧ t.slot d k' = some x := by
    intro k' x hk
    rw [hw.slot] at hk
    split at hk
    · next he => exact .inl ⟨he.2, hk⟩
    · next he => exact .inr ⟨fun hkk => he ⟨rfl, hkk⟩, hk⟩
  have hold : ∀ c, c < h.size → t.parent c = none → h.parent c = none := by
    intro c hc hroot
    rcases hf.grown.parent c hc with hp | ⟨hp, _⟩
    · exact hp.symm.trans hroot
    · exact hp
  refine ⟨⟨hw.size ▸ hf.grown.size, fun x hx => (hw.schema x).trans (hf.grown.schema x hx),
    ?_, ?_⟩, hf.new, hw.size ▸ hf.lt, ?_, (hw.schema d).trans hf.tp, ?_, ?_, ?_⟩
  · intro d' hd' k'
    rw [hw.slot, if_neg]
    · exact hf.grown.slot d' hd' k'
    · rintro ⟨rfl, _⟩
      exact absurd hd' (Nat.not_lt.mpr hf.new)
  · intro x hx
    rw [hw.parent]
    split
    · next hvx => exact .inr ⟨hold x hx (hv x hvx).2.2.1, (hv x hvx).2.2.2 hx⟩
    · split
      · next hk => exact .inl ((hf.slots k x hk).2.2.2 hx).1.symm
      · exact hf.grown.parent x hx
  · rw [hw.parent, if_neg fun hvd => (hv d hvd).2.1 rfl]
    split
    · rfl
    · exact hf.root
  · intro k' x hk
    rcases hslot k' _ hk with ⟨rfl, hvx⟩ | ⟨hne, hk⟩
    · obtain ⟨hlt, hne, hroot, hmem⟩ := hv x hvx
      exact ⟨hw.size ▸ hlt, hne, by rw [hw.parent, if_pos hvx],
        fun hx => ⟨hold x hx hroot, hmem hx⟩⟩
    · obtain ⟨hlt, hxd, hp, hmem⟩ := hf.slots k' x hk
      refine ⟨hw.size ▸ hlt, hxd, ?_, hmem⟩
      rw [hw.parent, if_neg fun hvx => hfree x k' hvx hk, if_neg, hp]
      exact fun hk₀ => hne (hf.once k' k x hk hk₀)
  · intro k₁ k₂ x h₁ h₂
    rcases hslot k₁ _ h₁ with ⟨rfl, hv₁⟩ | ⟨_, h₁⟩
    · rcases hslot k₂ _ h₂ with ⟨rfl, _⟩ | ⟨_, h₂⟩
      · rfl
      · exact absurd h₂ (hfree x k₂ hv₁)
    · rcases hslot k₂ _ h₂ with ⟨rfl, hv₂⟩ | ⟨_, h₂⟩
      · exact absurd h₁ (hfree x k₁ hv₂)
      · exact hf.once k₁ k₂ x h₁ h₂
  · intro k' s need hk hi
    rcases hslot k' _ hk with ⟨rfl, hvs⟩ | ⟨_, hk⟩
    · exact hs s need hvs hi
    · exact hf.scalars k' s need hk hi

theorem docChange (hf : Filling schemas h t moved d schema)
    (hv : ∀ c, v = some (.doc c) → c < t.size ∧ c ≠ d ∧ t.parent c = none ∧
      (c < h.size → c ∈ moved))
    (hsome : v.isSome) :
    wp (docChange schemas d k v)
      (fun _ u => Filling schemas h u moved d schema ∧
        (∃ k', schema.parseK schemas k = .ok k' ∧ t.Written u d k' (stored (t.slot d k') v)) ∧
        ∀ need ∈ schema.index schemas k, ∀ x ∈ v, checkVTp (t.typeOf x) need = .ok ())
      (fun u => (h.Grown u moved ∧ t.size ≤ u.size) ∧ ¬ ((schema.parseK schemas k).isOk ∧
        ∀ need ∈ schema.index schemas k, ∀ x ∈ v, checkVTp (t.typeOf x) need = .ok ())) t := by
  have hfree : ∀ c k', v = some (.doc c) → t.slot d k' ≠ some (.doc c) := by
    intro c k' hc hk
    cases (hv c hc).2.2.1.symm.trans (hf.slots k' c hk).2.2.1
  have hcheck : ∀ k' need, schema.parseK schemas k = .ok k' → schema.index schemas k = some need →
      ∀ tp, schema.checkKv schemas k' tp = checkVTp tp need := by
    intro k' need hk hi tp
    obtain ⟨hc, hi'⟩ := SchemaType.parseK_spec hk
    exact SchemaType.checkKv_eq hc (hi'.trans hi) tp
  obtain ⟨x, rfl⟩ := Option.isSome_iff_exists.mp hsome
  refine wp_mono (wp_docChange (.root hf.lt hf.root) fun c hc hroot => ⟨fun ha => ?_, fun k' =>
    hfree c k' hc⟩) (fun _ u hu => ?_) fun u hu => ?_
  · exact (hv c hc).2.1 (ha.eq_of_root hf.root)
  · obtain ⟨k', hk, hw, _, hval⟩ := hu
    rw [hf.tp] at hk hval
    have hi' := (SchemaType.parseK_spec hk).2
    have hok : ∀ need ∈ schema.index schemas k, checkVTp (t.typeOf x) need = .ok () := by
      intro need hi
      rcases hval x rfl with hslot | hval
      · cases x with
        | scalar s =>
          obtain ⟨s', hs', he⟩ := Value.equals_scalar hslot
          rw [Heap.typeOf, SchemaType.checkVTp_equals he]
          exact hf.scalars k' s' need hs' (hi'.trans hi)
        | doc c =>
          rw [Value.equals_comm] at hslot
          exact absurd (Value.equals_doc.mp hslot) (hfree c k' rfl)
      · rwa [hcheck k' need hk hi] at hval
    refine ⟨hf.written hw (fun c hc => hv c (stored_doc.mp hc)) ?_, ⟨k', hk, hw⟩, ?_⟩
    · intro s need hs hi
      rcases stored_scalar hs with hs | hs
      · exact hf.scalars k' s need hs hi
      · cases hs
        exact hok need (hi'.symm.trans hi)
    · rintro need hi _ ⟨⟩
      exact hok need hi
  · rcases hu with ⟨⟨e, hk⟩, rfl⟩ | ⟨k', hk, ⟨⟨c, hc, hroot⟩, rfl⟩ | ⟨y, hy, _, _, hval, rfl⟩⟩
    · rw [hf.tp] at hk
      refine ⟨⟨hf.grown, Nat.le_refl _⟩, fun hok => ?_⟩
      rw [hk] at hok
      cases hok.1
    · rw [(hv c hc).2.2.1] at hroot
      cases hroot
    · rw [hf.tp] at hk hval
      cases hy
      obtain ⟨hc, hi'⟩ := SchemaType.parseK_spec hk
      obtain ⟨need, hi⟩ := SchemaType.index_of_checkK hc
      refine ⟨⟨?_, by simp⟩, fun hok => hval ?_⟩
      · cases x with
        | scalar s => exact hf.grown
        | doc c =>
          obtain ⟨_, _, hroot, hmem⟩ := hv c rfl
          refine ⟨by simpa using hf.grown.size, by simpa using hf.grown.schema,
            by simpa using hf.grown.slot, fun x hx => ?_⟩
          simp only [Heap.parent_restore, Value.doc.injEq]
          split
          · next he =>
            subst he
            refine .inr ⟨?_, hmem hx⟩
            rcases hf.grown.parent c hx with hp | ⟨hp, _⟩
            · exact hp.symm.trans hroot
            · exact hp
          · exact hf.grown.parent x hx
      · rw [hcheck k' need hk (hi'.symm.trans hi)]
        exact hok.2 need (hi'.symm.trans hi) x rfl

end Filling

structure ClonesFresh (copied : Heap → Heap → Nat → Nat → Prop) (clone : Nat → Run Nat) :
    Prop where
  lasting : Lasting copied
  run : ∀ h c, wp (clone c) (fun c' t => h.Grown t [] ∧ h.size ≤ c' ∧ c' < t.size ∧
    t.parent c' = none ∧ t.schema c' = h.schema c ∧ copied h t c c') (fun t => h.Grown t []) h

theorem ClonesFresh.never : ClonesFresh (fun _ _ _ _ => False) fun _ => throw .circular :=
  ⟨Lasting.never, fun h _ => wp_throw _ (.refl h [])⟩

theorem Heap.Grown.mono {moved moved' : List Nat} (hg : h.Grown t moved)
    (hm : ∀ x ∈ moved, x ∈ moved') : h.Grown t moved' :=
  { hg with parent := fun x hx => (hg.parent x hx).imp_right fun hp => ⟨hp.1, hm x hp.2⟩ }

/-- A document that is made out of a plain table, by what filling it does. -/
theorem wp_newDocBy {copied : Heap → Heap → Nat → Nat → Prop} {clone : Nat → Run Nat}
    {entries : List (Key × Arg)}
    (hfill : ∀ t moved, Filling schemas h t moved h.size schema →
      wp (fill schemas clone h.size schema entries)
        (fun _ u => Filling schemas h u (moved ++ docsOf entries) h.size schema ∧
          AllAccepted schemas h schema entries ∧ Heap.Steady (· ≠ h.size) t u ∧
            Fills schemas (copied h u) h u schema entries (t.slot h.size) (u.slot h.size))
        (fun u => h.Grown u (moved ++ docsOf entries) ∧ t.size ≤ u.size ∧
          ((moved ++ docsOf entries).Nodup → (∀ c ∈ docsOf entries, h.parent c = none) →
            ¬ AllAccepted schemas h schema entries)) t) :
    wp (newDocBy (some schema) fun c schema => fill schemas clone c schema entries)
      (fun c u => h.Grown u (docsOf entries) ∧ c = h.size ∧ c < u.size ∧ u.parent c = none ∧
        u.schema c = schema ∧ AllAccepted schemas h schema entries ∧
          (Arg.table entries).Becomes schemas (copied h u) h u (some schema) (.doc c))
      (fun u => h.Grown u (docsOf entries) ∧ h.size < u.size ∧ ((docsOf entries).Nodup →
        (∀ c ∈ docsOf entries, h.parent c = none) → ¬ AllAccepted schemas h schema entries)) h := by
  refine wp_seq (F := fun _ => False) (wp_alloc h schema) (fun _ he => he.elim) fun c t ht => ?_
  obtain ⟨rfl, hsize, hroot, hschema, hempty, hg⟩ := ht
  have hlt : h.size < t.size := hsize ▸ Nat.lt_succ_self _
  have hf : Filling schemas h t [] h.size schema :=
    .initial hg (Nat.le_refl _) hlt hroot hschema hempty
  refine wp_seq (hfill t [] hf) (fun u hu => ?_) fun _ u hu => wp_pure _ ?_
  · exact ⟨hu.1, Nat.lt_of_lt_of_le hlt hu.2.1, hu.2.2⟩
  · obtain ⟨hf, hall, _, hfills⟩ := hu
    rw [show t.slot h.size = fun _ => none from funext hempty] at hfills
    refine ⟨hf.grown, rfl, hf.lt, hf.root, hf.tp, hall, ?_⟩
    unfold Arg.Becomes
    refine ⟨h.size, rfl, Nat.le_refl _, hf.lt, by rw [hf.tp], ?_⟩
    rw [hf.tp]
    exact hfills

mutual

/-- Filling a document: that it succeeds means that everything is accepted, that it fails that
something is not, unless a document has to be cloned. -/
theorem wp_fillFresh {copied : Heap → Heap → Nat → Nat → Prop} {clone : Nat → Run Nat}
    (hclone : ClonesFresh copied clone) {h : Heap} {d : Nat} {schema : SchemaType} :
    (entries : List (Key × Arg)) → (∀ c ∈ docsOf entries, c < h.size) → ∀ t moved,
      Filling schemas h t moved d schema →
        wp (fill schemas clone d schema entries)
          (fun _ u => Filling schemas h u (moved ++ docsOf entries) d schema ∧
            AllAccepted schemas h schema entries ∧ Heap.Steady (· ≠ d) t u ∧
              Fills schemas (copied h u) h u schema entries (t.slot d) (u.slot d))
          (fun u => h.Grown u (moved ++ docsOf entries) ∧ t.size ≤ u.size ∧
            ((moved ++ docsOf entries).Nodup → (∀ c ∈ docsOf entries, h.parent c = none) →
              ¬ AllAccepted schemas h schema entries)) t
  | [], _, t, moved, hf => by
    unfold fill docsOf AllAccepted Fills
    rw [List.append_nil]
    exact wp_pure _ ⟨hf, trivial, ⟨Nat.le_refl _, fun _ _ _ => ⟨rfl, rfl⟩⟩, rfl⟩
  | (k, v) :: entries, hc, t, moved, hf => by
    unfold fill docsOf AllAccepted Fills
    unfold docsOf at hc
    have hv : ∀ c ∈ v.docs, c < h.size := fun c hm => hc c (List.mem_append_left _ hm)
    have hvt : ∀ need, v.Accepted schemas t need ↔ v.Accepted schemas h need := fun need =>
      v.accepted_congr hf.grown.schema need hv
    refine wp_seq (wp_toValueFresh hclone v t
      fun c hm => Nat.lt_of_lt_of_le (hv c hm) hf.grown.size) (fun u hu => ?_) fun val u hu => ?_
    · obtain ⟨hg, hno⟩ := hu
      refine ⟨(hf.grow hg hv).grown.mono fun x hx => ?_, hg.size, fun hnodup hroots hall => ?_⟩
      · rw [← List.append_assoc]
        exact List.mem_append_left _ hx
      · obtain ⟨need, hi⟩ := SchemaType.index_of_parseK hall.1.1
        refine hno (List.nodup_append.mp (List.nodup_append.mp hnodup).2.1).1 (fun c hm => ?_) need
          hi ((hvt need).mpr (hall.1.2 need hi))
        rcases hf.grown.parent c (hv c hm) with hp | ⟨_, hmem⟩
        · exact hp.trans (hroots c (List.mem_append_left _ hm))
        · exact absurd rfl ((List.nodup_append.mp hnodup).2.2 c hmem c (List.mem_append_left _ hm))
    · obtain ⟨hg, hval, htype, hbecomes⟩ := hu
      have hfu := hf.grow hg hv
      refine wp_seq (hfu.docChange (v := some val) ?_ rfl) (fun w hw => ?_) fun _ w hw => ?_
      · intro c hcv
        obtain ⟨hlt, hroot, hnew⟩ := hval c (Option.some.inj hcv)
        refine ⟨hlt, ?_, hroot, fun hold => ?_⟩
        · rintro rfl
          rcases hnew with hnew | hmem
          · exact absurd hf.lt (Nat.not_lt.mpr hnew)
          · exact absurd (hv c hmem) (Nat.not_lt.mpr hf.new)
        · rcases hnew with hnew | hmem
          · exact absurd (Nat.lt_of_lt_of_le hold hf.grown.size) (Nat.not_lt.mpr hnew)
          · exact List.mem_append_right _ hmem
      · obtain ⟨hgw, hno⟩ := hw
        refine ⟨hgw.1.mono fun x hx => ?_, ?_, fun _ _ hall => hno ⟨hall.1.1, ?_⟩⟩
        · rw [← List.append_assoc]
          exact List.mem_append_left _ hx
        · exact hg.size.trans hgw.2
        · rintro need hi _ ⟨⟩
          exact (htype need hi).mpr ((hvt need).mpr (hall.1.2 need hi))
      · obtain ⟨hfw, ⟨k', hk, hw⟩, hcheck⟩ := hw
        have hacc : (schema.parseK schemas k).isOk ∧
            ∀ need ∈ schema.index schemas k, v.Accepted schemas h need := by
          refine ⟨by rw [hk]; rfl, fun need hi => ?_⟩
          exact (hvt need).mp ((htype need hi).mp (hcheck need hi val rfl))
        have hslots : w.slot d =
            Function.update (t.slot d) k' (stored (t.slot d k') (some val)) := by
          rw [hw.slots, ((hg.steady fun _ => True).same d trivial hf.lt).2]
        refine wp_mono (wp_fillFresh hclone entries (fun c hm => hc c (List.mem_append_right _ hm))
          w _ hfw) (fun _ z hz => ?_) fun z hz => ?_
        · obtain ⟨hfz, hall, hs, hfills⟩ := hz
          have hsuz := hw.steady.trans hs
          rw [← List.append_assoc]
          refine ⟨hfz, ⟨hacc, hall⟩, (hg.steady _).trans hsuz, k', val, hk, ?_, hslots ▸ hfills⟩
          refine v.becomes_mono hf.grown (hsuz.mono fun x hx => ?_) (fun c c' hlt hcc => ?_) hv
            hbecomes
          · rintro rfl
            exact absurd hf.lt (Nat.not_lt.mpr hx)
          · refine hclone.lasting hf.grown (hsuz.mono fun x hx => ?_) hlt hcc
            rintro rfl
            exact absurd hf.lt (Nat.not_lt.mpr hx)
        · rw [← List.append_assoc]
          refine ⟨hz.1, hg.size.trans (hw.size.symm ▸ hz.2.1), fun hnodup hroots hall => ?_⟩
          exact hz.2.2 hnodup (fun c hm => hroots c (List.mem_append_right _ hm)) hall.2

theorem wp_toValueFresh {copied : Heap → Heap → Nat → Nat → Prop} {clone : Nat → Run Nat}
    (hclone : ClonesFresh copied clone) {need : Option SchemaType} :
    (a : Arg) → ∀ t, (∀ c ∈ a.docs, c < t.size) →
      wp (toValue schemas clone need a)
        (fun val u => t.Grown u a.docs ∧
          (∀ c, val = .doc c → c < u.size ∧ u.parent c = none ∧ (t.size ≤ c ∨ c ∈ a.docs)) ∧
            (∀ schema ∈ need, checkVTp (u.typeOf val) schema = .ok () ↔
              a.Accepted schemas t schema) ∧ a.Becomes schemas (copied t u) t u need val)
        (fun u => t.Grown u a.docs ∧ (a.docs.Nodup → (∀ c ∈ a.docs, t.parent c = none) →
          ∀ schema ∈ need, ¬ a.Accepted schemas t schema)) t
  | .scalar s, t, _ => by
    unfold toValue Arg.Accepted Arg.Becomes
    exact wp_pure _ ⟨.refl _ _, by rintro _ ⟨⟩, fun _ _ => Iff.rfl, rfl⟩
  | .doc c, t, hc => by
    unfold toValue Arg.Accepted Arg.Becomes
    unfold Arg.docs at hc ⊢
    refine wp_bind (wp_get ?_)
    split
    · next hp =>
      refine wp_seq (hclone.run t c) (fun u hu => ⟨hu.mono (by rintro _ ⟨⟩), fun _ hroots => ?_⟩)
        fun c' u hu => wp_pure _ ?_
      · rw [hroots c List.mem_cons_self] at hp
        cases hp
      · obtain ⟨hg, hnew, hlt, hroot, hschema, hcc⟩ := hu
        refine ⟨hg.mono (by rintro _ ⟨⟩), ?_, fun schema _ => ?_, .inr ⟨c', rfl, hcc⟩⟩
        · rintro _ ⟨⟩
          exact ⟨hlt, hroot, .inl hnew⟩
        · rw [Heap.typeOf, hschema]
    · next hp =>
      have hroot : t.parent c = none := Option.isNone_iff_eq_none.mp (by simpa using hp)
      refine wp_pure _ ⟨.refl _ _, ?_, fun _ _ => Iff.rfl, .inl ⟨rfl, hroot⟩⟩
      rintro _ ⟨⟩
      exact ⟨hc c List.mem_cons_self, hroot, .inr List.mem_cons_self⟩
  | .table entries, t, hc => by
    unfold toValue Arg.Accepted Arg.Becomes
    unfold Arg.docs at hc ⊢
    cases need with
    | none => exact wp_bind (wp_throw _ ⟨.refl _ _, fun _ _ => by rintro _ ⟨⟩⟩)
    | some schema =>
      refine wp_bind (wp_mono (wp_newDocBy (wp_fillFresh hclone entries hc)) (fun c w hw => ?_)
        fun w hw => ?_)
      · obtain ⟨hg, rfl, hlt, hroot, hschema, hall, hb⟩ := hw
        unfold Arg.Becomes at hb
        refine wp_pure _ ⟨hg, ?_, ?_, hb⟩
        · rintro _ ⟨⟩
          exact ⟨hlt, hroot, .inl (Nat.le_refl _)⟩
        · rintro _ ⟨⟩
          rw [Heap.typeOf, hschema, checkVTp_schema]
          exact ⟨fun hi => ⟨hi.2, hall⟩, fun hi => ⟨rfl, hi.1⟩⟩
      · obtain ⟨hg, _, hno⟩ := hw
        refine ⟨hg, fun hnodup hroots => ?_⟩
        rintro _ ⟨⟩ hacc
        exact hno hnodup hroots hacc.2

end

theorem wp_newDocFresh {copied : Heap → Heap → Nat → Nat → Prop} {clone : Nat → Run Nat}
    (hclone : ClonesFresh copied clone) {entries : List (Key × Arg)}
    (hc : ∀ c ∈ docsOf entries, c < h.size) :
    wp (newDocBy (some schema) fun c schema => fill schemas clone c schema entries)
      (fun c u => h.Grown u (docsOf entries) ∧ c = h.size ∧ c < u.size ∧ u.parent c = none ∧
        u.schema c = schema ∧ AllAccepted schemas h schema entries ∧
          (Arg.table entries).Becomes schemas (copied h u) h u (some schema) (.doc c))
      (fun u => h.Grown u (docsOf entries) ∧ h.size < u.size ∧ ((docsOf entries).Nodup →
        (∀ c ∈ docsOf entries, h.parent c = none) → ¬ AllAccepted schemas h schema entries)) h :=
  wp_newDocBy (wp_fillFresh hclone entries hc)

theorem ClonesFresh.cloneDoc (schemas : Schemas) :
    ClonesFresh (Heap.Copied schemas) (cloneDoc schemas) := by
  refine ⟨Lasting.copied schemas, fun h d => ?_⟩
  refine wp_bind (wp_get (wp_bind (wp_lift (fun init hinit => ?_) fun _ _ => .refl h [])))
  have hdocs := docsOf_toTable hinit
  refine wp_mono (wp_newDocFresh .never (by rw [hdocs]; rintro _ ⟨⟩)) (fun c t ht => ?_)
    fun t ht => hdocs ▸ ht.1
  obtain ⟨hg, rfl, hlt, hroot, hschema, _, hb⟩ := ht
  exact ⟨hdocs ▸ hg, Nat.le_refl _, hlt, hroot, hschema, h, init, fun _ _ => ⟨rfl, rfl⟩, hinit, hb⟩

theorem wp_newDoc {entries : List (Key × Arg)} (hc : ∀ c ∈ docsOf entries, c < h.size) :
    wp (newDoc schemas (some schema) entries)
      (fun c u => h.Grown u (docsOf entries) ∧ c = h.size ∧ c < u.size ∧ u.parent c = none ∧
        u.schema c = schema ∧ AllAccepted schemas h schema entries ∧
          (Arg.table entries).Becomes schemas (h.Copied schemas u) h u (some schema) (.doc c))
      (fun u => h.Grown u (docsOf entries) ∧ h.size < u.size ∧ ((docsOf entries).Nodup →
        (∀ c ∈ docsOf entries, h.parent c = none) → ¬ AllAccepted schemas h schema entries)) h :=
  wp_newDocFresh (.cloneDoc schemas) hc

end Skyext.Orm
