import Skyext.Orm.Sound

namespace Skyext.Orm
set_option autoImplicit true

open Parents Prog

variable {schemas : Schemas} {h t u : Heap} {c d d' i n x : Nat} {k k' : Key} {v : Option Value}
  {schema need : SchemaType}

mutual

theorem fits_congr (ht : ∀ x, x < h.size → t.schema x = h.schema x) (schema : SchemaType) :
    (entries : List (Key × Arg)) → (∀ c ∈ docsOf entries, c < h.size) →
      Fits schemas h schema entries → Fits schemas t schema entries
  | [], _, _ => by trivial
  | (k, v) :: entries, hc, hf => by
    unfold Fits at hf ⊢
    unfold docsOf at hc
    exact ⟨v.fits_congr ht _ (fun c hm => hc c (List.mem_append_left _ hm)) hf.1,
      fits_congr ht schema entries (fun c hm => hc c (List.mem_append_right _ hm)) hf.2⟩

theorem Arg.fits_congr (ht : ∀ x, x < h.size → t.schema x = h.schema x)
    (need : Option SchemaType) :
    (a : Arg) → (∀ c ∈ a.docs, c < h.size) → a.Fits schemas h need → a.Fits schemas t need
  | .scalar _, _, _ => by trivial
  | .doc c, hc, hf => by
    unfold Arg.Fits at hf ⊢
    unfold Arg.docs at hc
    rw [ht c (hc c List.mem_cons_self)]
    exact hf
  | .table entries, hc, hf => by
    unfold Arg.Fits at hf ⊢
    unfold Arg.docs at hc
    exact fun schema hs => ⟨(hf schema hs).1, Orm.fits_congr ht schema entries hc (hf schema hs).2⟩

end

theorem Sound.alloc (hs : Sound schemas h) (schema : SchemaType) {E : Heap → Prop} :
    wp (alloc schema) (fun c t => c = h.size ∧ t.size = h.size + 1 ∧ t.parent c = none ∧
      t.schema c = schema ∧ h.Grown t [] ∧ Sound schemas t) E h := by
  have hparent : h.parent h.size = none := by
    by_contra hp
    obtain ⟨p, hp⟩ := Option.ne_none_iff_exists'.mp hp
    exact absurd (hs.parent_lt hp).2 (Nat.lt_irrefl _)
  let t : Heap := { h with
    size := h.size + 1
    docs := fun d => if d = h.size then ⟨schema, none, ∅, [], false, false, 0⟩ else h.docs d }
  have hp (x : Nat) : t.parent x = h.parent x := by
    by_cases hx : x = h.size
    · rw [hx, hparent]
      simp [t, Heap.parent]
    · simp [t, Heap.parent, hx]
  have hslot (d : Nat) (k : Key) : t.slot d k = h.slot d k := by
    by_cases hd : d = h.size
    · rw [hd, hs.unused _ (Nat.le_refl _)]
      simp [t, Heap.slot]
    · simp [t, Heap.slot, hd]
  have hschema (x : Nat) (hx : x ≠ h.size) : t.schema x = h.schema x := by
    simp [t, Heap.schema, hx]
  have hne {x : Nat} (hx : x < h.size) : x ≠ h.size := Nat.ne_of_lt hx
  have hd {d : Nat} {k : Key} {v : Value} (hk : h.slot d k = some v) : d < h.size := by
    by_contra hd
    cases (hs.unused d (Nat.not_lt.mp hd) k).symm.trans hk
  refine wp_bind (wp_get (wp_bind (wp_ok (a := ()) (t := t) rfl
    (wp_pure _ ⟨rfl, rfl, ?_, ?_, ?_, ?_⟩))))
  · exact (hp _).trans hparent
  · simp [t, Heap.schema]
  · exact ⟨Nat.le_succ _, fun x hx => hschema x (hne hx), fun d _ k => hslot d k,
      fun x _ => .inl (hp x)⟩
  · constructor
    case forest => exact hs.forest.congr hp hslot
    case known =>
      intro d k c hk
      rw [hslot] at hk
      exact Nat.lt_succ_of_lt (hs.known d k c hk)
    case unused =>
      intro d hd k
      rw [hslot]
      exact hs.unused d (Nat.le_of_succ_le hd) k
    case typed =>
      intro d k c hk
      rw [hslot] at hk
      rw [hschema d (hne (hd hk)), hschema c (hne (hs.known d k c hk))]
      exact hs.typed d k c hk
    case keyed =>
      intro d n hn
      rw [hslot] at hn
      obtain ⟨v, hv⟩ := Option.isSome_iff_exists.mp hn
      rw [hschema d (hne (hd hv))]
      exact hs.keyed d n hn

theorem Sound.newDocBy (hs : Sound schemas h) {moved : List Nat}
    {fill : Nat → SchemaType → Run Unit}
    (hfill : ∀ t, Sound schemas t → h.Grown t moved → h.size < t.size → t.parent h.size = none →
      t.schema h.size = schema → wp (fill h.size schema)
        (fun _ u => Sound schemas u ∧ h.Grown u moved ∧ t.size ≤ u.size ∧ u.parent h.size = none ∧
          u.schema h.size = schema)
        (fun u => Sound schemas u ∧ h.Grown u moved) t) :
    wp (newDocBy (some schema) fill)
      (fun c u => Sound schemas u ∧ h.Grown u moved ∧ h.size ≤ c ∧ c < u.size ∧ u.parent c = none ∧
        u.schema c = schema)
      (fun u => Sound schemas u ∧ h.Grown u moved) h := by
  refine wp_seq (F := fun _ => False) (hs.alloc schema) (fun _ he => he.elim) fun c t ht => ?_
  obtain ⟨rfl, hsize, hroot, hschema, hg, hst⟩ := ht
  have hlt : h.size < t.size := hsize ▸ Nat.lt_succ_self _
  have hg' := (Heap.Grown.refl h moved).trans hg (by rintro _ ⟨⟩)
  refine wp_seq (hfill t hst hg' hlt hroot hschema) (fun _ hu => hu) fun _ u hu => ?_
  obtain ⟨hsu, hgu, hsize', hroot', hschema'⟩ := hu
  exact wp_pure _ ⟨hsu, hgu, Nat.le_refl _, Nat.lt_of_lt_of_le hlt hsize', hroot', hschema'⟩

/-- What the cloning of a document leaves. -/
def Clones (schemas : Schemas) (clone : Nat → Run Nat) : Prop :=
  ∀ h c, Sound schemas h → c < h.size →
    wp (clone c) (fun c' t => Sound schemas t ∧ h.Grown t [] ∧ h.size ≤ c' ∧ c' < t.size ∧
      t.parent c' = none ∧ t.schema c' = h.schema c) (fun t => Sound schemas t ∧ h.Grown t []) h

mutual

theorem wp_fill {clone : Nat → Run Nat} (hclone : Clones schemas clone) {h : Heap} {d : Nat}
    {schema : SchemaType} {moved : List Nat} (hb : Sound schemas h) (hd : h.size ≤ d) :
    (entries : List (Key × Arg)) → Fits schemas h schema entries →
      (∀ c ∈ docsOf entries, c < h.size ∧ c ∈ moved) → ∀ t, Sound schemas t → h.Grown t moved →
        d < t.size → t.parent d = none → t.schema d = schema →
          wp (fill schemas clone d schema entries)
            (fun _ u => Sound schemas u ∧ h.Grown u moved ∧ t.size ≤ u.size ∧ u.parent d = none ∧
              u.schema d = schema)
            (fun u => Sound schemas u ∧ h.Grown u moved) t
  | [], _, _, t, hs, hg, hlt, hroot, hschema => by
    unfold fill
    exact wp_pure _ ⟨hs, hg, Nat.le_refl _, hroot, hschema⟩
  | (k, v) :: entries, hf, hm, t, hs, hg, hlt, hroot, hschema => by
    unfold fill
    unfold Fits at hf
    unfold docsOf at hm
    have hv (c : Nat) (hc : c ∈ v.docs) : c < h.size ∧ c ∈ moved :=
      hm c (List.mem_append_left _ hc)
    have hvt := v.fits_congr hg.schema _ (fun c hc => (hv c hc).1) hf.1
    refine wp_seq (wp_toValue hclone v t hvt
      (fun c hc => Nat.lt_of_lt_of_le (hv c hc).1 hg.size) hs) (fun u hu => ?_) fun val u hu => ?_
    · exact ⟨hu.1, hg.trans hu.2 fun x hx _ => (hv x hx).2⟩
    · obtain ⟨hsu, hgu, hval⟩ := hu
      have hgu' : h.Grown u moved := hg.trans hgu fun x hx _ => (hv x hx).2
      have hltu : d < u.size := Nat.lt_of_lt_of_le hlt hgu.size
      have hrootu : u.parent d = none := by
        rcases hgu.parent d hlt with hp | ⟨hp, hmem⟩
        · exact hp.trans hroot
        · exact absurd (hv d hmem).1 (Nat.not_lt.mpr hd)
      have hschemau : u.schema d = schema := (hgu.schema d hlt).trans hschema
      refine wp_seq (hsu.docChange hltu fun c hc => ?_) (fun w hw => hw ▸ ⟨hsu, hgu'⟩)
        fun _ w hw => ?_
      · obtain ⟨hcu, hcroot, hnew, htype⟩ := hval c (Option.some.inj hc)
        refine ⟨hcu, fun _ => ⟨fun ha => ?_, fun need hn => htype need (hschemau ▸ hn)⟩⟩
        have hcd := ha.eq_of_root hrootu
        subst hcd
        rcases hnew with hnew | hmem
        · exact absurd hlt (Nat.not_lt.mpr hnew)
        · exact absurd (hv c hmem).1 (Nat.not_lt.mpr hd)
      · obtain ⟨k', _, hw, _, hsw⟩ := hw
        have hgw := hgu'.written hb hd hw hsu fun c hc => by
          obtain ⟨hcu, hcroot, hnew, _⟩ := hval c (Option.some.inj (stored_doc.mp hc))
          refine ⟨hcroot, fun hlt' => ?_⟩
          rcases hnew with hnew | hmem
          · exact absurd (Nat.lt_of_lt_of_le hlt' hg.size) (Nat.not_lt.mpr hnew)
          · exact (hv c hmem).2
        refine wp_mono (wp_fill hclone hb hd entries hf.2
          (fun c hc => hm c (List.mem_append_right _ hc)) w hsw hgw (hw.size ▸ hltu) ?_
          ((hw.schema d).trans hschemau)) (fun _ z hz => ?_) fun _ hz => hz
        · rw [hw.parent]
          split
          · next hvd =>
            obtain ⟨_, _, hnew, _⟩ := hval d (Option.some.inj (stored_doc.mp hvd))
            rcases hnew with hnew | hmem
            · exact absurd hlt (Nat.not_lt.mpr hnew)
            · exact absurd (hv d hmem).1 (Nat.not_lt.mpr hd)
          · split
            · rfl
            · exact hrootu
        · exact ⟨hz.1, hz.2.1, Nat.le_trans hgu.size (hw.size ▸ hz.2.2.1), hz.2.2.2⟩

theorem wp_toValue {clone : Nat → Run Nat} (hclone : Clones schemas clone)
    {need : Option SchemaType} :
    (a : Arg) → ∀ t, a.Fits schemas t need → (∀ c ∈ a.docs, c < t.size) → Sound schemas t →
      wp (toValue schemas clone need a)
        (fun val u => Sound schemas u ∧ t.Grown u a.docs ∧ ∀ c, val = .doc c →
          c < u.size ∧ u.parent c = none ∧ (t.size ≤ c ∨ c ∈ a.docs) ∧
            ∀ schema, need = some schema → u.schema c = schema ∧ schema.IsSchema)
        (fun u => Sound schemas u ∧ t.Grown u a.docs) t
  | .scalar s, t, _, _, hs => by
    unfold toValue
    exact wp_pure _ ⟨hs, .refl _ _, by rintro _ ⟨⟩⟩
  | .doc c, t, hf, hc, hs => by
    unfold toValue
    unfold Arg.Fits at hf
    unfold Arg.docs at hc ⊢
    refine wp_bind (wp_get ?_)
    split
    · refine wp_seq (hclone t c hs (hc c List.mem_cons_self)) (fun u hu => ⟨hu.1, ?_⟩)
        fun c' u hu => wp_pure _ ?_
      · exact (Heap.Grown.refl t _).trans hu.2 (by rintro _ ⟨⟩)
      · obtain ⟨hsu, hg, hnew, hlt, hroot, hschema⟩ := hu
        refine ⟨hsu, (Heap.Grown.refl t _).trans hg (by rintro _ ⟨⟩), ?_⟩
        rintro _ ⟨⟩
        refine ⟨hlt, hroot, .inl hnew, fun schema hn => ?_⟩
        obtain ⟨he, hi⟩ := hf schema hn
        exact ⟨hschema.trans he, hi⟩
    · next hroot =>
      refine wp_pure _ ⟨hs, .refl _ _, ?_⟩
      rintro _ ⟨⟩
      exact ⟨hc c List.mem_cons_self, Option.isNone_iff_eq_none.mp (by simpa using hroot),
        .inr List.mem_cons_self, hf⟩
  | .table entries, t, hf, hc, hs => by
    unfold toValue
    unfold Arg.Fits at hf
    unfold Arg.docs at hc ⊢
    cases need with
    | none => exact wp_bind (wp_throw _ ⟨hs, .refl _ _⟩)
    | some schema =>
      obtain ⟨hi, hf⟩ := hf schema rfl
      refine wp_bind (wp_mono (hs.newDocBy fun u hsu hg hlt hroot hschema =>
        wp_fill hclone hs (Nat.le_refl _) entries hf (fun c hm => ⟨hc c hm, hm⟩) u hsu hg hlt hroot
          hschema) (fun c w hw => ?_) fun _ hw => hw)
      obtain ⟨hsw, hgw, hnew, hlt, hroot, hschema⟩ := hw
      refine wp_pure _ ⟨hsw, hgw, ?_⟩
      rintro _ ⟨⟩
      refine ⟨hlt, hroot, .inl hnew, ?_⟩
      rintro _ ⟨⟩
      exact ⟨hschema, hi⟩

end

theorem fits_append (entries : List (Key × Arg)) (k : Key) (a : Arg) :
    Fits schemas h schema (entries ++ [(k, a)]) ↔
      Fits schemas h schema entries ∧ a.Fits schemas h (schema.index schemas k) := by
  induction entries with
  | nil => simp only [List.nil_append, Fits, and_true, true_and]
  | cons e entries ih => simp only [List.cons_append, Fits, ih, and_assoc]

/-- A copy is of the types of what was copied, and holds no documents. -/
theorem Sound.toTableFrom (hs : Sound schemas h) (n : Nat) {d : Nat} {lookup : List Nat}
    {copied : List (Key × Arg) × List Nat} (hc : Heap.toTableFrom n h d lookup = .ok copied) :
    Fits schemas h (h.schema d) copied.1 ∧ docsOf copied.1 = [] := by
  induction n generalizing d lookup copied with
  | zero => cases hc
  | succ n ih =>
    simp only [Heap.toTableFrom] at hc
    split at hc
    · cases hc
    · refine foldlM_invariant (P := fun copied => Fits schemas h (h.schema d) copied.1 ∧
        docsOf copied.1 = []) (fun e he b b' hb hstep => ?_) ?_ hc
      · obtain ⟨k, v⟩ := e
        cases v with
        | scalar s =>
          cases hstep
          rw [fits_append, docsOf_snoc, hb.2]
          exact ⟨⟨hb.1, trivial⟩, rfl⟩
        | doc c =>
          cases hsub : Heap.toTableFrom n h c b.2 with
          | error e =>
            simp only [hsub] at hstep
            cases hstep
          | ok sub =>
            simp only [hsub] at hstep
            cases hstep
            obtain ⟨hfits, hdocs⟩ := ih hsub
            obtain ⟨hi, hn⟩ := hs.typed d k c (AList.mem_lookup_iff.mpr he)
            rw [fits_append, docsOf_snoc, hb.2]
            refine ⟨⟨hb.1, ?_⟩, hdocs⟩
            unfold Arg.Fits
            rw [hi]
            rintro _ ⟨⟩
            exact ⟨hn, hfits⟩
      · exact ⟨by unfold Fits; trivial, rfl⟩

theorem Clones.never (schemas : Schemas) : Clones schemas fun _ => throw .circular :=
  fun h _ hs _ => wp_throw _ ⟨hs, .refl h []⟩

theorem Clones.cloneDoc (schemas : Schemas) : Clones schemas (cloneDoc schemas) := by
  intro h d hs _
  refine wp_bind (wp_get (wp_bind (wp_lift (fun init hinit => ?_) fun _ _ => ⟨hs, .refl h []⟩)))
  obtain ⟨copied, hc, rfl⟩ : ∃ copied, Heap.toTableFrom h.size h d [] = .ok copied ∧
      copied.1 = init := by
    cases hc : Heap.toTableFrom h.size h d [] with
    | error e =>
      simp only [Heap.toTable, hc] at hinit
      cases hinit
    | ok copied =>
      simp only [Heap.toTable, hc] at hinit
      cases hinit
      exact ⟨copied, rfl, rfl⟩
  obtain ⟨hfits, hdocs⟩ := hs.toTableFrom _ hc
  exact hs.newDocBy fun t hst hg hlt hroot hschema =>
    wp_fill (.never schemas) hs (Nat.le_refl _) copied.1 hfits (by rw [hdocs]; rintro _ ⟨⟩) t hst hg
      hlt hroot hschema

theorem Sound.newDoc (hs : Sound schemas h) {entries : List (Key × Arg)}
    (hf : Fits schemas h schema entries) (hc : ∀ c ∈ docsOf entries, c < h.size) :
    wp (newDoc schemas (some schema) entries)
      (fun c u => Sound schemas u ∧ h.Grown u (docsOf entries) ∧ h.size ≤ c ∧ c < u.size ∧
        u.parent c = none ∧ u.schema c = schema)
      (fun u => Sound schemas u ∧ h.Grown u (docsOf entries)) h :=
  hs.newDocBy fun t hst hg hlt hroot hschema =>
    wp_fill (.cloneDoc schemas) hs (Nat.le_refl _) entries hf (fun c hm => ⟨hc c hm, hm⟩) t hst hg
      hlt hroot hschema

theorem Sound.new (hs : Sound schemas h) {entries : List (Key × Arg)}
    (hf : Fits schemas h schema entries) (hc : ∀ c ∈ docsOf entries, c < h.size) :
    wp (new schemas schema entries) (fun _ t => Sound schemas t) (Sound schemas) h :=
  wp_seq (hs.newDoc hf hc) (fun _ ht => ht.1) fun _ _ ht =>
    wp_bind (wp_modify _ (wp_pure _ (ht.1.congr (Heap.Same.clearDirtyFrom ..))))

end Skyext.Orm
