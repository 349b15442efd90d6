import Skyext.Orm.Writes

namespace Skyext.Orm
set_option autoImplicit true

open Parents Prog

variable {schemas : Schemas} {h t u : Heap} {c d d' i n x : Nat} {k k' : Key} {v : Option Value}
  {schema need : SchemaType}

/-- A forest of documents each of which has the type that its slot asks for. -/
structure Sound (schemas : Schemas) (h : Heap) : Prop where
  forest : h.Forest
  known : ∀ d k c, h.slot d k = some (.doc c) → c < h.size
  unused : ∀ d, h.size ≤ d → ∀ k, h.slot d k = none
  typed : ∀ d k c, h.slot d k = some (.doc c) →
    (h.schema d).index schemas k = some (h.schema c) ∧ (h.schema c).IsSchema
  keyed : ∀ d n, (h.slot d (.integer n)).isSome → (h.schema d).keyType schemas = some .integer

/-- Where the slots of a list get their new contents from; all other slots keep theirs. -/
def Key.source (f : Int → Option Int) : Key → Option Key
  | .integer m => (f m).map .integer
  | .string s => some (.string s)

namespace Sound

theorem parent_lt (hs : Sound schemas h) (hp : h.parent c = some d) : d < h.size ∧ c < h.size := by
  obtain ⟨k, hk⟩ := (hs.forest.parent_iff c d).mp hp
  refine ⟨?_, hs.known d k c hk⟩
  by_contra hd
  cases (hs.unused d (Nat.not_lt.mp hd) k).symm.trans hk

theorem above_lt (hs : Sound schemas h) (hd : d < h.size) (hx : Above h.parent x d) :
    x < h.size := by
  rcases Relation.ReflTransGen.cases_tail hx with rfl | ⟨y, _, hy⟩
  · exact hd
  · exact (hs.parent_lt hy).1

theorem congr (hs : Sound schemas h) (ht : h.Same t) : Sound schemas t := by
  constructor
  case forest => exact hs.forest.congr ht.parent ht.slot
  case known =>
    intro d k c hk
    rw [ht.slot] at hk
    exact ht.size ▸ hs.known d k c hk
  case unused =>
    intro d hd k
    rw [ht.slot]
    exact hs.unused d (ht.size ▸ hd) k
  case typed =>
    intro d k c hk
    rw [ht.slot] at hk
    rw [ht.schema, ht.schema]
    exact hs.typed d k c hk
  case keyed =>
    intro d n hn
    rw [ht.slot] at hn
    rw [ht.schema]
    exact hs.keyed d n hn

theorem written (hs : Sound schemas h) (hd : d < h.size)
    (hk : (h.schema d).checkK schemas k = .ok ()) (hw : h.Written t d k v)
    (hv : ∀ c, v = some (.doc c) → c < h.size ∧ h.parent c = none ∧ ¬ Above h.parent c d ∧
      (h.schema d).index schemas k = some (h.schema c) ∧ (h.schema c).IsSchema) :
    Sound schemas t := by
  constructor
  case forest =>
    exact hs.forest.written hw fun c hc => ⟨(hv c hc).2.1, (hv c hc).2.2.1⟩
  case known =>
    intro d' k' c hc
    rw [hw.slot] at hc
    rw [hw.size]
    split at hc
    · exact (hv c hc).1
    · exact hs.known d' k' c hc
  case unused =>
    intro d' hd' k'
    rw [hw.size] at hd'
    rw [hw.slot, if_neg]
    · exact hs.unused d' hd' k'
    · rintro ⟨rfl, _⟩
      exact absurd hd (Nat.not_lt.mpr hd')
  case typed =>
    intro d' k' c hc
    rw [hw.slot] at hc
    rw [hw.schema, hw.schema]
    split at hc
    · next he =>
      obtain ⟨rfl, rfl⟩ := he
      exact (hv c hc).2.2.2
    · exact hs.typed d' k' c hc
  case keyed =>
    intro d' n hn
    rw [hw.slot] at hn
    rw [hw.schema]
    split at hn
    · next he =>
      obtain ⟨rfl, rfl⟩ := he
      exact SchemaType.checkK_integer hk
    · exact hs.keyed d' n hn

theorem rearranged (hs : Sound schemas h) (hkey : (h.schema d).keyType schemas = some .integer)
    (f : Int → Option Int) (hsize : t.size = h.size) (hschema : ∀ x, t.schema x = h.schema x)
    (hparent : ∀ x, t.parent x = h.parent x)
    (hother : ∀ d', d' ≠ d → ∀ k, t.slot d' k = h.slot d' k)
    (hstring : ∀ s, t.slot d (.string s) = h.slot d (.string s))
    (hslot : ∀ m, t.slot d (.integer m) = (f m).bind fun j => h.slot d (.integer j))
    (hinj : ∀ m m' j, f m = some j → f m' = some j → m = m')
    (hcover : ∀ j, (h.slot d (.integer j)).isSome → ∃ m, f m = some j) : Sound schemas t := by
  have hback {d' c : Nat} {k : Key} (hk : t.slot d' k = some (.doc c)) :
      ∃ j, h.slot d' j = some (.doc c) ∧
        (h.schema d').index schemas k = (h.schema d').index schemas j := by
    by_cases hd : d' = d
    · subst hd
      cases k with
      | integer m =>
        rw [hslot, Option.bind_eq_some_iff] at hk
        obtain ⟨j, _, hk⟩ := hk
        exact ⟨_, hk, SchemaType.index_container hkey ..⟩
      | string s => exact ⟨_, (hstring s).symm.trans hk, rfl⟩
    · exact ⟨k, (hother d' hd k).symm.trans hk, rfl⟩
  constructor
  case forest =>
    refine hs.forest.rearranged (Key.source f) hparent hother ?_ ?_ ?_
    · intro k
      cases k with
      | integer m =>
        rw [hslot]
        cases hm : f m <;> simp [Key.source, hm]
      | string s => exact hstring s
    · intro k k' j hk hk'
      cases k with
      | integer m =>
        obtain ⟨a, ha, rfl⟩ := Option.map_eq_some_iff.mp hk
        cases k' with
        | integer m' =>
          obtain ⟨b, hb, he⟩ := Option.map_eq_some_iff.mp hk'
          cases he
          rw [hinj m m' a ha hb]
        | string s => cases hk'
      | string s =>
        cases hk
        cases k' with
        | integer m' =>
          obtain ⟨b, _, he⟩ := Option.map_eq_some_iff.mp hk'
          cases he
        | string s' =>
          cases hk'
          rfl
    · intro j hj
      cases j with
      | integer j =>
        obtain ⟨m, hm⟩ := hcover j hj
        exact ⟨.integer m, by simp [Key.source, hm]⟩
      | string s => exact ⟨.string s, rfl⟩
  case known =>
    intro d' k c hk
    obtain ⟨j, hj, _⟩ := hback hk
    exact hsize ▸ hs.known d' j c hj
  case unused =>
    intro d' hd' k
    rw [hsize] at hd'
    by_cases hd : d' = d
    · subst hd
      cases k with
      | integer m =>
        rw [hslot, Option.bind_eq_none_iff]
        exact fun j _ => hs.unused d' hd' _
      | string s => exact (hstring s).trans (hs.unused d' hd' _)
    · exact (hother d' hd k).trans (hs.unused d' hd' k)
  case typed =>
    intro d' k c hk
    obtain ⟨j, hj, hi⟩ := hback hk
    rw [hschema, hschema, hi]
    exact hs.typed d' j c hj
  case keyed =>
    intro d' m hm
    rw [hschema]
    by_cases hd : d' = d
    · exact hd ▸ hkey
    · rw [hother d' hd] at hm
      exact hs.keyed d' m hm

theorem ends (hs : Sound schemas h) (hd : d < h.size) : h.Ends d := by
  obtain ⟨l, hl⟩ := (hs.forest.rooted d).path
  exact ⟨l, hl, hl.length_le fun x hx => hs.above_lt hd (hl.mem_iff.mp hx)⟩

theorem markDirty (hs : Sound schemas h) (hd : d < h.size) {E : Heap → Prop} :
    wp (markDirty d) (fun _ t => h.Same t) E h := (hs.ends hd).markDirty

/-- Only roots are in no slot. -/
theorem free (hs : Sound schemas h) (hroot : h.parent c = none) (d : Nat) (k : Key) :
    h.slot d k ≠ some (.doc c) := by
  intro hslot
  cases hroot.symm.trans ((hs.forest.parent_iff c d).mpr ⟨k, hslot⟩)

/-- A root of the declared type is attached where it closes no cycle. -/
theorem attach (hs : Sound schemas h) (hd : d < h.size) (hc : c < h.size)
    (hroot : h.parent c = none) (habove : ¬ Above h.parent c d)
    (hk : (h.schema d).checkK schemas k = .ok ())
    (hi : (h.schema d).index schemas k = some (h.schema c)) (hn : (h.schema c).IsSchema)
    {E : Heap → Prop} :
    wp (attach schemas d k c)
      (fun _ t => h.Written t d k (some (.doc c)) ∧ Sound schemas t) E h := by
  refine wp_mono (wp_attach (hs.ends hd) habove (hs.free hroot d k) hk) (fun _ t ht => ?_)
    fun t ht => absurd (SchemaType.checkKv_doc hk hi hn) ht.2
  refine ⟨ht.2, hs.written hd hk ht.2 ?_⟩
  rintro _ ⟨⟩
  exact ⟨hc, hroot, habove, hi, hn⟩

theorem docChange (hs : Sound schemas h) (hd : d < h.size)
    (hv : ∀ c, v = some (.doc c) → c < h.size ∧ (h.parent c = none → ¬ Above h.parent c d ∧
      ∀ need, (h.schema d).index schemas k = some need → h.schema c = need ∧ need.IsSchema)) :
    wp (docChange schemas d k v)
      (fun _ t => ∃ k', (h.schema d).parseK schemas k = .ok k' ∧
        h.Written t d k' (stored (h.slot d k') v) ∧
        (∀ c, v = some (.doc c) → h.parent c = none) ∧ Sound schemas t)
      (fun t => t = h) h := by
  have hattach : ∀ c k', v = some (.doc c) → h.parent c = none →
      (h.schema d).parseK schemas k = .ok k' → ∃ need,
        (h.schema d).index schemas k' = some need ∧ h.schema c = need ∧ need.IsSchema := by
    intro c k' hc hroot hk
    obtain ⟨hcheck, hindex⟩ := SchemaType.parseK_spec hk
    obtain ⟨need, hi⟩ := SchemaType.index_of_checkK hcheck
    exact ⟨need, hi, ((hv c hc).2 hroot).2 need (hindex ▸ hi)⟩
  refine wp_mono (wp_docChange (hs.ends hd) fun c hc hroot =>
    ⟨((hv c hc).2 hroot).1, hs.free hroot d⟩) (fun _ t ht => ?_) fun t ht => ?_
  · obtain ⟨k', hk, hw, hroot, _⟩ := ht
    refine ⟨k', hk, hw, hroot, hs.written hd (SchemaType.parseK_spec hk).1 hw fun c hc => ?_⟩
    have hc := stored_doc.mp hc
    obtain ⟨need, hi, rfl, hn⟩ := hattach c k' hc (hroot c hc) hk
    exact ⟨(hv c hc).1, hroot c hc, ((hv c hc).2 (hroot c hc)).1, hi, hn⟩
  · rcases ht with ⟨_, rfl⟩ | ⟨k', hk, ⟨_, rfl⟩ | ⟨x, hx, hroot, _, hcheck, rfl⟩⟩
    · rfl
    · rfl
    · cases x with
      | scalar s => rfl
      | doc c =>
        obtain ⟨need, hi, rfl, hn⟩ := hattach c k' hx (hroot c rfl) hk
        exact absurd (SchemaType.checkKv_doc (SchemaType.parseK_spec hk).1 hi hn) hcheck

end Sound

/-- What building documents out of plain tables does to the documents there were: only roots among
`moved` may have got parents. -/
structure Heap.Grown (h t : Heap) (moved : List Nat) : Prop where
  size : h.size ≤ t.size
  schema : ∀ x, x < h.size → t.schema x = h.schema x
  slot : ∀ d, d < h.size → ∀ k, t.slot d k = h.slot d k
  parent : ∀ x, x < h.size → t.parent x = h.parent x ∨ h.parent x = none ∧ x ∈ moved

theorem Heap.Grown.refl (h : Heap) (moved : List Nat) : h.Grown h moved :=
  ⟨Nat.le_refl _, fun _ _ => rfl, fun _ _ _ => rfl, fun _ _ => .inl rfl⟩

theorem Heap.Grown.trans {moved moved' : List Nat} (h₁ : h.Grown t moved) (h₂ : t.Grown u moved')
    (hm : ∀ x ∈ moved', x < h.size → x ∈ moved) : h.Grown u moved := by
  constructor
  case size => exact Nat.le_trans h₁.size h₂.size
  case schema =>
    exact fun x hx => (h₂.schema x (Nat.lt_of_lt_of_le hx h₁.size)).trans (h₁.schema x hx)
  case slot =>
    exact fun d hd k => (h₂.slot d (Nat.lt_of_lt_of_le hd h₁.size) k).trans (h₁.slot d hd k)
  case parent =>
    intro x hx
    rcases h₂.parent x (Nat.lt_of_lt_of_le hx h₁.size) with hp | ⟨hp, hmem⟩
    · rw [hp]
      exact h₁.parent x hx
    · refine .inr ⟨?_, hm x hmem hx⟩
      rcases h₁.parent x hx with hp' | ⟨hp', _⟩
      · exact hp'.symm.trans hp
      · exact hp'

theorem Heap.Grown.written {moved : List Nat} (hb : Sound schemas h) (hg : h.Grown t moved)
    (hd : h.size ≤ d) (hw : t.Written u d k v) (hs : Sound schemas t)
    (hv : ∀ c, v = some (.doc c) → t.parent c = none ∧ (c < h.size → c ∈ moved)) :
    h.Grown u moved := by
  constructor
  case size => exact hw.size.symm ▸ hg.size
  case schema => exact fun x hx => (hw.schema x).trans (hg.schema x hx)
  case slot =>
    intro d' hd' k'
    rw [hw.slot, if_neg]
    · exact hg.slot d' hd' k'
    · rintro ⟨rfl, _⟩
      exact absurd hd' (Nat.not_lt.mpr hd)
  case parent =>
    intro x hx
    rw [hw.parent]
    split
    · next hvx =>
      obtain ⟨hroot, hmem⟩ := hv x hvx
      refine .inr ⟨?_, hmem hx⟩
      rcases hg.parent x hx with hp | ⟨hp, _⟩
      · exact hp.symm.trans hroot
      · exact hp
    · split
      · next hslot =>
        have hp : t.parent x = some d := (hs.forest.parent_iff x d).mpr ⟨k, hslot⟩
        rcases hg.parent x hx with hp' | ⟨hp', hmem⟩
        · have hlt := (hb.parent_lt (hp'.symm.trans hp)).1
          exact absurd hlt (Nat.not_lt.mpr hd)
        · exact .inl hp'.symm
      · exact hg.parent x hx

end Skyext.Orm
