import Skyext.Orm.Sound

namespace Skyext.Orm
set_option autoImplicit true

open Prog

variable {schemas : Schemas} {h h' t u : Heap} {c d x : Nat} {k : Key} {schema : SchemaType}

mutual

/-- The slots that the entries of a plain table leave when they are assigned one after the other. -/
def Fills (schemas : Schemas) (copied : Nat → Nat → Prop) (h t : Heap) (schema : SchemaType) :
    List (Key × Arg) → (Key → Option Value) → (Key → Option Value) → Prop
  | [], before, slots => slots = before
  | (k, v) :: entries, before, slots => ∃ k' x, schema.parseK schemas k = .ok k' ∧
      v.Becomes schemas copied h t (schema.index schemas k) x ∧
        Fills schemas copied h t schema entries
          (Function.update before k' (stored (before k') (some x))) slots

/-- What is made of a value while `h` becomes `t`. A root may stay itself, other documents are
copied, and a table is a new document that its entries have filled. -/
def Arg.Becomes (schemas : Schemas) (copied : Nat → Nat → Prop) (h t : Heap)
    (need : Option SchemaType) : Arg → Value → Prop
  | .scalar s, x => x = .scalar s
  | .doc c, x => x = .doc c ∧ h.parent c = none ∨ ∃ c', x = .doc c' ∧ copied c c'
  | .table entries, x => ∃ c, x = .doc c ∧ h.size ≤ c ∧ c < t.size ∧ need = some (t.schema c) ∧
      Fills schemas copied h t (t.schema c) entries (fun _ => none) (t.slot c)

end

/-- A document made of what `doc_totable` gave for another one, at a time when the documents there
were had their slots still. -/
def Heap.Copied (schemas : Schemas) (h t : Heap) (c c' : Nat) : Prop :=
  ∃ (u : Heap) (init : List (Key × Arg)),
    (∀ x < h.size, u.schema x = h.schema x ∧ u.slot x = h.slot x) ∧ u.toTable c = .ok init ∧
      (Arg.table init).Becomes schemas (fun _ _ => False) h t (some (h.schema c)) (.doc c')

/-- The documents of a kind are as they were. -/
structure Heap.Steady (P : Nat → Prop) (t u : Heap) : Prop where
  size : t.size ≤ u.size
  same : ∀ x, P x → x < t.size → u.schema x = t.schema x ∧ u.slot x = t.slot x

/-- A relation between documents and their copies that does not depend on what else is made. -/
def Lasting (copied : Heap → Heap → Nat → Nat → Prop) : Prop :=
  ∀ ⦃h' h t u : Heap⦄ ⦃moved : List Nat⦄ ⦃c c' : Nat⦄, h'.Grown h moved →
    Heap.Steady (h.size ≤ ·) t u → c < h'.size → copied h t c c' → copied h' u c c'

theorem Heap.Grown.root {moved : List Nat} (hg : h'.Grown h moved) (hx : x < h'.size)
    (hroot : h.parent x = none) : h'.parent x = none := by
  rcases hg.parent x hx with hp | ⟨hp, _⟩
  · exact hp.symm.trans hroot
  · exact hp

namespace Heap

variable {P P' : Nat → Prop} {v : Option Value}

theorem Steady.trans (h₁ : Steady P h t) (h₂ : Steady P t u) : Steady P h u := by
  refine ⟨h₁.size.trans h₂.size, fun x hp hx => ?_⟩
  obtain ⟨hschema, hslot⟩ := h₁.same x hp hx
  obtain ⟨hschema', hslot'⟩ := h₂.same x hp (Nat.lt_of_lt_of_le hx h₁.size)
  exact ⟨hschema'.trans hschema, hslot'.trans hslot⟩

theorem Steady.mono (hs : Steady P t u) (hp : ∀ x, P' x → P x) : Steady P' t u :=
  ⟨hs.size, fun x hx => hs.same x (hp x hx)⟩

theorem Grown.steady {moved : List Nat} (hg : h.Grown t moved) (P : Nat → Prop) : Steady P h t :=
  ⟨hg.size, fun x _ hx => ⟨hg.schema x hx, funext (hg.slot x hx)⟩⟩

theorem Written.steady (hw : h.Written t d k v) : Steady (· ≠ d) h t :=
  ⟨Nat.le_of_eq hw.size.symm, fun x hx _ => ⟨hw.schema x, funext fun k' => by
    rw [hw.slot, if_neg fun he => hx he.1]⟩⟩

theorem Same.steady (hs : h.Same t) (P : Nat → Prop) : Steady P h t :=
  ⟨Nat.le_of_eq hs.size.symm, fun x _ _ => ⟨hs.schema x, funext (hs.slot x)⟩⟩

theorem Written.slots (hw : h.Written t d k v) : t.slot d = Function.update (h.slot d) k v := by
  funext k'
  rw [hw.slot, Function.update_apply]
  simp only [true_and]

end Heap

mutual

theorem Fills.mono {copied copied' : Nat → Nat → Prop} {moved : List Nat}
    (hg : h'.Grown h moved) (hs : Heap.Steady (h.size ≤ ·) t u)
    (hcopied : ∀ c c', c < h'.size → copied c c' → copied' c c') {schema : SchemaType} :
    (entries : List (Key × Arg)) → (∀ c ∈ docsOf entries, c < h'.size) → ∀ before slots,
      Fills schemas copied h t schema entries before slots →
        Fills schemas copied' h' u schema entries before slots
  | [], _, _, _, hf => by
    unfold Fills at hf ⊢
    exact hf
  | (k, v) :: entries, hc, before, slots, hf => by
    unfold Fills at hf ⊢
    unfold docsOf at hc
    obtain ⟨k', x, hk, hv, hf⟩ := hf
    exact ⟨k', x, hk,
      v.becomes_mono hg hs hcopied (fun c hm => hc c (List.mem_append_left _ hm)) hv,
      Fills.mono hg hs hcopied entries (fun c hm => hc c (List.mem_append_right _ hm)) _ _ hf⟩

/-- What has been made stays so, and was made by earlier starts as well. -/
theorem Arg.becomes_mono {copied copied' : Nat → Nat → Prop} {moved : List Nat}
    (hg : h'.Grown h moved) (hs : Heap.Steady (h.size ≤ ·) t u)
    (hcopied : ∀ c c', c < h'.size → copied c c' → copied' c c') {need : Option SchemaType}
    {x : Value} :
    (a : Arg) → (∀ c ∈ a.docs, c < h'.size) → a.Becomes schemas copied h t need x →
      a.Becomes schemas copied' h' u need x
  | .scalar s, _, hb => by
    unfold Arg.Becomes at hb ⊢
    exact hb
  | .doc c, hc, hb => by
    unfold Arg.Becomes at hb ⊢
    unfold Arg.docs at hc
    have hlt := hc c List.mem_cons_self
    rcases hb with ⟨hx, hroot⟩ | ⟨c', hx, hcc⟩
    · exact .inl ⟨hx, hg.root hlt hroot⟩
    · exact .inr ⟨c', hx, hcopied c c' hlt hcc⟩
  | .table entries, hc, hb => by
    unfold Arg.Becomes at hb ⊢
    unfold Arg.docs at hc
    obtain ⟨c, hx, hnew, hlt, hneed, hf⟩ := hb
    obtain ⟨hschema, hslot⟩ := hs.same c hnew hlt
    refine ⟨c, hx, hg.size.trans hnew, Nat.lt_of_lt_of_le hlt hs.size, ?_, ?_⟩
    · rw [hschema]
      exact hneed
    · rw [hschema, hslot]
      exact Fills.mono hg hs hcopied entries hc _ _ hf

end

theorem docsOf_toTableFrom (n : Nat) {d : Nat} {lookup : List Nat}
    {copied : List (Key × Arg) × List Nat} (hc : Heap.toTableFrom n h d lookup = .ok copied) :
    docsOf copied.1 = [] := by
  induction n generalizing d lookup copied with
  | zero => cases hc
  | succ n ih =>
    simp only [Heap.toTableFrom] at hc
    split at hc
    · cases hc
    · refine foldlM_invariant (P := fun copied => docsOf copied.1 = [])
        (fun e _ b b' hb hstep => ?_)
        rfl hc
      obtain ⟨k, v⟩ := e
      cases v with
      | scalar s =>
        cases hstep
        rw [docsOf_snoc, hb]
        rfl
      | doc c =>
        cases hsub : Heap.toTableFrom n h c b.2 with
        | error e =>
          simp only [hsub] at hstep
          cases hstep
        | ok sub =>
          simp only [hsub] at hstep
          cases hstep
          rw [docsOf_snoc, hb]
          exact ih hsub

theorem docsOf_toTable {init : List (Key × Arg)} (hc : h.toTable d = .ok init) :
    docsOf init = [] := by
  cases hcopied : Heap.toTableFrom h.size h d [] with
  | error e =>
    simp only [Heap.toTable, hcopied] at hc
    cases hc
  | ok copied =>
    simp only [Heap.toTable, hcopied] at hc
    cases hc
    exact docsOf_toTableFrom _ hcopied

theorem Lasting.copied (schemas : Schemas) : Lasting (Heap.Copied schemas) := by
  intro h' h t u moved c c' hg hs hlt hc
  obtain ⟨w, init, hw, hinit, hb⟩ := hc
  refine ⟨w, init, fun x hx => ?_, hinit, ?_⟩
  · obtain ⟨hschema, hslot⟩ := hw x (Nat.lt_of_lt_of_le hx hg.size)
    exact ⟨hschema.trans (hg.schema x hx), hslot.trans (funext fun k => hg.slot x hx k)⟩
  · rw [← hg.schema c hlt]
    refine Arg.becomes_mono hg hs (fun _ _ _ hc => hc) _ (fun c hm => ?_) hb
    unfold Arg.docs at hm
    rw [docsOf_toTable hinit] at hm
    cases hm

theorem Lasting.never : Lasting fun _ _ _ _ => False :=
  fun _ _ _ _ _ _ _ _ _ _ hc => hc

/-- What is made stays so while documents there were are written to. -/
theorem Arg.Becomes.later {a : Arg} {need : Option SchemaType} {x : Value}
    (hb : a.Becomes schemas (h.Copied schemas t) h t need x) (hs : Heap.Steady (h.size ≤ ·) t u)
    (hdocs : ∀ c ∈ a.docs, c < h.size) : a.Becomes schemas (h.Copied schemas u) h u need x :=
  a.becomes_mono (.refl h []) hs
    (fun _ _ hlt hc => Lasting.copied schemas (.refl h []) hs hlt hc) hdocs hb

end Skyext.Orm
