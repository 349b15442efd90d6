import Skyext.Orm.Rejected
import Skyext.Orm.Reload

namespace Skyext.Orm
set_option autoImplicit true

open Prog

variable {schemas : Schemas} {h t u : Heap} {c d : Nat} {k : Key} {schema need : SchemaType}

namespace Heap

/-- The same documents with the same schema tables. -/
structure Like (h t : Heap) : Prop where
  size : t.size = h.size
  schema : ∀ x, t.schema x = h.schema x

theorem Like.refl (h : Heap) : h.Like h := ⟨rfl, fun _ => rfl⟩

theorem Like.trans (h₁ : h.Like t) (h₂ : t.Like u) : h.Like u :=
  ⟨h₂.size.trans h₁.size, fun x => (h₂.schema x).trans (h₁.schema x)⟩

theorem Same.like (hs : h.Same t) : h.Like t := ⟨hs.size, hs.schema⟩

theorem like_release (h : Heap) (v : Option Value) : h.Like (h.release v) := by
  rcases v with _ | (s | c)
  · exact .refl h
  · exact .refl h
  · exact ⟨by simp [release], by simp [release]⟩

theorem like_move (h : Heap) (d : Nat) (k : Key) (v : Option Value) : h.Like (h.move d k v) :=
  ⟨by simp, by simp⟩

theorem like_restore (h : Heap) (d : Nat) (v : Value) : h.Like (h.restore d v) := by
  cases v with
  | scalar s => exact .refl h
  | doc c => exact ⟨by simp [restore], by simp [restore]⟩

theorem like_shiftUp (h : Heap) (d i n : Nat) : h.Like (h.shiftUp d i n) := by
  induction n generalizing h with
  | zero => exact .refl h
  | succ n ih => exact (like_move h _ _ _).trans (ih _)

theorem like_shiftDown (h : Heap) (d i n : Nat) : h.Like (h.shiftDown d i n) := by
  induction n generalizing h i with
  | zero => exact .refl h
  | succ n ih => exact (like_move h _ _ _).trans (ih _ _)

theorem like_markDirtyFrom (n : Nat) (o : Option Nat) (hm : h.markDirtyFrom n o = some t) :
    h.Like t := by
  induction n generalizing h o with
  | zero =>
    cases o with
    | none =>
      cases hm
      exact .refl _
    | some d => cases hm
  | succ n ih =>
    cases o with
    | none =>
      cases hm
      exact .refl _
    | some d => exact (Same.touch h d).like.trans (ih _ hm)

/-- The old documents keep their schema tables, those of the new ones are as `P` says. -/
structure Kinds (P : SchemaType → Prop) (h t : Heap) : Prop where
  size : h.size ≤ t.size
  old : ∀ x < h.size, t.schema x = h.schema x
  new : ∀ x, h.size ≤ x → x < t.size → P (t.schema x)

end Heap

/-! What an operation keeps of the schema tables of the documents. -/

section Kinds

variable {P : SchemaType → Prop} {I : Heap → Prop}

theorem keeps_index (d : Nat) (k : Key) : Keeps I (index schemas d k) := by
  apply keeps_get_bind
  intro h _
  cases h.slot d k with
  | some v => exact keeps_pure _
  | none => exact keeps_bind (keeps_lift _) fun _ => keeps_pure _

theorem keeps_checkKv (d : Nat) (k : Key) (v : Option Value) :
    Keeps I (checkKv schemas d k v) := by
  apply keeps_get_bind
  intro h _
  rcases v with _ | (s | c)
  · exact keeps_pure _
  · exact keeps_lift _
  · exact keeps_lift _

theorem keeps_newDocBy {fill : Nat → SchemaType → Run Unit} {need : Option SchemaType}
    (halloc : ∀ schema, P schema → Keeps I (alloc schema)) (hneed : ∀ schema ∈ need, P schema)
    (hfill : ∀ c schema, P schema → Keeps I (fill c schema)) : Keeps I (newDocBy need fill) := by
  cases need with
  | none => exact keeps_throw _
  | some schema =>
    have hp := hneed schema rfl
    exact keeps_bind (halloc schema hp) fun c => keeps_bind (hfill c schema hp) fun _ =>
      keeps_pure _

variable (hlike : ∀ h t : Heap, I h → h.Like t → I t)

include hlike

theorem keeps_markDirty (d : Nat) : Keeps I (markDirty d) := by
  intro h r t hs hr
  obtain ⟨u, hu, he⟩ := Option.map_eq_some_iff.mp hr
  cases he
  exact hlike h _ hs (Heap.like_markDirtyFrom _ _ hu)

theorem keeps_docChangeValue (d : Nat) (k : Key) (v : Option Value) :
    Keeps I (docChangeValue schemas d k v) := by
  refine keeps_bind (keeps_checkKv d k v) fun _ => ?_
  refine keeps_bind (keeps_index d k) fun lv => ?_
  apply keeps_ite
  · refine keeps_bind (keeps_modify fun h hs => ?_) fun _ => keeps_markDirty hlike d
    exact hlike h _ hs ((Heap.like_release h lv).trans (Heap.like_move _ d k v))
  · exact keeps_pure _

theorem keeps_attach (d : Nat) (k : Key) (c : Nat) : Keeps I (attach schemas d k c) := by
  refine keeps_bind (keeps_modify fun h hs => ?_) fun _ =>
    keeps_bind (keeps_docChangeValue hlike d k _) fun _ => keeps_modify fun h hs => ?_
  · exact hlike h _ hs ⟨by simp, by simp⟩
  · exact hlike h _ hs (Heap.Same.modify h c (f := fun doc => { doc with allDirty := true })
      (fun _ => rfl) (fun _ => rfl) fun _ => rfl).like

theorem keeps_docChange (d : Nat) (k : Key) (v : Option Value) :
    Keeps I (docChange schemas d k v) := by
  apply keeps_get_bind
  intro h _
  refine keeps_bind (keeps_lift _) fun k' => ?_
  have hplain : Keeps I (do
      let lv ← index schemas d k'
      if ¬ Value.equals lv v then docChangeValue schemas d k' v) :=
    keeps_bind (keeps_index d k') fun lv =>
      keeps_ite (keeps_docChangeValue hlike d k' v) (keeps_pure _)
  rcases v with _ | (s | c)
  · exact hplain
  · exact hplain
  · exact keeps_ite (keeps_throw _) (keeps_attach hlike d k' c)

omit hlike

/-- The types are closed under what they declare, and documents of them may be made. -/
structure Closed (schemas : Schemas) (P : SchemaType → Prop) (I : Heap → Prop) : Prop where
  like : ∀ h t : Heap, I h → h.Like t → I t
  alloc : ∀ schema, P schema → Keeps I (Orm.alloc schema)
  index : ∀ schema k need, P schema → schema.index schemas k = some need → P need

mutual

theorem Closed.keeps_fill (hi : Closed schemas P I) {clone : Nat → Run Nat} (d : Nat)
    {schema : SchemaType} (hp : P schema) :
    (entries : List (Key × Arg)) → (∀ c ∈ docsOf entries, Keeps I (clone c)) →
      Keeps I (fill schemas clone d schema entries)
  | [], _ => by
    unfold fill
    exact keeps_pure _
  | (k, v) :: entries, hclone => by
    unfold fill
    unfold docsOf at hclone
    refine keeps_bind (hi.keeps_toValue (fun need hn => hi.index schema k need hp hn) v fun c hc =>
      hclone c (List.mem_append_left _ hc)) fun v => ?_
    refine keeps_bind (keeps_docChange hi.like d k _) fun _ => ?_
    exact hi.keeps_fill d hp entries fun c hc => hclone c (List.mem_append_right _ hc)

theorem Closed.keeps_toValue (hi : Closed schemas P I) {clone : Nat → Run Nat}
    {need : Option SchemaType}
    (hneed : ∀ schema, need = some schema → P schema) :
    (a : Arg) → (∀ c ∈ a.docs, Keeps I (clone c)) → Keeps I (toValue schemas clone need a)
  | .scalar s, _ => by
    unfold toValue
    exact keeps_pure _
  | .doc c, hclone => by
    unfold toValue
    unfold Arg.docs at hclone
    apply keeps_get_bind
    intro h _
    exact keeps_ite (keeps_bind (hclone c List.mem_cons_self) fun _ => keeps_pure _) (keeps_pure _)
  | .table entries, hclone => by
    unfold toValue
    unfold Arg.docs at hclone
    refine keeps_bind (keeps_newDocBy hi.alloc hneed fun c schema hp => ?_) fun _ =>
      keeps_pure _
    exact hi.keeps_fill c hp entries hclone

end

theorem Closed.keeps_cloneDoc (hi : Closed schemas P I) (hc : ∀ h, I h → P (h.schema c)) :
    Keeps I (cloneDoc schemas c) := by
  apply keeps_get_bind
  intro h hs
  refine keeps_lift_bind fun init htable => ?_
  have hdocs := docsOf_toTable htable
  refine keeps_newDocBy hi.alloc (fun schema (hm : schema ∈ some (h.schema c)) => ?_) fun c'
    schema hp => ?_
  · cases hm
    exact hc h hs
  · refine hi.keeps_fill c' hp init fun x hx => ?_
    rw [hdocs] at hx
    cases hx

theorem Closed.keeps_newDoc (hi : Closed schemas P I) {need : Option SchemaType}
    (hneed : ∀ schema ∈ need, P schema) {init : List (Key × Arg)}
    (hdocs : ∀ c ∈ docsOf init, ∀ h, I h → P (h.schema c)) : Keeps I (newDoc schemas need init) :=
  keeps_newDocBy hi.alloc hneed fun c _ hp => hi.keeps_fill c hp init fun c hc =>
    hi.keeps_cloneDoc (hdocs c hc)

theorem Closed.keeps_assign (hi : Closed schemas P I) (hd : ∀ h, I h → P (h.schema d)) (k : Key)
    (v : Option Arg) (hv : ∀ a ∈ v, ∀ c ∈ a.docs, ∀ h, I h → P (h.schema c)) :
    Keeps I (assign schemas d k v) := by
  rcases v with _ | (s | c | entries)
  · exact keeps_docChange hi.like d k none
  · exact keeps_docChange hi.like d k (some (.scalar s))
  · exact keeps_docChange hi.like d k (some (.doc c))
  · apply keeps_get_bind
    intro h hs
    refine keeps_bind (keeps_lift _) fun k' => ?_
    refine keeps_bind (hi.keeps_newDoc (fun need hn => hi.index _ k' need (hd h hs) hn)
      (hv _ rfl)) fun c => ?_
    exact keeps_attach hi.like d k' c

theorem Closed.keeps_insertAt (hi : Closed schemas P I) (hd : ∀ h, I h → P (h.schema d))
    (len i : Nat) (v : Option Arg) (hv : ∀ a ∈ v, ∀ c ∈ a.docs, ∀ h, I h → P (h.schema c)) :
    Keeps I (insertAt schemas d len i v) := by
  refine keeps_bind (keeps_index d _) fun displaced => ?_
  apply keeps_get_bind
  intro before _
  refine keeps_bind (hi.keeps_assign hd _ v hv) fun _ => ?_
  refine keeps_bind (keeps_modify fun h hs => hi.like h _ hs (Heap.like_shiftUp h d i _))
    fun _ => ?_
  have hend : Keeps I (do
      let h ← get
      if (h.docs d).revision = (before.docs d).revision then markDirty d) := by
    apply keeps_get_bind
    intro h _
    exact keeps_ite (keeps_markDirty hi.like d) (keeps_pure _)
  cases displaced with
  | none => exact hend
  | some value =>
    refine keeps_bind (keeps_modify fun h hs => hi.like h _ hs ?_) fun _ => hend
    exact (Heap.like_move h d _ _).trans (Heap.like_restore _ d value)

/-- No operation on documents of the types changes the table of a document. -/
theorem Closed.keeps_run (hi : Closed schemas P I) (a : Action)
    (hdocs : ∀ c ∈ a.docs, ∀ h, I h → P (h.schema c))
    (hnew : ∀ schema init, a = .new schema init → P schema) : Keeps I (run schemas a) := by
  cases a with
  | new schema init =>
    refine keeps_bind (keeps_bind (hi.keeps_newDoc ?_ hdocs) fun d =>
      keeps_bind (keeps_modify fun h hs => ?_) fun _ => keeps_pure _) fun _ => keeps_pure _
    · rintro _ ⟨⟩
      exact hnew schema init rfl
    · exact hi.like h _ hs (Heap.Same.clearDirtyFrom _ h d).like
  | assign d k v =>
    refine hi.keeps_assign (hdocs d List.mem_cons_self) k v fun a ha c hc => ?_
    cases ha
    exact hdocs c (List.mem_cons_of_mem _ hc)
  | insert d len index v =>
    have hd := hdocs d List.mem_cons_self
    have hindex : ∀ a ∈ index, ∀ c ∈ a.docs, ∀ h, I h → P (h.schema c) := by
      rintro a ⟨⟩ c hc
      exact hdocs c (List.mem_cons_of_mem _ (List.mem_append_left _ hc))
    cases v with
    | none => exact hi.keeps_insertAt hd len _ index hindex
    | some v =>
      refine keeps_bind (keeps_lift _) fun i => hi.keeps_insertAt hd len i _ ?_
      rintro a ⟨⟩ c hc
      exact hdocs c (List.mem_cons_of_mem _ (List.mem_append_right _ hc))
  | remove d len index =>
    refine keeps_bind (keeps_bind (keeps_lift _) fun i => ?_) fun _ => keeps_pure _
    refine keeps_ite (keeps_pure _) ?_
    refine keeps_bind (keeps_index d _) fun v => ?_
    refine keeps_bind (keeps_docChange hi.like d _ none) fun _ => ?_
    refine keeps_bind (keeps_modify fun h hs => hi.like h _ hs ?_) fun _ => keeps_pure _
    exact (Heap.like_shiftDown h d i _).trans (Heap.like_move _ d _ none)
  | clone d => exact keeps_bind (hi.keeps_cloneDoc (hdocs d List.mem_cons_self)) fun _ =>
      keeps_pure _

end Kinds

theorem kinds_step {P : SchemaType → Prop} {a : Action}
    (hindex : ∀ schema k need, P schema → schema.index schemas k = some need → P need)
    (hdocs : ∀ c ∈ a.docs, c < h.size ∧ P (h.schema c))
    (hnew : ∀ schema init, a = .new schema init → P schema)
    (hs : Orm.step schemas h a = some t) : h.Kinds P t := by
  have hi : Closed schemas P (h.Kinds P) := by
    constructor
    case like =>
      intro u v hu hv
      refine ⟨hv.size ▸ hu.size, fun x hx => (hv.schema x).trans (hu.old x hx), fun x hx hlt => ?_⟩
      rw [hv.schema]
      exact hu.new x hx (hv.size ▸ hlt)
    case alloc =>
      intro schema hp u r v hu hr
      cases hr
      refine ⟨Nat.le_succ_of_le hu.size, fun x hx => ?_, fun x hx hlt => ?_⟩
      · have hne : x ≠ u.size := Nat.ne_of_lt (Nat.lt_of_lt_of_le hx hu.size)
        simpa [Heap.schema, hne] using hu.old x hx
      · by_cases he : x = u.size
        · simpa [Heap.schema, he] using hp
        · have hlt' : x < u.size := Nat.lt_of_le_of_ne (Nat.le_of_lt_succ hlt) he
          simpa [Heap.schema, he] using hu.new x hx hlt'
    case index => exact hindex
  rw [Orm.step] at hs
  split at hs
  · obtain ⟨⟨r, u⟩, hr, rfl⟩ := Option.map_eq_some_iff.mp hs
    refine hi.keeps_run a (fun c hc u hu => ?_) hnew h r u ⟨Nat.le_refl _, fun _ _ => rfl, ?_⟩ hr
    · rw [hu.old c (hdocs c hc).1]
      exact (hdocs c hc).2
    · intro x hx hlt
      exact absurd hlt (Nat.not_lt.mpr hx)
  · cases hs

end Skyext.Orm
