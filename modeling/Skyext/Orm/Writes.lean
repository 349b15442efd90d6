import Skyext.Orm.System

namespace Skyext.Orm
set_option autoImplicit true

open Parents Prog

variable {schemas : Schemas} {h t u : Heap} {c d d' i n x : Nat} {k k' : Key} {v : Option Value}

/-- What is in a slot after a write: an equal value is not replaced. -/
def stored (old v : Option Value) : Option Value := if Value.equals v old then old else v

namespace Value

theorem equals_comm (v w : Option Value) : equals v w = equals w v := by
  rcases v with _ | (s | c) <;> rcases w with _ | (s' | c')
  case some.scalar.some.scalar => exact s.equals_comm s'
  all_goals simp only [equals, eq_comm]

theorem equals_doc {v : Option Value} : equals v (some (.doc c)) = true ↔ v = some (.doc c) := by
  rcases v with _ | (s | c') <;> simp only [equals, decide_eq_true_eq]

theorem equals_none {v : Option Value} : equals v none = true ↔ v = none := by
  rcases v with _ | (s | c) <;> simp only [equals, decide_eq_true_eq]

theorem equals_scalar {v : Option Value} (h : equals (some (.scalar s)) v = true) :
    ∃ s', v = some (.scalar s') ∧ s.equals s' = true := by
  rcases v with _ | (s' | c)
  · cases equals_none.mp h
  · exact ⟨s', rfl, h⟩
  · cases equals_doc.mp h

end Value

theorem stored_eq {old : Option Value} (he : Value.equals v old = true) : stored old v = old :=
  if_pos he

theorem stored_ne {old : Option Value} (he : ¬ Value.equals v old = true) : stored old v = v :=
  if_neg he

theorem stored_doc {old : Option Value} : stored old v = some (.doc c) ↔ v = some (.doc c) := by
  rw [stored]
  split
  · next he =>
    constructor
    · rintro rfl
      exact Value.equals_doc.mp he
    · rintro rfl
      rw [Value.equals_comm] at he
      exact Value.equals_doc.mp he
  · rfl

theorem stored_scalar {old : Option Value} (h : stored old v = some (.scalar s)) :
    old = some (.scalar s) ∨ v = some (.scalar s) := by
  rw [stored] at h
  split at h
  · exact .inl h
  · exact .inr h

theorem stored_isSome {old : Option Value} : (stored old v).isSome = v.isSome := by
  rw [stored]
  split
  · next he =>
    cases v with
    | none =>
      rw [Value.equals_comm] at he
      rw [Value.equals_none.mp he]
    | some x =>
      cases old with
      | none => cases Value.equals_none.mp he
      | some y => rfl
  · rfl

theorem stored_nil {old : Option Value} : stored old none = none := by
  rw [stored]
  split
  · next he =>
    rw [Value.equals_comm] at he
    exact Value.equals_none.mp he
  · rfl

theorem stored_empty (v : Option Value) : stored none v = v := by
  rw [stored]
  split
  · next he => exact (Value.equals_none.mp he).symm
  · rfl

/-- The chain of parents ends, and has no more documents than there are. -/
def Heap.Ends (h : Heap) (d : Nat) : Prop := ∃ l, Path h.parent d l ∧ l.length ≤ h.size

theorem Heap.Ends.root (hd : d < h.size) (hroot : h.parent d = none) : h.Ends d :=
  ⟨[d], .root hroot, Nat.lt_of_le_of_lt (Nat.zero_le _) hd⟩

theorem Heap.Ends.detach (he : h.Ends d) (hsize : h.size ≤ t.size)
    (hp : ∀ x, Above h.parent x d → t.parent x = h.parent x ∨ t.parent x = none) : t.Ends d := by
  obtain ⟨l, hl, hlen⟩ := he
  obtain ⟨l', hl', hlen'⟩ := hl.detach fun x hx => hp x (hl.mem_iff.mp hx)
  exact ⟨l', hl', hlen'.trans (hlen.trans hsize)⟩

/-- `mark_dirty` ends, and changes nothing but marks. -/
theorem Heap.Ends.markDirty (he : h.Ends d) {E : Heap → Prop} :
    wp (markDirty d) (fun _ t => h.Same t) E h := by
  obtain ⟨l, hl, hlen⟩ := he
  refine wp_ok (a := ()) ?_ (Heap.Same.foldl_touch h l)
  simp only [Orm.markDirty, Heap.markDirtyFrom_eq hl hlen, Option.map_some]

theorem wp_index (schemas : Schemas) (h : Heap) (d : Nat) (k : Key) :
    wp (index schemas d k)
      (fun lv t => t = h ∧ lv = h.slot d k ∧
        (h.slot d k = none → (h.schema d).checkK schemas k = .ok ()))
      (fun t => t = h ∧ (h.schema d).checkK schemas k ≠ .ok ()) h := by
  refine wp_bind (wp_get ?_)
  cases hk : h.slot d k with
  | some v => exact wp_pure _ ⟨rfl, rfl, by rintro ⟨⟩⟩
  | none =>
    refine wp_bind (wp_lift (fun a ha => wp_pure _ ⟨rfl, rfl, fun _ => ?_⟩) fun e he => ⟨rfl, ?_⟩)
    · rw [ha]
    · rw [he]
      rintro ⟨⟩

def Heap.typeOf (h : Heap) : Value → Scalar ⊕ SchemaType
  | .scalar s => .inl s
  | .doc c => .inr (h.schema c)

theorem wp_checkKv (schemas : Schemas) (h : Heap) (d : Nat) (k : Key) (v : Option Value) :
    wp (checkKv schemas d k v)
      (fun _ t => t = h ∧ ∀ x ∈ v, (h.schema d).checkKv schemas k (h.typeOf x) = .ok ())
      (fun t => t = h ∧ ∃ x ∈ v, (h.schema d).checkKv schemas k (h.typeOf x) ≠ .ok ()) h := by
  refine wp_bind (wp_get ?_)
  cases v with
  | none => exact wp_pure _ ⟨rfl, by rintro _ ⟨⟩⟩
  | some v =>
    have hlift : wp (Prog.lift ((h.schema d).checkKv schemas k (h.typeOf v)) : Run Unit)
        (fun _ t => t = h ∧ ∀ x ∈ some v, (h.schema d).checkKv schemas k (h.typeOf x) = .ok ())
        (fun t => t = h ∧
          ∃ x ∈ some v, (h.schema d).checkKv schemas k (h.typeOf x) ≠ .ok ()) h := by
      apply wp_lift
      · rintro _ hok
        refine ⟨rfl, ?_⟩
        rintro _ ⟨⟩
        exact hok
      · intro e he
        exact ⟨rfl, v, rfl, by rw [he]; rintro ⟨⟩⟩
    cases v with
    | scalar s => exact hlift
    | doc c => exact hlift

def Heap.put (h : Heap) (d : Nat) (k : Key) (v : Option Value) : Heap :=
  (h.release (h.slot d k)).move d k v

theorem Heap.Ends.put (he : h.Ends d) (k : Key) (v : Option Value) : (h.put d k v).Ends d := by
  refine he.detach (by simp [Heap.put]) fun x _ => ?_
  simp only [Heap.put, Heap.parent_move, Heap.parent_release]
  split
  · exact .inr rfl
  · exact .inl rfl

theorem Heap.written_put (hv : ∀ c, v ≠ some (.doc c)) : h.Written (h.put d k v) d k v := by
  constructor
  case size => simp [Heap.put]
  case schema => simp [Heap.put]
  case parent => simp [Heap.put, hv]
  case slot => simp [Heap.put]

theorem wp_docChangeValue (he : h.Ends d) (hk : (h.schema d).checkK schemas k = .ok ()) :
    wp (docChangeValue schemas d k v)
      (fun _ t => (∀ x ∈ v, (h.schema d).checkKv schemas k (h.typeOf x) = .ok ()) ∧
        (Value.equals v (h.slot d k) = true ∧ t = h ∨
          Value.equals v (h.slot d k) = false ∧ (h.put d k v).Same t))
      (fun t => t = h ∧ ∃ x ∈ v, (h.schema d).checkKv schemas k (h.typeOf x) ≠ .ok ()) h := by
  refine wp_seq (wp_checkKv schemas h d k v) (fun _ ht => ht) fun _ t ht => ?_
  obtain ⟨rfl, hcheck⟩ := ht
  refine wp_seq (wp_index schemas t d k) (fun u hu => absurd hk hu.2) fun lv u hu => ?_
  obtain ⟨rfl, rfl, _⟩ := hu
  split
  · next hv =>
    exact wp_bind (wp_modify _ (wp_mono (he.put k v).markDirty
      (fun _ t ht => ⟨hcheck, .inr ⟨Bool.not_eq_true _ ▸ hv, ht⟩⟩) fun _ he => he))
  · next hv => exact wp_pure _ ⟨hcheck, .inl ⟨not_not.mp hv, rfl⟩⟩

theorem Heap.Ends.attached (he : h.Ends d) (habove : ¬ Above h.parent c d) :
    (h.setParent c (some d)).Ends d := by
  refine he.detach (by simp) fun x hx => .inl ?_
  rw [Heap.parent_setParent, if_neg]
  rintro rfl
  exact habove hx

/-- The assignment of a document that is not above `d` ends. -/
theorem docChange_ends (he : h.Ends d) (hroot : h.parent c = none)
    (habove : ¬ Above h.parent c d) :
    wp (docChange schemas d k (some (.doc c))) (fun _ _ => True) (fun _ => True) h := by
  refine wp_bind (wp_get (wp_bind (wp_lift (fun k' hk => ?_) fun _ _ => trivial)))
  simp only [hroot, Option.isSome_none, Bool.false_eq_true, if_false]
  refine wp_bind (wp_modify _ (wp_seq (wp_docChangeValue (he.attached habove) ?_)
    (fun _ _ => trivial) fun _ _ _ => wp_modify _ trivial))
  rw [Heap.schema_setParent]
  exact (SchemaType.parseK_spec hk).1

/-- A root that is not above `d` is attached, unless it is of another type: then only its parent
has been set. -/
theorem wp_attach (he : h.Ends d) (habove : ¬ Above h.parent c d)
    (hfree : h.slot d k ≠ some (.doc c)) (hk : (h.schema d).checkK schemas k = .ok ()) :
    wp (attach schemas d k c)
      (fun _ t => (h.schema d).checkKv schemas k (.inr (h.schema c)) = .ok () ∧
        h.Written t d k (some (.doc c)))
      (fun t => t = h.setParent c (some d) ∧
        (h.schema d).checkKv schemas k (.inr (h.schema c)) ≠ .ok ()) h := by
  have he' := he.attached habove
  have hput : h.Written ((h.setParent c (some d)).put d k (some (.doc c))) d k
      (some (.doc c)) := by
    constructor
    case size => simp [Heap.put]
    case schema => simp [Heap.put]
    case parent =>
      intro x
      simp only [Heap.put, Heap.parent_move, Heap.parent_release, Heap.slot_setParent,
        Heap.parent_setParent, Option.some.injEq, Value.doc.injEq]
      by_cases hx : c = x
      · subst hx
        simp [hfree]
      · simp [hx, Ne.symm hx]
    case slot => simp [Heap.put]
  have htype : (h.setParent c (some d)).typeOf (.doc c) = .inr (h.schema c) := by
    simp [Heap.typeOf]
  refine wp_bind (wp_modify _ ?_)
  refine wp_seq (wp_docChangeValue he' ?_) (fun t ht => ?_) fun _ t ht => wp_modify _ ?_
  · rwa [Heap.schema_setParent]
  · obtain ⟨rfl, x, hx, hcheck⟩ := ht
    cases hx
    rw [htype, Heap.schema_setParent] at hcheck
    exact ⟨rfl, hcheck⟩
  · obtain ⟨hcheck, ht⟩ := ht
    have hcheck := hcheck _ rfl
    rw [htype, Heap.schema_setParent] at hcheck
    rcases ht with ⟨hslot, _⟩ | ⟨_, ht⟩
    · rw [Heap.slot_setParent, Value.equals_comm] at hslot
      exact absurd (Value.equals_doc.mp hslot) hfree
    · exact ⟨hcheck, hput.trans
        (ht.trans (.modify t c (f := fun doc => { doc with allDirty := true })
        (fun _ => rfl) (fun _ => rfl) fun _ => rfl))⟩

/-- What `doc_change` leaves of a write that it refuses. -/
def Heap.Refused (schemas : Schemas) (h t : Heap) (d : Nat) (k : Key) (v : Option Value) : Prop :=
  (∃ e, (h.schema d).parseK schemas k = .error e) ∧ t = h ∨
    ∃ k', (h.schema d).parseK schemas k = .ok k' ∧
      ((∃ c, v = some (.doc c) ∧ (h.parent c).isSome) ∧ t = h ∨
        ∃ x ∈ v, (∀ c, x = .doc c → h.parent c = none) ∧
          Value.equals (some x) (h.slot d k') = false ∧
          (h.schema d).checkKv schemas k' (h.typeOf x) ≠ .ok () ∧ t = h.restore d x)

/-- What an assignment of anything but a plain table does where the chain of parents ends and no
cycle is closed. -/
theorem wp_docChange (he : h.Ends d) (hv : ∀ c, v = some (.doc c) → h.parent c = none →
      ¬ Above h.parent c d ∧ ∀ k, h.slot d k ≠ some (.doc c)) :
    wp (docChange schemas d k v)
      (fun _ t => ∃ k', (h.schema d).parseK schemas k = .ok k' ∧
        h.Written t d k' (stored (h.slot d k') v) ∧ (∀ c, v = some (.doc c) → h.parent c = none) ∧
        ∀ x ∈ v, Value.equals (some x) (h.slot d k') = true ∨
          (h.schema d).checkKv schemas k' (h.typeOf x) = .ok ())
      (fun t => h.Refused schemas t d k v) h := by
  refine wp_bind (wp_get (wp_bind (wp_lift (fun k' hk => ?_) fun e hk => .inl ⟨⟨e, hk⟩, rfl⟩)))
  obtain ⟨hcheck, _⟩ := SchemaType.parseK_spec hk
  have hplain (hnd : ∀ c, v ≠ some (.doc c)) :
      wp (do
        let lv ← index schemas d k'
        if ¬ Value.equals lv v then docChangeValue schemas d k' v)
        (fun _ t => ∃ k', (h.schema d).parseK schemas k = .ok k' ∧
          h.Written t d k' (stored (h.slot d k') v) ∧
          (∀ c, v = some (.doc c) → h.parent c = none) ∧
          ∀ x ∈ v, Value.equals (some x) (h.slot d k') = true ∨
            (h.schema d).checkKv schemas k' (h.typeOf x) = .ok ())
        (fun t => h.Refused schemas t d k v) h := by
    refine wp_seq (wp_index schemas h d k') (fun _ ht => absurd hcheck ht.2) fun lv t ht => ?_
    obtain ⟨rfl, rfl, _⟩ := ht
    rw [Value.equals_comm]
    split
    · next hne =>
      refine wp_mono (wp_docChangeValue he hcheck) (fun _ u hu => ?_) fun u hu => ?_
      · obtain ⟨hval, hu⟩ := hu
        rcases hu with ⟨heq, _⟩ | ⟨_, hu⟩
        · exact absurd heq hne
        · exact ⟨k', hk, (stored_ne hne).symm ▸ (Heap.written_put hnd).trans hu,
            fun c hc => absurd hc (hnd c), fun x hx => .inr (hval x hx)⟩
      · obtain ⟨rfl, x, hx, hval⟩ := hu
        refine .inr ⟨k', hk, .inr ⟨x, hx, fun c hc => absurd (hc ▸ hx) (hnd c), ?_, hval, ?_⟩⟩
        · cases hx
          exact Bool.not_eq_true _ ▸ hne
        · cases x with
          | scalar s => rfl
          | doc c => exact absurd hx (hnd c)
    · next heq =>
      have heq := not_not.mp heq
      refine wp_pure _ ⟨k', hk, ?_, fun c hc => absurd hc (hnd c), fun x hx => .inl ?_⟩
      · rw [stored_eq heq]
        constructor
        case size => rfl
        case schema => exact fun _ => rfl
        case parent =>
          intro x
          have hslot : t.slot d k' ≠ some (.doc x) := by
            intro hslot
            rw [hslot] at heq
            exact hnd x (Value.equals_doc.mp heq)
          rw [if_neg hslot, if_neg hslot]
        case slot =>
          intro d' k''
          split
          · next hdk => rw [hdk.1, hdk.2]
          · rfl
      · cases hx
        exact heq
  cases v with
  | none => exact hplain (by rintro _ ⟨⟩)
  | some v =>
    cases v with
    | scalar s => exact hplain (by rintro _ ⟨⟩)
    | doc c =>
      cases hroot : h.parent c with
      | some p =>
        simp only [hroot, Option.isSome_some, if_true]
        exact wp_throw _ (.inr ⟨k', hk, .inl ⟨⟨c, rfl, by rw [hroot]; rfl⟩, rfl⟩⟩)
      | none =>
        simp only [hroot, Option.isSome_none, Bool.false_eq_true, if_false]
        obtain ⟨habove, hfree⟩ := hv c rfl hroot
        refine wp_mono (wp_attach he habove (hfree k') hcheck) (fun _ t ht => ?_)
          fun t ht => ?_
        · refine ⟨k', hk, ?_, ?_, ?_⟩
          · rw [stored_doc.mpr rfl]
            exact ht.2
          · rintro _ ⟨⟩
            exact hroot
          · rintro _ ⟨⟩
            exact .inr ht.1
        · refine .inr ⟨k', hk, .inr ⟨.doc c, rfl, ?_, ?_, ht.2, ht.1⟩⟩
          · rintro _ ⟨⟩
            exact hroot
          · rw [Bool.eq_false_iff, ne_eq, Value.equals_comm, Value.equals_doc]
            exact hfree k'

end Skyext.Orm
