import Skyext.Orm.Refines

namespace Skyext.Orm
set_option autoImplicit true

open Parents Prog

/-- An operation that raises an error leaves everything as it was: every document with its parent,
slots and marks, and how many there are, for a plain table that has been converted is one more. -/
def Spares (m : Run α) (h : Heap) : Prop := ∀ t, Raises m h t → t = h

/-- The documents in a plain table are detached and in it once. -/
def Heap.Detached (h : Heap) : Option Arg → Prop
  | some (.table entries) => (docsOf entries).Nodup ∧ ∀ c ∈ docsOf entries, h.parent c = none
  | _ => True

/-- A key that Lua has, other than the name of a member. -/
def Key.Proper : Key → Prop
  | .integer n => LuaNumber.minInteger ≤ n ∧ n ≤ LuaNumber.maxInteger
  | .string s => ¬ (Key.string s).IsMember

instance : (k : Key) → Decidable k.Proper
  | .integer n => @instDecidableAnd _ _ (Int.decLe _ n) (Int.decLe n _)
  | .string s => inferInstanceAs (Decidable ¬ (Key.string s).IsMember)

/-- The keys of the plain tables in a value are such keys. -/
def ProperKeys (v : Option Arg) : Prop := ∀ a ∈ v, ∀ k ∈ a.keys, k.Proper

instance (v : Option Arg) : Decidable (ProperKeys v) := by
  unfold ProperKeys
  infer_instance

/-- The key is refused, or the value is a scalar or nil, or a document that has a parent, or it is
accepted at every depth. -/
def Heap.Harmless (schemas : Schemas) (h : Heap) (d : Nat) (k : Key) (v : Option Arg) : Prop :=
  (h.schema d).parseK schemas k |>.isOk → ∀ need ∈ (h.schema d).index schemas k,
    match v with
    | some (.doc c) => (h.parent c).isSome ∨ (Arg.doc c).Accepted schemas h need
    | some (.table entries) => (Arg.table entries).Accepted schemas h need
    | _ => True

variable {schemas : Schemas} {h t u : Heap} {c d d' i n x : Nat} {k k' : Key} {v : Option Value}
  {schema need : SchemaType}

theorem markDirty_raises : ¬ Raises (markDirty d) h t := by
  rintro ⟨e, he⟩
  obtain ⟨u, _, hu⟩ := Option.map_eq_some_iff.mp he
  cases hu

theorem raises_index : Raises (index schemas d k) h t ↔
    (h.slot d k = none ∧ (h.schema d).checkK schemas k ≠ .ok ()) ∧ t = h := by
  rw [index, raises_get_bind]
  cases h.slot d k with
  | some v => exact ⟨fun hr => absurd hr (raises_pure _), fun hr => by cases hr.1.1⟩
  | none =>
    simp only [raises_lift_bind, raises_pure, and_false, exists_false, or_false, true_and]
    apply and_congr_left'
    cases (h.schema d).checkK schemas k with
    | error e => simp
    | ok a => simp

theorem raises_checkKv : Raises (checkKv schemas d k v) h t ↔
    t = h ∧ ∃ x ∈ v, (h.schema d).checkKv schemas k (h.typeOf x) ≠ .ok () := by
  have hlift : ∀ r : Except Error Unit, Raises (Prog.lift r : Run Unit) h t ↔
      t = h ∧ r ≠ .ok () := by
    intro r
    rw [raises_lift, and_comm]
    cases r with
    | error e => simp
    | ok a => simp
  rw [checkKv, raises_get_bind]
  cases v with
  | none => simp [raises_pure]
  | some v =>
    cases v with
    | scalar s => simp [hlift, Heap.typeOf]
    | doc c => simp [hlift, Heap.typeOf]

theorem raises_docChangeValue (hk : (h.schema d).checkK schemas k = .ok ()) :
    Raises (docChangeValue schemas d k v) h t ↔
      t = h ∧ ∃ x ∈ v, (h.schema d).checkKv schemas k (h.typeOf x) ≠ .ok () := by
  rw [docChangeValue, raises_bind, raises_checkKv, or_iff_left]
  rintro ⟨_, u, hu, hr⟩
  obtain rfl : u = h := by
    rcases wp_checkKv schemas h d k v with ⟨_, _, hu', rfl, _⟩ | ⟨_, _, hu', _⟩
    · cases hu'.symm.trans hu
      rfl
    · cases hu'.symm.trans hu
  rw [raises_bind, raises_index] at hr
  rcases hr with ⟨⟨_, hne⟩, _⟩ | ⟨lv, w, _, hr⟩
  · exact hne hk
  · split at hr
    · exact markDirty_raises ((raises_modify_bind _).mp hr)
    · exact raises_pure _ hr

theorem raises_attach (hk : (h.schema d).checkK schemas k = .ok ()) :
    Raises (attach schemas d k c) h t ↔ t = h.setParent c (some d) ∧
      (h.schema d).checkKv schemas k (.inr (h.schema c)) ≠ .ok () := by
  rw [attach, raises_modify_bind, raises_bind,
    raises_docChangeValue (by rwa [Heap.schema_setParent]), or_iff_left]
  · simp [Heap.typeOf]
  · rintro ⟨_, _, _, ⟨_, ⟨⟩⟩⟩

theorem raises_docChange_doc : Raises (docChange schemas d k (some (.doc c))) h t ↔
    (∃ e, (h.schema d).parseK schemas k = .error e) ∧ t = h ∨
      ∃ k', (h.schema d).parseK schemas k = .ok k' ∧ ((h.parent c).isSome ∧ t = h ∨
        h.parent c = none ∧ t = h.setParent c (some d) ∧
          (h.schema d).checkKv schemas k' (.inr (h.schema c)) ≠ .ok ()) := by
  rw [docChange, raises_get_bind, raises_lift_bind]
  apply or_congr_right
  apply exists_congr
  intro k'
  apply and_congr_right
  intro hk
  change Raises (if (h.parent c).isSome then throw .nonRoot else attach schemas d k' c) h t ↔ _
  cases hroot : h.parent c with
  | some p =>
    rw [if_pos Option.isSome_some, raises_throw]
    simp
  | none =>
    rw [if_neg (by rintro ⟨⟩), raises_attach (SchemaType.parseK_spec hk).1]
    simp

/-- Nothing is done to a scalar before its check. -/
theorem docChange_spares (hv : ∀ c, v ≠ some (.doc c)) : Spares (docChange schemas d k v) h := by
  intro t hr
  rw [docChange, raises_get_bind, raises_lift_bind] at hr
  rcases hr with ⟨_, rfl⟩ | ⟨k', hk, hr⟩
  · rfl
  · have hcheck := (SchemaType.parseK_spec hk).1
    have hplain : Raises (do
        let lv ← index schemas d k'
        if ¬ Value.equals lv v then docChangeValue schemas d k' v) h t → t = h := by
      intro hq
      rw [raises_bind, raises_index] at hq
      rcases hq with ⟨_, rfl⟩ | ⟨lv, u, hu, hq⟩
      · rfl
      · obtain rfl : u = h := by
          rcases wp_index schemas h d k' with ⟨_, _, hu', rfl, _⟩ | ⟨_, _, hu', _⟩
          · cases hu'.symm.trans hu
            rfl
          · cases hu'.symm.trans hu
        split at hq
        · exact ((raises_docChangeValue hcheck).mp hq).1
        · exact absurd hq (raises_pure _)
    cases v with
    | none => exact hplain hr
    | some v =>
      cases v with
      | scalar s => exact hplain hr
      | doc c => exact absurd rfl (hv c)

theorem isOk_iff {r : Except Error Key} : r.isOk ↔ ∃ k, r = .ok k := by
  cases r <;> simp [Except.isOk, Except.toBool]

theorem setParent_ne (hroot : h.parent c = none) : h.setParent c (some d) ≠ h := by
  intro he
  have hp := congrArg (fun t : Heap => t.parent c) he
  simp [hroot] at hp

/-- An assignment that fails has changed nothing exactly if its value was harmless. -/
theorem assign_spares_iff {v : Option Arg} (he : h.Enabled (.assign d k v)) (hv : h.Detached v) :
    Spares (assign schemas d k v) h ↔ h.Harmless schemas d k v := by
  obtain ⟨hd, hknown⟩ := he
  cases v with
  | none => exact ⟨fun _ _ _ _ => trivial, fun _ => docChange_spares (v := none) (by rintro _ ⟨⟩)⟩
  | some a =>
    cases a with
    | scalar s =>
      exact ⟨fun _ _ _ _ => trivial,
        fun _ => docChange_spares (v := some (.scalar s)) (by rintro _ ⟨⟩)⟩
    | doc c =>
      have hcheck : ∀ k' need, (h.schema d).parseK schemas k = .ok k' →
          (h.schema d).index schemas k = some need →
          ((h.schema d).checkKv schemas k' (.inr (h.schema c)) = .ok () ↔
            (Arg.doc c).Accepted schemas h need) := by
        intro k' need hk hi
        obtain ⟨hc, hi'⟩ := SchemaType.parseK_spec hk
        rw [SchemaType.checkKv_eq hc (hi'.trans hi)]
        unfold Arg.Accepted
        rfl
      constructor
      · intro hs hk need hi
        obtain ⟨k', hk⟩ := isOk_iff.mp hk
        by_contra hno
        obtain ⟨hroot, hacc⟩ := not_or.mp hno
        have hroot := Option.not_isSome_iff_eq_none.mp hroot
        refine setParent_ne hroot (hs _ (raises_docChange_doc.mpr (.inr ⟨k', hk, .inr
          ⟨hroot, rfl, fun hc => hacc ((hcheck k' need hk hi).mp hc)⟩⟩)))
      · intro hharm t hr
        rcases raises_docChange_doc.mp hr with ⟨_, rfl⟩ | ⟨k', hk, ⟨_, rfl⟩ | ⟨hroot, _, hc⟩⟩
        · rfl
        · rfl
        · obtain ⟨hc', hi'⟩ := SchemaType.parseK_spec hk
          obtain ⟨need, hi⟩ := SchemaType.index_of_checkK hc'
          have hi := hi'.symm.trans hi
          rcases hharm (isOk_iff.mpr ⟨k', hk⟩) need hi with hp | hacc
          · rw [hroot] at hp
            cases hp
          · exact absurd ((hcheck k' need hk hi).mpr hacc) hc
    | table entries =>
      have hraise : ∀ t, Raises (assign schemas d k (some (.table entries))) h t ↔
          (∃ e, (h.schema d).parseK schemas k = .error e) ∧ t = h ∨
            ∃ k', (h.schema d).parseK schemas k = .ok k' ∧
              (Raises (newDoc schemas ((h.schema d).index schemas k') entries) h t ∨
                ∃ c u, newDoc schemas ((h.schema d).index schemas k') entries h = some (.ok c, u) ∧
                  Raises (attach schemas d k' c) u t) := by
        intro t
        rw [assign, raises_get_bind, raises_lift_bind]
        simp only [raises_bind]
      have hnew : ∀ need, (h.schema d).index schemas k = some need →
          wp (newDoc schemas ((h.schema d).index schemas k) entries)
            (fun c u => h.size < u.size ∧ u.schema d = h.schema d ∧ u.schema c = need ∧
              AllAccepted schemas h need entries)
            (fun u => h.size < u.size ∧ ¬ AllAccepted schemas h need entries) h := by
        intro need hi
        rw [hi]
        refine wp_mono (wp_newDoc (hknown _ rfl)) (fun c u hu => ?_) fun u hu => ?_
        · obtain ⟨hg, rfl, hlt, _, hschema, hacc, _⟩ := hu
          exact ⟨hlt, hg.schema d hd, hschema, hacc⟩
        · exact ⟨hu.2.1, hu.2.2 hv.1 hv.2⟩
      constructor
      · intro hs hk need hi
        obtain ⟨k', hk⟩ := isOk_iff.mp hk
        obtain ⟨hc, hi'⟩ := SchemaType.parseK_spec hk
        have hgrown : ∀ t, Raises (assign schemas d k (some (.table entries))) h t →
            ¬ h.size < t.size := by
          intro t hr hlt
          rw [hs t hr] at hlt
          exact Nat.lt_irrefl _ hlt
        by_contra hno
        unfold Arg.Accepted at hno
        rcases hnew need hi with ⟨c, u, hu, hlt, hschema, htype, hacc⟩ | ⟨e, u, hu, hlt, _⟩
        · refine hgrown (u.setParent c (some d)) ((hraise _).mpr (.inr ⟨k', hk, .inr
            ⟨c, u, hi' ▸ hu, (raises_attach (by rwa [hschema])).mpr ⟨rfl, ?_⟩⟩⟩)) hlt
          rw [hschema, SchemaType.checkKv_eq hc (hi'.trans hi), htype]
          exact fun hok => hno ⟨(checkVTp_schema.mp hok).2, hacc⟩
        · exact hgrown u ((hraise u).mpr (.inr ⟨k', hk, .inl ⟨e, hi' ▸ hu⟩⟩)) hlt
      · intro hharm t hr
        rcases (hraise t).mp hr with ⟨_, rfl⟩ | ⟨k', hk, hr⟩
        · rfl
        · obtain ⟨hc, hi'⟩ := SchemaType.parseK_spec hk
          obtain ⟨need, hi⟩ := SchemaType.index_of_checkK hc
          have hi := hi'.symm.trans hi
          have hacc := hharm (isOk_iff.mpr ⟨k', hk⟩) need hi
          simp only at hacc
          unfold Arg.Accepted at hacc
          rw [hi'] at hr
          rcases hr with hr | ⟨c, u, hu, hr⟩
          · exact absurd hacc.2 ((hnew need hi).raises hr).2
          · rcases hnew need hi with ⟨_, _, hu', _, hschema, htype, _⟩ | ⟨_, _, hu', _⟩
            · cases hu'.symm.trans hu
              have hbad := ((raises_attach (by rwa [hschema])).mp hr).2
              rw [hschema, SchemaType.checkKv_eq hc (hi'.trans hi), htype] at hbad
              exact absurd (checkVTp_schema.mpr ⟨rfl, hacc.1⟩) hbad
            · cases hu'.symm.trans hu

theorem raises_insertAt {len : Nat} {v : Option Arg} : Raises (insertAt schemas d len i v) h t ↔
    (h.slot d (.integer i) = none ∧ (h.schema d).checkK schemas (.integer i) ≠ .ok ()) ∧ t = h ∨
      (h.slot d (.integer i) = none → (h.schema d).checkK schemas (.integer i) = .ok ()) ∧
        Raises (assign schemas d (.integer i) v) h t := by
  rw [insertAt, raises_bind, raises_index]
  apply or_congr_right
  constructor
  · rintro ⟨lv, u, hu, hr⟩
    rcases wp_index schemas h d (.integer i) with ⟨lv', _, hu', rfl, _, hcheck⟩ | ⟨_, _, hu', _⟩
    · cases hu'.symm.trans hu
      refine ⟨hcheck, ?_⟩
      rw [raises_get_bind, raises_bind] at hr
      rcases hr with hr | ⟨_, w, _, hr⟩
      · exact hr
      · have hmark : ∀ z : Heap, ¬ Raises (do
            let h' ← get
            if (h'.docs d).revision = (u.docs d).revision then markDirty d) z t := by
          intro z hz
          rw [raises_get_bind] at hz
          split at hz
          · exact markDirty_raises hz
          · exact raises_pure _ hz
        rw [raises_modify_bind] at hr
        cases lv with
        | none => exact absurd hr (hmark _)
        | some x => exact absurd ((raises_modify_bind _).mp hr) (hmark _)
    · cases hu'.symm.trans hu
  · rintro ⟨hcheck, hr⟩
    rcases wp_index schemas h d (.integer i) with ⟨lv, _, hu, rfl, _⟩ | ⟨e, u, hu, _⟩
    · exact ⟨lv, _, hu, raises_get_bind.mpr (raises_bind.mpr (.inl hr))⟩
    · obtain ⟨⟨hnone, hno⟩, _⟩ := raises_index.mp ⟨e, hu⟩
      exact absurd (hcheck hnone) hno

theorem insertAt_spares_iff {len : Nat} {v : Option Arg} (he : h.Enabled (.assign d (.integer i) v))
    (hv : h.Detached v) : Spares (insertAt schemas d len i v) h ↔
      ((h.slot d (.integer i) = none → (h.schema d).checkK schemas (.integer i) = .ok ()) →
        h.Harmless schemas d (.integer i) v) := by
  rw [← assign_spares_iff he hv]
  constructor
  · intro hs hcheck t hr
    exact hs t (raises_insertAt.mpr (.inr ⟨hcheck, hr⟩))
  · intro hs t hr
    rcases raises_insertAt.mp hr with ⟨_, rfl⟩ | ⟨hcheck, hr⟩
    · rfl
    · exact hs hcheck t hr

/-- `orm.insert` is refused for its position, or its value is harmless there. -/
def Heap.HarmlessInsert (schemas : Schemas) (h : Heap) (d len : Nat)
    (index v : Option Arg) : Prop :=
  match v with
  | none => (h.slot d (.integer ↑(len + 1)) = none →
      (h.schema d).checkK schemas (.integer ↑(len + 1)) = .ok ()) →
        h.Harmless schemas d (.integer ↑(len + 1)) index
  | some v => ∀ i, position len index = .ok i → (h.slot d (.integer i) = none →
      (h.schema d).checkK schemas (.integer i) = .ok ()) →
        h.Harmless schemas d (.integer i) (some v)

/-- A write that raises an error has changed nothing exactly if it was refused for its key or
position, or its value was a scalar, nil, a document with a parent, or accepted at every depth. -/
theorem rejected_unchanged_iff (schemas : Schemas) (h : Heap) :
    (∀ d (k : Key) v, h.Enabled (.assign d k v) → h.Detached v → k.Proper → ProperKeys v →
      (Spares (assign schemas d k v) h ↔ h.Harmless schemas d k v)) ∧
    ∀ d len index v, h.Enabled (.insert d len index v) → h.Detached (v <|> index) →
      ProperKeys (v <|> index) →
        (Spares (insert schemas d len index v) h ↔ h.HarmlessInsert schemas d len index v) := by
  refine ⟨fun d k v he hv _ _ => assign_spares_iff he hv, fun d len index v he hv _ => ?_⟩
  obtain ⟨hd, _, hindex, hknown⟩ := he
  cases v with
  | none => exact insertAt_spares_iff ⟨hd, hindex⟩ hv
  | some v =>
    have hinsert : ∀ i, Spares (insertAt schemas d len i (some v)) h ↔
        ((h.slot d (.integer i) = none → (h.schema d).checkK schemas (.integer i) = .ok ()) →
          h.Harmless schemas d (.integer i) (some v)) :=
      fun i => insertAt_spares_iff ⟨hd, hknown⟩ hv
    constructor
    · intro hs i hi
      apply (hinsert i).mp
      intro t hr
      exact hs t (raises_lift_bind.mpr (.inr ⟨i, hi, hr⟩))
    · intro hharm t hr
      rcases raises_lift_bind.mp hr with ⟨_, rfl⟩ | ⟨i, hi, hr⟩
      · rfl
      · exact (hinsert i).mpr (hharm i hi) t hr

/-- An item whose count is a string. -/
def wrongItem : Arg := .table [(.string "count", .scalar (.string "many"))]

theorem rejected_unchanged_iff_item :
    (Spares (assign itemSchemas 0 (.integer 1) (some wrongItem)) emptyArray ↔
      emptyArray.Harmless itemSchemas 0 (.integer 1) (some wrongItem)) ∧
    (Spares (insert itemSchemas 0 0 (some (.scalar (.number (.integer 1))))
      (some (countedItem 1))) emptyArray ↔
      emptyArray.HarmlessInsert itemSchemas 0 0 (some (.scalar (.number (.integer 1))))
        (some (countedItem 1))) :=
  ⟨(rejected_unchanged_iff itemSchemas emptyArray).1 0 (.integer 1) (some wrongItem)
      (by decide +kernel) ⟨List.nodup_nil, by rintro _ ⟨⟩⟩ (by decide) (by decide),
    (rejected_unchanged_iff itemSchemas emptyArray).2 0 0
      (some (.scalar (.number (.integer 1)))) (some (countedItem 1)) (by decide +kernel)
      ⟨List.nodup_nil, by rintro _ ⟨⟩⟩ (by decide)⟩

/-- The table is refused, but has become a document. -/
theorem refused_table_converted : ∃ t,
    Raises (assign itemSchemas 0 (.integer 1) (some wrongItem)) emptyArray t ∧
      emptyArray.size < t.size := by
  have hrun : ((assign itemSchemas 0 (.integer 1) (some wrongItem)) emptyArray).map
      (fun r => (r.1.isOk, r.2.size)) = some (false, 2) := by decide +kernel
  obtain ⟨⟨r, t⟩, ht, he⟩ := Option.map_eq_some_iff.mp hrun
  obtain ⟨hr, hsize⟩ := Prod.mk.inj he
  cases r with
  | ok a => cases hr
  | error e => exact ⟨t, ⟨e, ht⟩, hsize ▸ Nat.lt_succ_self 1⟩

end Skyext.Orm
