import Skyext.Orm.Containment
import Skyext.Orm.Kinds

namespace Skyext.Orm
set_option autoImplicit true

open Prog

/-- What a type does with keys and values depends on its definition only. -/
theorem SchemaType.same_definition {schemas schemas' : Schemas} {a a' : String}
    (h : schemas a = schemas' a') :
    (∀ k, (SchemaType.schema a).index schemas k = (SchemaType.schema a').index schemas' k) ∧
      ∀ k, (SchemaType.schema a).parseK schemas k = (SchemaType.schema a').parseK schemas' k := by
  have hindex (k : Key) :
      (SchemaType.schema a).index schemas k = (SchemaType.schema a').index schemas' k := by
    simp only [index, h]
  refine ⟨hindex, fun k => ?_⟩
  simp only [parseK, keyType, h, hindex]

theorem SchemaType.index_types {schemas : Schemas} {a : String} {type : SchemaDef}
    (h : schemas a = some type) (hi : (SchemaType.schema a).index schemas k = some need) :
    need ∈ type.types := by
  simp only [index, h] at hi
  cases type with
  | struct fields =>
    cases k with
    | integer n => cases hi
    | string s =>
      obtain ⟨l₁, l₂, rfl, _⟩ := List.lookup_eq_some_iff.mp hi
      simp [SchemaDef.types]
  | map key value =>
    cases hi
    exact List.mem_singleton_self _
  | array value =>
    cases hi
    exact List.mem_singleton_self _

theorem SchemaDef.mem_declared {schemas : Schemas} {a : String} {type : SchemaDef}
    (hd : type.Distinct) (h : schemas a = some type) : need ∈ type.declared ↔
      ∃ k, ((SchemaType.schema a).parseK schemas k).isOk ∧
        (SchemaType.schema a).index schemas k = some need := by
  constructor
  · intro hm
    cases type with
    | struct fields =>
      obtain ⟨⟨field, need'⟩, hf, he⟩ := List.mem_map.mp hm
      obtain rfl : need' = need := he
      have hi : (SchemaType.schema a).index schemas (.string field) = some need' := by
        simp only [SchemaType.index, h]
        obtain ⟨l₁, l₂, rfl⟩ := List.append_of_mem hf
        refine List.lookup_eq_some_iff.mpr ⟨l₁, l₂, rfl, fun p hp => ?_⟩
        have hd : ((l₁ ++ (field, need') :: l₂).map Prod.fst).Nodup := hd
        rw [List.map_append, List.map_cons] at hd
        have hne := (List.nodup_append.mp hd).2.2 p.1 (List.mem_map_of_mem hp) field
          List.mem_cons_self
        simpa using Ne.symm hne
      refine ⟨.string field, ?_, hi⟩
      simp only [SchemaType.parseK, SchemaType.keyType, h, hi, Option.isSome_some, if_true]
      rfl
    | map key value =>
      simp only [declared] at hm
      split at hm
      · next hkey =>
        cases List.mem_singleton.mp hm
        have hi (k : Key) : (SchemaType.schema a).index schemas k = some need := by
          simp only [SchemaType.index, h]
        rcases hkey with rfl | rfl
        · exact ⟨.integer 0, by simp only [SchemaType.parseK, SchemaType.keyType, h]; rfl, hi _⟩
        · exact ⟨.integer 0, by simp only [SchemaType.parseK, SchemaType.keyType, h]; rfl, hi _⟩
      · cases hm
    | array value =>
      cases List.mem_singleton.mp hm
      refine ⟨.integer 0, ?_, by simp only [SchemaType.index, h]⟩
      simp only [SchemaType.parseK, SchemaType.keyType, h]
      rfl
  · rintro ⟨k, hk, hi⟩
    have hm := SchemaType.index_types h hi
    cases type with
    | map key value =>
      simp only [SchemaType.parseK, SchemaType.keyType, h] at hk
      have hkey : key = .integer ∨ key = .string := by
        cases key with
        | integer => exact .inl rfl
        | string => exact .inr rfl
        | _ => cases hk
      simp only [declared, if_pos hkey]
      exact hm
    | _ => exact hm

namespace Process

variable {s t : Process} {chunk new : List Definition} {name a : String} {n m : Definition}

theorem find_distinct {key : Definition → String} (hg : (chunk.map key).Nodup) (hn : n ∈ chunk) :
    chunk.find? (fun m => key m = key n) = some n := by
  have hsome : (chunk.find? fun m => key m = key n).isSome :=
    List.find?_isSome.mpr ⟨n, hn, by simp⟩
  obtain ⟨m, hm⟩ := Option.isSome_iff_exists.mp hsome
  have hkey : key m = key n := by simpa using List.find?_some hm
  rw [hm, List.inj_on_of_nodup_map hg (List.mem_of_find?_eq_some hm) hn hkey]

theorem defined_address (hg : Generated chunk) (hn : n ∈ chunk) :
    defined chunk n.address = some n.type := by
  rw [defined, find_distinct hg.1 hn, Option.map_some]

/-- What the first loop of `reload_schema` does. -/
theorem foldl_copy (new : List Definition) (l : List ((_ : String) × String)) (s : Process) :
    let t := l.foldl (copy new) s
    (t.newest = s.newest ∧ t.heap = s.heap ∧ t.dropped = s.dropped) ∧
      (∀ a, (∀ e ∈ l, e.2 = a → new.find? (fun n => n.name = e.1) = none) →
        t.tables a = s.tables a) ∧
      (∀ name a, t.old.lookup name = some a → s.old.lookup name = some a) ∧
      (∀ e ∈ l, new.find? (fun n => n.name = e.1) = none → t.old.lookup e.1 = none) ∧
      ((l.map Sigma.snd).Nodup →
        ∀ e ∈ l, ∀ n ∈ new.find? (fun n => n.name = e.1), t.tables e.2 = some n.table) := by
  induction l generalizing s with
  | nil => exact ⟨⟨rfl, rfl, rfl⟩, fun _ _ => rfl, fun _ _ => id, by simp, by simp⟩
  | cons e l ih =>
    obtain ⟨⟨hnewest, hheap, hdropped⟩, htables, hold, hgone, hnew⟩ := ih (copy new s e)
    simp only [List.foldl_cons]
    cases hf : new.find? fun n => n.name = e.1 with
    | none =>
      have hc : copy new s e = { s with old := s.old.erase e.1 } := by rw [copy, hf]
      rw [hc] at hnewest hheap hdropped htables hold hgone hnew ⊢
      have hsub : ∀ name a, (s.old.erase e.1).lookup name = some a →
          name ≠ e.1 ∧ s.old.lookup name = some a := by
        intro name a hl
        by_cases he : name = e.1
        · rw [he, AList.lookup_erase] at hl
          cases hl
        · rw [AList.lookup_erase_ne he] at hl
          exact ⟨he, hl⟩
      refine ⟨⟨hnewest, hheap, hdropped⟩, fun a ha => ?_, fun name a hl => ?_, ?_, ?_⟩
      · exact htables a fun e' he' => ha e' (List.mem_cons_of_mem _ he')
      · exact (hsub name a (hold name a hl)).2
      · intro e' he' hf'
        rcases List.mem_cons.mp he' with rfl | he'
        · by_contra hne
          obtain ⟨a, hl⟩ := Option.ne_none_iff_exists'.mp hne
          exact (hsub _ a (hold _ a hl)).1 rfl
        · exact hgone e' he' hf'
      · intro hnd e' he' n hn
        rcases List.mem_cons.mp he' with rfl | he'
        · cases hf.symm.trans hn
        · exact hnew (List.nodup_cons.mp hnd).2 e' he' n hn
    | some n =>
      have hc : copy new s e =
          { s with tables := fun a => if a = e.2 then some n.table else s.tables a } := by
        rw [copy, hf]
      rw [hc] at hnewest hheap hdropped htables hold hgone hnew ⊢
      refine ⟨⟨hnewest, hheap, hdropped⟩, fun a ha => ?_, hold, ?_, ?_⟩
      · rw [htables a fun e' he' => ha e' (List.mem_cons_of_mem _ he')]
        refine if_neg fun he : a = e.2 => ?_
        cases hf.symm.trans (ha e List.mem_cons_self he.symm)
      · intro e' he' hf'
        rcases List.mem_cons.mp he' with rfl | he'
        · cases hf.symm.trans hf'
        · exact hgone e' he' hf'
      · intro hnd e' he' m hm
        obtain ⟨hnot, hnd⟩ := List.nodup_cons.mp hnd
        rcases List.mem_cons.mp he' with rfl | he'
        · cases hf.symm.trans hm
          refine (htables _ fun x hx he => absurd ?_ hnot).trans (if_pos rfl)
          exact he ▸ List.mem_map_of_mem hx
        · exact hnew hnd e' he' m hm

/-- What the second loop does. -/
theorem foldl_add (l : List Definition) (s : Process) :
    let t := l.foldl add s
    (t.newest = s.newest ∧ t.heap = s.heap ∧ t.dropped = s.dropped ∧ t.tables = s.tables) ∧
      ∀ name a, t.old.lookup name = some a →
        s.old.lookup name = some a ∨ ∃ n ∈ l, n.name = name ∧ n.address = a := by
  induction l generalizing s with
  | nil => exact ⟨⟨rfl, rfl, rfl, rfl⟩, fun _ _ => .inl⟩
  | cons n l ih =>
    obtain ⟨⟨hnewest, hheap, hdropped, htables⟩, hold⟩ := ih (s.add n)
    have hadd : (s.add n).newest = s.newest ∧ (s.add n).heap = s.heap ∧
        (s.add n).dropped = s.dropped ∧ (s.add n).tables = s.tables := by
      rw [add]
      split <;> exact ⟨rfl, rfl, rfl, rfl⟩
    simp only [List.foldl_cons]
    refine ⟨⟨hnewest.trans hadd.1, hheap.trans hadd.2.1, hdropped.trans hadd.2.2.1,
      htables.trans hadd.2.2.2⟩, fun name a hl => ?_⟩
    rcases hold name a hl with hl | ⟨m, hm, hname, ha⟩
    · rw [add] at hl
      split at hl
      · by_cases he : name = n.name
        · rw [he, AList.lookup_insert] at hl
          cases hl
          exact .inr ⟨n, List.mem_cons_self, he.symm, rfl⟩
        · rw [AList.lookup_insert_ne he] at hl
          exact .inl hl
      · exact .inl hl
    · exact .inr ⟨m, List.mem_cons_of_mem _ hm, hname, ha⟩

/-- The documents of a table are usable: it is one of the newest chunk's, or it is an old one with
the newest definition, and nothing declares its type. -/
def Fine (s : Process) (schema : SchemaType) : Prop :=
  ∀ a, schema = .schema a → ∃ n ∈ s.newest,
    n.address = a ∨ (∃ table, s.tables a = some table ∧ table.name = n.name ∧ table.type = n.type) ∧
      ∀ m ∈ s.newest, .schema n.address ∉ m.type.declared

/-- The tables are as the newest chunk defines them, also those that `old` holds. -/
structure Inv (s : Process) : Prop where
  generated : Generated s.newest
  loaded : ∀ n ∈ s.newest, s.tables n.address = some n.table
  registered : ∀ name a, s.old.lookup name = some a →
    ∃ n ∈ s.newest, n.name = name ∧ s.tables a = some n.table
  docs : ∀ d, s.Holds d → s.Fine (s.heap.schema d)

theorem Inv.fine (h : s.Inv) (hf : s.Fine (.schema a)) : ∃ n ∈ s.newest,
    (∃ table, s.tables a = some table ∧ table.name = n.name ∧ table.type = n.type) ∧
      (n.address = a ∨ ∀ m ∈ s.newest, .schema n.address ∉ m.type.declared) := by
  obtain ⟨n, hn, rfl | ⟨htable, hnot⟩⟩ := hf a rfl
  · exact ⟨n, hn, ⟨n.table, h.loaded n hn, rfl, rfl⟩, .inl rfl⟩
  · exact ⟨n, hn, htable, .inr hnot⟩

theorem Inv.fine_index (h : s.Inv) (schema : SchemaType) (k : Key) (need : SchemaType)
    (hf : s.Fine schema) (hi : schema.index s.schemas k = some need) : s.Fine need := by
  rintro b rfl
  cases schema with
  | schema a =>
    obtain ⟨n, hn, ⟨table, htable, _, htype⟩, _⟩ := h.fine hf
    have hs : s.schemas a = some n.type := by rw [schemas, htable, Option.map_some, htype]
    obtain ⟨m, hm, he⟩ := List.mem_map.mp
      ((h.generated.2.2 n hn).2 _ (SchemaType.index_types hs hi) trivial)
    cases he
    exact ⟨m, hm, .inl rfl⟩
  | _ => cases hi

theorem Inv.edit (h : s.Inv) {act : Action}
    (hnew : ∀ schema init, act = .new schema init → s.Fine schema) (ht : s.edit act = some t) :
    t.Inv := by
  rw [Process.edit] at ht
  split at ht
  · next hdocs =>
    obtain ⟨u, hu, rfl⟩ := Option.map_eq_some_iff.mp ht
    have hk := kinds_step h.fine_index (fun c hc => ⟨(hdocs c hc).1, h.docs c (hdocs c hc)⟩) hnew hu
    refine ⟨h.generated, h.loaded, h.registered, fun d hd => ?_⟩
    rcases Nat.lt_or_ge d s.heap.size with hlt | hge
    · change s.Fine (u.schema d)
      rw [hk.old d hlt]
      exact h.docs d ⟨hlt, hd.2⟩
    · exact hk.new d hge hd.1
  · cases ht

theorem Inv.create (h : s.Inv) {init : List (Key × Arg)}
    (ht : s.step (.create name init) = some t) :
    t.Inv := by
  obtain ⟨a, ha, ht⟩ := Option.bind_eq_some_iff.mp ht
  obtain ⟨table, htable, ht⟩ := Option.bind_eq_some_iff.mp ht
  obtain ⟨n, hn, _, hs⟩ := h.registered name a ha
  cases htable.symm.trans hs
  refine h.edit ?_ ht
  rintro schema init ⟨⟩ b he
  cases he
  exact ⟨n, hn, .inl rfl⟩

theorem Inv.addresses (h : s.Inv) : (s.old.entries.map Sigma.snd).Nodup := by
  refine List.Nodup.map_on (fun x hx y hy he => ?_) s.old.nodupKeys.nodup
  obtain ⟨x, a⟩ := x
  obtain ⟨y, b⟩ := y
  cases (show a = b from he)
  obtain ⟨n, _, hn, hs⟩ := h.registered x a (AList.mem_lookup_iff.mpr hx)
  obtain ⟨m, _, hm, hs'⟩ := h.registered y a (AList.mem_lookup_iff.mpr hy)
  have hname : n.name = m.name := congrArg Table.name (Option.some.inj (hs.symm.trans hs'))
  rw [← hn, ← hm, hname]

/-- What a reload does: the tables of the chunk are there, and what they define is also in the
tables that `old` held for their names. -/
structure Reloads (s t : Process) (chunk : List Definition) : Prop where
  newest : t.newest = chunk
  heap : t.heap = s.heap
  dropped : t.dropped = s.dropped
  loaded : ∀ n ∈ chunk, t.tables n.address = some n.table
  copied : ∀ n ∈ chunk, ∀ a, s.old.lookup n.name = some a → t.tables a = some n.table
  kept : ∀ a table, s.tables a = some table →
    s.old.lookup table.name ≠ some a ∨ (∀ n ∈ chunk, n.name ≠ table.name) → t.tables a = some table
  old : ∀ name a, t.old.lookup name = some a →
    ∃ n ∈ chunk, n.name = name ∧ (n.address = a ∨ s.old.lookup name = some a)

theorem Inv.reloads (h : s.Inv) (hg : Generated chunk)
    (hfresh : ∀ n ∈ chunk, s.tables n.address = none) :
    s.Reloads ((s.load chunk).reloadSchema chunk) chunk := by
  obtain ⟨⟨hnewest, hheap, hdropped⟩, htables, hold, hgone, hnew⟩ :=
    foldl_copy chunk s.old.entries (s.load chunk)
  obtain ⟨⟨hnewest', hheap', hdropped', htables'⟩, hold'⟩ :=
    foldl_add chunk (s.old.entries.foldl (copy chunk) (s.load chunk))
  constructor
  case newest => exact hnewest'.trans hnewest
  case heap => exact hheap'.trans hheap
  case dropped => exact hdropped'.trans hdropped
  case loaded =>
    intro n hn
    refine (congrFun htables' _).trans ((htables _ ?_).trans ?_)
    · rintro ⟨name, a⟩ hmem rfl
      obtain ⟨m, _, _, hs⟩ := h.registered name _ (AList.mem_lookup_iff.mpr hmem)
      cases (hfresh n hn).symm.trans hs
    · simp only [load, find_distinct hg.1 hn, Option.map_some, Option.some_or]
  case copied =>
    intro n hn a hl
    refine (congrFun htables' a).trans ?_
    exact hnew h.addresses ⟨n.name, a⟩ (AList.mem_lookup_iff.mp hl) n (find_distinct hg.2.1 hn)
  case kept =>
    intro a table htable hno
    have hload : (s.load chunk).tables a = some table := by
      cases hf : chunk.find? fun n => n.address = a with
      | none => simp only [load, hf, Option.map_none, Option.none_or, htable]
      | some n =>
        have ha : n.address = a := by simpa using List.find?_some hf
        cases (hfresh n (List.mem_of_find?_eq_some hf)).symm.trans (ha ▸ htable)
    refine (congrFun htables' a).trans ((htables a ?_).trans hload)
    rintro ⟨name, _⟩ hmem rfl
    obtain ⟨m, _, hname, hs⟩ := h.registered name _ (AList.mem_lookup_iff.mpr hmem)
    cases htable.symm.trans hs
    rcases hno with hno | hno
    · exact absurd (AList.mem_lookup_iff.mpr (hname ▸ hmem)) hno
    · refine List.find?_eq_none.mpr fun n hn => ?_
      have hne : n.name ≠ name := fun he => hno n hn (he.trans hname.symm)
      simpa using hne
  case old =>
    intro name a hl
    rcases hold' name a hl with hl | ⟨n, hn, hname, he⟩
    · have hl' : s.old.lookup name = some a := hold name a hl
      cases hf : chunk.find? fun n => n.name = name with
      | none => cases (hgone ⟨name, a⟩ (AList.mem_lookup_iff.mp hl') hf).symm.trans hl
      | some n =>
        exact ⟨n, List.mem_of_find?_eq_some hf, by simpa using List.find?_some hf, .inr hl'⟩
    · exact ⟨n, hn, hname, .inl he⟩

theorem Inv.reload (h : s.Inv) (hok : s.Unmixed (.reload chunk))
    (ht : s.step (.reload chunk) = some t) : t.Inv := by
  simp only [Process.step] at ht
  split at ht
  · next hen =>
    obtain ⟨hg, hfresh⟩ := hen
    obtain hr := h.reloads hg fun n hn => Option.isNone_iff_eq_none.mp (hfresh n hn)
    rw [Option.some.inj ht] at hr
    constructor
    case generated => exact hr.newest ▸ hg
    case loaded => exact hr.newest ▸ hr.loaded
    case registered =>
      intro name a hl
      obtain ⟨n, hn, rfl, he⟩ := hr.old name a hl
      refine ⟨n, hr.newest ▸ hn, rfl, ?_⟩
      rcases he with rfl | hl'
      · exact hr.loaded n hn
      · exact hr.copied n hn a hl'
    case docs =>
      intro d hd a hschema
      rw [Holds, hr.heap, hr.dropped] at hd
      rw [hr.heap] at hschema
      obtain ⟨_, _, ⟨table, htable, _⟩, _⟩ := h.fine (hschema ▸ h.docs d hd)
      have hu := hok d hd.1 hd
      simp only [hschema] at hu
      obtain ⟨m, hm, hname, hsame, hnot⟩ := hu table htable
      rw [hr.newest]
      refine ⟨m, hm, .inr ⟨?_, hnot⟩⟩
      by_cases hold : s.old.lookup table.name = some a
      · exact ⟨m.table, hr.copied m hm a (hname ▸ hold), rfl, rfl⟩
      · exact ⟨table, hr.kept a table htable (.inl hold), hname.symm,
          (hsame.resolve_left hold).symm⟩
  · cases ht

theorem Inv.step (h : s.Inv) {act : ReloadAction} (hok : s.Unmixed act) (ht : s.step act = some t) :
    t.Inv := by
  cases act with
  | reload chunk => exact h.reload hok ht
  | create name init => exact h.create ht
  | edit a =>
    simp only [Process.step] at ht
    split at ht
    · cases ht
    · next hnot =>
      refine h.edit ?_ ht
      rintro schema init rfl
      exact absurd rfl hnot
  | drop docs =>
    simp only [Process.step] at ht
    split at ht
    · cases ht
      exact ⟨h.generated, h.loaded, h.registered, fun d hd =>
        h.docs d ⟨hd.1, fun hm => hd.2 (List.mem_append_right _ hm)⟩⟩
    · cases ht

theorem Inv.first (hg : Generated chunk) {heap : Heap} (hsize : heap.size = 0) :
    (first chunk heap).Inv := by
  have hloaded : ∀ n ∈ chunk, (Process.first chunk heap).tables n.address = some n.table := by
    intro n hn
    simp only [Process.first, find_distinct hg.1 hn, Option.map_some]
  have hold : ∀ (l : List Definition) (old : AList fun _ : String => String) name a,
      (l.foldl (fun old n => old.insert n.name n.address) old).lookup name = some a →
        old.lookup name = some a ∨ ∃ n ∈ l, n.name = name ∧ n.address = a := by
    intro l
    induction l with
    | nil => exact fun _ _ _ => .inl
    | cons n l ih =>
      intro old name a hl
      rcases ih _ name a hl with hl | ⟨m, hm, he⟩
      · by_cases he : name = n.name
        · rw [he, AList.lookup_insert] at hl
          cases hl
          exact .inr ⟨n, List.mem_cons_self, he.symm, rfl⟩
        · rw [AList.lookup_insert_ne he] at hl
          exact .inl hl
      · exact .inr ⟨m, List.mem_cons_of_mem _ hm, he⟩
  refine ⟨hg, hloaded, fun name a hl => ?_, fun d hd => ?_⟩
  · rcases hold chunk ∅ name a hl with hl | ⟨n, hn, hname, rfl⟩
    · cases hl
    · exact ⟨n, hn, hname, hloaded n hn⟩
  · have hlt : d < heap.size := hd.1
    omega

theorem inv_reaches (h : system.Reaches Unmixed s) : s.Inv := by
  refine h.invariant ?_ fun s a t hs hok ht => hs.step hok ht
  rintro _ ⟨chunk, heap, hg, hsize, rfl⟩
  exact .first hg hsize

theorem Inv.checked (h : s.Inv) : s.Checked := by
  intro d hd a ha
  obtain ⟨n, hn, ⟨table, htable, hname, htype⟩, _⟩ := h.fine (ha ▸ h.docs d hd)
  exact ⟨table, htable, n, hn, hname.symm, htype.symm⟩

theorem Inv.of_typeName (h : s.Inv) (hd : s.Holds d) (hn : n ∈ s.newest)
    (hname : s.typeName d = some n.name) : ∃ a, s.heap.schema d = .schema a ∧
      s.schemas a = some n.type ∧
      (n.address = a ∨ ∀ m ∈ s.newest, .schema n.address ∉ m.type.declared) := by
  cases hs : s.heap.schema d with
  | schema a =>
    obtain ⟨m, hm, ⟨table, htable, htname, htype⟩, hcases⟩ := h.fine (hs ▸ h.docs d hd)
    rw [typeName, hs] at hname
    simp only [htable, Option.map_some, Option.some.injEq, htname] at hname
    obtain rfl := List.inj_on_of_nodup_map h.generated.2.1 hm hn hname
    exact ⟨a, rfl, by rw [schemas, htable, Option.map_some, htype], hcases⟩
  | _ =>
    rw [typeName, hs] at hname
    cases hname

theorem Declares.declared (h : Declares chunk n k m) (hg : Generated chunk) :
    .schema m.address ∈ n.type.declared := by
  obtain ⟨hn, _, hk, hi⟩ := h
  exact (SchemaDef.mem_declared (hg.2.2 n hn).1 (defined_address hg hn)).mpr ⟨k, hk, hi⟩

theorem Inv.accepted (h : s.Inv) : s.Accepted := by
  intro c n k m hc hdecl hcname
  obtain ⟨b, hb, _, hcases⟩ := h.of_typeName hc hdecl.2.1 hcname
  rcases hcases with rfl | hnot
  · exact checkVTp_schema.mpr ⟨hb, trivial⟩
  · exact absurd (hdecl.declared h.generated) (hnot n hdecl.1)

theorem Inv.assignable (h : s.Inv) : s.Assignable := by
  intro d c k n m hd hc hroot hdecl hdname hcname
  have hno : ∀ t, ¬ Prog.Raises (assign s.schemas d k (some (.doc c))) s.heap t := by
    intro t hr
    have hcheck := checkVTp_schema.mp (h.accepted c n k m hc hdecl hcname)
    obtain ⟨hn, hm, hok, hindex⟩ := hdecl
    obtain ⟨a, ha, hdef, _⟩ := h.of_typeName hd hn hdname
    obtain ⟨hi, hp⟩ := SchemaType.same_definition
      (hdef.trans (defined_address h.generated hn).symm)
    rcases raises_docChange_doc.mp hr with ⟨⟨e, he⟩, _⟩ | ⟨k', hk, ⟨hparent, _⟩ | ⟨_, _, hno⟩⟩
    · rw [ha, hp k] at he
      rw [he] at hok
      cases hok
    · rw [hroot] at hparent
      cases hparent
    · refine hno ?_
      obtain ⟨hkey, hsame⟩ := SchemaType.parseK_spec hk
      rw [hcheck.1]
      refine SchemaType.checkKv_doc hkey ?_ trivial
      rw [hsame, ha, hi k, hindex]
  refine ⟨hno, fun hends habove => ?_⟩
  rcases docChange_ends hends hroot habove with ⟨_, t, hrun, _⟩ | ⟨e, t, hrun, _⟩
  · exact ⟨t, hrun⟩
  · exact absurd ⟨e, hrun⟩ (hno t)

theorem Inv.usable (h : s.Inv) : s.Usable := ⟨h.checked, h.accepted, h.assignable⟩

/-- A reload that finds another document leaves one that is not usable. -/
theorem Inv.unmixed (h : s.Inv) (ht : s.step (.reload chunk) = some t) (hu : t.Usable) :
    s.Unmixed (.reload chunk) := by
  simp only [Process.step] at ht
  split at ht
  · next hen =>
    obtain ⟨hg, hfresh⟩ := hen
    have hfresh : ∀ n ∈ chunk, s.tables n.address = none :=
      fun n hn => Option.isNone_iff_eq_none.mp (hfresh n hn)
    have hr := h.reloads hg hfresh
    rw [Option.some.inj ht] at hr
    intro d _ hd
    split
    · next a hschema =>
      intro table htable
      have hheld : t.Holds d := by
        rw [Holds, hr.heap, hr.dropped]
        exact hd
      have hschema' : t.heap.schema d = .schema a := hr.heap ▸ hschema
      obtain ⟨table', htable', m, hm, hname', htype⟩ := hu.checked d hheld a hschema'
      rw [hr.newest] at hm
      have hname : table'.name = table.name ∧
          (s.old.lookup table.name = some a ∨ m.type = table.type) := by
        by_cases hno : s.old.lookup table.name ≠ some a ∨ ∀ n ∈ chunk, n.name ≠ table.name
        · cases htable'.symm.trans (hr.kept a table htable hno)
          exact ⟨rfl, .inr htype⟩
        · simp only [not_or, not_forall, not_not] at hno
          obtain ⟨hold, n, hn, hn'⟩ := hno
          cases htable'.symm.trans (hr.copied n hn a (hn' ▸ hold))
          exact ⟨hn', .inl hold⟩
      refine ⟨m, hm, hname'.trans hname.1, hname.2, fun n hn hdecl => ?_⟩
      obtain ⟨k, hk, hi⟩ :=
        (SchemaDef.mem_declared (hg.2.2 n hn).1 (defined_address hg hn)).mp hdecl
      have hcheck := hu.accepted d n k m hheld (hr.newest ▸ ⟨hn, hm, hk, hi⟩)
        (by rw [typeName, hschema']; simp only [htable', Option.map_some, hname'])
      have he := (checkVTp_schema.mp hcheck).1
      rw [hschema'] at he
      cases he
      cases (hfresh m hm).symm.trans htable
    · trivial
  · cases ht

/-- In every run whose reloads find only documents that stay usable, every document is checked
against the newest definition of its type, and is accepted wherever that type is declared; and
there is no other reload after which that is so. -/
theorem reload_usable (hs : system.Reaches Unmixed s) :
    s.Usable ∧ ∀ chunk t, system.step s (.reload chunk) = some t →
      (t.Usable ↔ s.Unmixed (.reload chunk)) := by
  have hi := inv_reaches hs
  refine ⟨hi.usable, fun chunk t ht => ?_⟩
  exact ⟨hi.unmixed ht, fun hok => (hi.reload hok ht).usable⟩

/-- A role with a bag, as the chunk of a generation defines them. -/
def bagChunk (generation : String) (bag : List (String × SchemaType)) : List Definition :=
  [⟨generation ++ "role", "role", .struct [("bag", .schema (generation ++ "bag")),
      ("level", .integer)]⟩,
    ⟨generation ++ "bag", "bag", .struct bag⟩]

def bagProcess : Process := first (bagChunk "0." [("size", .integer)]) emptyHeap

theorem bagProcess_init : system.init bagProcess :=
  ⟨_, _, by decide +kernel, rfl, rfl⟩

/-- A role that stays is reloaded twice, and gets a bag after each. -/
def roleReloaded : List ReloadAction :=
  [.create "role" [], .reload (bagChunk "1." [("size", .integer)]),
    .edit (.assign 0 (.string "bag") (some (.table []))),
    .edit (.assign 0 (.string "bag") none), .drop [1],
    .reload (bagChunk "2." [("weight", .integer)]), .create "bag" [],
    .edit (.assign 0 (.string "bag") (some (.doc 2)))]

theorem reload_usable_role :
    (system.run Unmixed bagProcess roleReloaded (by decide +kernel)).Usable :=
  (reload_usable (system.run_reaches Unmixed _ bagProcess_init (by decide +kernel))).1

/-- A bag is taken out of a role, and after a reload the role refuses it. -/
def bagRefused : List ReloadAction :=
  [.create "role" [(.string "bag", .table [])], .edit (.assign 0 (.string "bag") none),
    .reload (bagChunk "1." [("size", .integer)])]

/-- A role is made after one reload, and the next one passes it by. -/
def roleStale : List ReloadAction :=
  [.reload (bagChunk "1." [("size", .integer)]), .create "role" [],
    .reload (bagChunk "2." [("size", .integer)])]

theorem reload_mixes : (∃ s, system.Reaches Machine.anyStep s ∧ ¬ s.Assignable) ∧
    ∃ s, system.Reaches Machine.anyStep s ∧ ¬ s.Checked := by
  constructor
  · refine ⟨_, system.run_reaches Machine.anyStep bagRefused bagProcess_init (by decide +kernel),
      fun h => ?_⟩
    have hdecl : Declares (bagChunk "1." [("size", .integer)])
        ⟨"1.role", "role", .struct [("bag", .schema "1.bag"), ("level", .integer)]⟩
        (.string "bag") ⟨"1.bag", "bag", .struct [("size", .integer)]⟩ := by
      refine ⟨?_, ?_, ?_, ?_⟩ <;> decide +kernel
    refine (h 0 1 (.string "bag") _ _ (by decide +kernel) (by decide +kernel) (by decide +kernel)
      hdecl (by decide +kernel) (by decide +kernel)).1
      ((system.run Machine.anyStep bagProcess bagRefused (by decide +kernel)).heap.setParent 1
        (some 0)) ?_
    exact raises_docChange_doc.mpr (.inr ⟨.string "bag", by decide +kernel, .inr
      ⟨by decide +kernel, rfl, by decide +kernel⟩⟩)
  · refine ⟨_, system.run_reaches Machine.anyStep roleStale bagProcess_init (by decide +kernel),
      fun h => ?_⟩
    obtain ⟨table, htable, n, hn, _, htype⟩ := h 0 (by decide +kernel) "1.role"
      (by decide +kernel)
    have hold : (system.run Machine.anyStep bagProcess roleStale (by decide +kernel)).schemas
        "1.role" = some (.struct [("bag", .schema "1.bag"), ("level", .integer)]) := by
      decide +kernel
    rw [schemas, htable, Option.map_some, Option.some.injEq, ← htype] at hold
    have hnew : ∀ m ∈ bagChunk "2." [("size", .integer)],
        m.type ≠ .struct [("bag", .schema "1.bag"), ("level", .integer)] := by
      decide +kernel
    exact hnew n hn hold

end Process
end Skyext.Orm
