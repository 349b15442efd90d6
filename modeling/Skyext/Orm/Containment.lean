import Skyext.Orm.NewDoc
import Skyext.Orm.Snapshot

namespace Skyext.Orm
set_option autoImplicit true

open Parents Prog

variable {schemas : Schemas} {h t u : Heap} {c d d' i n x : Nat} {k k' : Key} {v : Option Value}
  {schema need : SchemaType}

theorem Heap.Grown.above {moved : List Nat} (hs : Sound schemas h) (hg : h.Grown t moved)
    (hd : d < h.size) (hm : ∀ c ∈ moved, h.parent c = none → ¬ Above h.parent c d)
    (ha : Above t.parent x d) : Above h.parent x d := by
  induction ha with
  | refl => exact .refl _ _
  | @tail y z _ hz ih =>
    rcases hg.parent y (hs.above_lt hd ih) with hp | ⟨hp, hmem⟩
    · exact Relation.ReflTransGen.tail ih (hp.symm.trans hz)
    · exact absurd ih (hm y hmem hp)

theorem mem_aboveFrom {l : List Nat} (hl : Path h.parent d l) (hn : l.length ≤ n + 1) :
    h.aboveFrom n d = l := by
  induction hl generalizing n with
  | root hd => cases n <;> simp [Heap.aboveFrom, hd]
  | child hd hl ih =>
    cases n with
    | zero =>
      have hpos := hl.length_pos
      simp only [List.length_cons] at hn
      omega
    | succ n =>
      simp only [Heap.aboveFrom, hd, ih (Nat.le_of_succ_le_succ hn)]

theorem Sound.mem_above (hs : Sound schemas h) (hd : d < h.size) :
    x ∈ h.above d ↔ Above h.parent x d := by
  obtain ⟨l, hl⟩ := (hs.forest.rooted d).path
  have hlen := hl.length_le fun x hx => hs.above_lt hd (hl.mem_iff.mp hx)
  rw [Heap.above, mem_aboveFrom hl (Nat.le_succ_of_le hlen), hl.mem_iff]

/-- What an assignment leaves: the plain tables in it have become documents, and one slot has been
written. -/
theorem Sound.assign (hs : Sound schemas h) (hd : d < h.size) {a : Option Arg}
    (hknown : h.Known a) (ha : ∀ a' ∈ a, MayAttach schemas h d k a') :
    wp (Orm.assign schemas d k a)
      (fun _ t => ∃ k' u v moved, (h.schema d).parseK schemas k = .ok k' ∧ Sound schemas u ∧
        h.Grown u moved ∧ (∀ x, Above u.parent x d → Above h.parent x d) ∧ u.Written t d k' v ∧
        (∀ c, v = some (.doc c) → u.parent c = none) ∧ Sound schemas t ∧ (a.isSome → v.isSome))
      (Sound schemas) h := by
  have hvalue {v : Option Value} (hv : ∀ c, v = some (.doc c) → c < h.size ∧
      (h.parent c = none → ¬ Above h.parent c d ∧ ∀ need,
        (h.schema d).index schemas k = some need → h.schema c = need ∧ need.IsSchema))
      (hsome : a.isSome → v.isSome) : wp (Orm.docChange schemas d k v)
      (fun _ t => ∃ k' u v moved, (h.schema d).parseK schemas k = .ok k' ∧ Sound schemas u ∧
        h.Grown u moved ∧ (∀ x, Above u.parent x d → Above h.parent x d) ∧ u.Written t d k' v ∧
        (∀ c, v = some (.doc c) → u.parent c = none) ∧ Sound schemas t ∧ (a.isSome → v.isSome))
      (Sound schemas) h := by
    refine wp_mono (hs.docChange hd hv) (fun _ t ht => ?_) fun _ ht => ht ▸ hs
    obtain ⟨k', hk, hw, hroot, hst⟩ := ht
    exact ⟨k', h, _, [], hk, hs, .refl h [], fun _ hx => hx, hw, fun c hc =>
      hroot c (stored_doc.mp hc), hst, fun ha => stored_isSome.trans (hsome ha)⟩
  cases a with
  | none => exact hvalue (v := none) (by rintro _ ⟨⟩) (by rintro ⟨⟩)
  | some a =>
    cases a with
    | scalar s => exact hvalue (v := some (.scalar s)) (by rintro _ ⟨⟩) fun _ => rfl
    | doc c =>
      refine hvalue (v := some (.doc c)) ?_ fun _ => rfl
      rintro _ ⟨⟩
      obtain ⟨hfits, hroot⟩ := ha _ rfl
      refine ⟨hknown _ rfl c List.mem_cons_self, fun hc => ⟨fun habove => ?_, fun need hn => ?_⟩⟩
      · exact hroot c List.mem_cons_self hc ((hs.mem_above hd).mpr habove)
      · unfold Arg.Fits at hfits
        obtain ⟨he, hi⟩ := hfits need hn
        exact ⟨he, hi⟩
    | table entries =>
      refine wp_bind (wp_get (wp_bind (wp_lift (fun k' hk => ?_) fun _ _ => hs)))
      obtain ⟨hcheck, hindex⟩ := SchemaType.parseK_spec hk
      obtain ⟨need, hi⟩ := SchemaType.index_of_checkK hcheck
      obtain ⟨hfits, hroot⟩ := ha _ rfl
      unfold Arg.Fits at hfits
      obtain ⟨hn, hf⟩ := hfits need (hindex ▸ hi)
      rw [hi]
      refine wp_seq (hs.newDoc hf (hknown _ rfl)) (fun _ ht => ht.1) fun c u hu => ?_
      obtain ⟨hsu, hg, hnew, hlt, hcroot, hcschema⟩ := hu
      have habove (x : Nat) (hx : Above u.parent x d) : Above h.parent x d :=
        hg.above hs hd (fun c hm hc hx => hroot c hm hc ((hs.mem_above hd).mpr hx)) hx
      have hdu := Nat.lt_of_lt_of_le hd hg.size
      have hschema := hg.schema d hd
      refine wp_mono (hsu.attach hdu hlt hcroot (fun hx => ?_) (hschema ▸ hcheck)
        (by rw [hschema, hcschema, hi]) (hcschema ▸ hn)) (fun _ t ht => ?_) fun _ he => he
      · exact absurd (hs.above_lt hd (habove c hx)) (Nat.not_lt.mpr hnew)
      · refine ⟨k', u, _, _, hk, hsu, hg, habove, ht.1, ?_, ht.2, fun _ => rfl⟩
        rintro _ ⟨⟩
        exact hcroot

theorem Sound.list_of_index (hs : Sound schemas h)
    (hcheck : h.slot d (.integer i) = none → (h.schema d).checkK schemas (.integer i) = .ok ()) :
    (h.schema d).keyType schemas = some .integer := by
  cases hslot : h.slot d (.integer i) with
  | none => exact SchemaType.checkK_integer (hcheck hslot)
  | some v => exact hs.keyed d i (by rw [hslot]; rfl)

theorem Heap.Written.above (hw : h.Written t d k v) (ht : t.Forest) (ha : Above t.parent x d) :
    Above h.parent x d := by
  induction ha with
  | refl => exact .refl _ _
  | @tail y z hy hz ih =>
    have hz' := hz
    rw [hw.parent] at hz
    split at hz
    · cases hz
      exact absurd hy ((ht.rooted y).not_above d hz')
    · split at hz
      · cases hz
      · exact Relation.ReflTransGen.tail ih hz

theorem Sound.restored {len : Nat} {x : Value} (hu : Sound schemas u) (ht : Sound schemas t)
    (hd : d < u.size) (hkey : (u.schema d).keyType schemas = some .integer)
    (hw : u.Written t d (.integer i) v) (hv : ∀ c, v = some (.doc c) → u.parent c = none)
    (hx : u.slot d (.integer i) = some x) (hi : i ≤ len)
    (hlen : u.slot d (.integer ↑(len + 1)) = none) :
    Sound schemas
      (((t.shiftUp d i (len - i)).move d (.integer ↑(i + 1)) (some x)).restore d x) := by
  have hkey' : (t.schema d).keyType schemas = some .integer := hw.schema d ▸ hkey
  have hempty : t.slot d (.integer ↑(len + 1)) = none := by
    rw [hw.slot, if_neg, hlen]
    rintro ⟨_, he⟩
    have he := Key.integer.inj he
    omega
  have hgap : Sound schemas ((t.shiftUp d i (len - i)).move d (.integer ↑(i + 1)) none) := by
    refine ht.rearranged hkey' (fun m => if m = i + 1 then none
      else if i + 2 ≤ m ∧ m ≤ i + ↑(len - i) + 1 then some (m - 1) else some m)
      (by simp) (by simp) (by simp) ?_ ?_ ?_ ?_ ?_
    · intro d' hd' k
      rw [Heap.slot_move, if_neg fun he => hd' he.1, (Heap.shift_slot_other hd').1]
    · intro s
      rw [Heap.slot_move, if_neg, (t.slot_shift_string d i _ s).1]
      rintro ⟨_, ⟨⟩⟩
    · intro m
      rw [Heap.slot_move, Heap.slot_shiftUp]
      by_cases hm : m = ↑i + 1
      · rw [if_pos ⟨rfl, by rw [hm]; rfl⟩, if_pos hm]
        rfl
      · rw [if_neg fun he => hm (Key.integer.inj he.2), if_neg hm]
        split <;> rfl
    · intro m m' j hm hm'
      grind
    · intro j hj
      have hne : j ≠ len + 1 := by
        rintro rfl
        have hempty : t.slot d (.integer (↑len + 1)) = none := hempty
        rw [hempty] at hj
        cases hj
      by_cases hrange : i + 1 ≤ j ∧ j ≤ len
      · refine ⟨j + 1, ?_⟩
        rw [if_neg (by omega), if_pos (by omega)]
        congr 1
        omega
      · exact ⟨j, by rw [if_neg (by omega), if_neg (by omega)]⟩
  have hback : Heap.Written ((t.shiftUp d i (len - i)).move d (.integer ↑(i + 1)) none)
      (((t.shiftUp d i (len - i)).move d (.integer ↑(i + 1)) (some x)).restore d x) d
      (.integer ↑(i + 1)) (some x) := by
    constructor
    case size => simp
    case schema => simp
    case parent => simp
    case slot =>
      intro d' k'
      simp only [Heap.slot_restore, Heap.slot_move]
      split <;> rfl
  refine hgap.written (by simpa [hw.size] using hd) ?_ hback ?_
  · simpa using (SchemaType.keyType_integer hkey' _).1
  · rintro c ⟨⟩
    obtain ⟨hi', hn⟩ := hu.typed d _ c hx
    have hp : u.parent c = some d := (hu.forest.parent_iff c d).mpr ⟨_, hx⟩
    have hvc : v ≠ some (.doc c) := fun he => by cases (hv c he).symm.trans hp
    have hroot : t.parent c = none := by rw [hw.parent, if_neg hvc, if_pos hx]
    refine ⟨by simpa [hw.size] using hu.known d _ c hx, by simpa using hroot, fun ha => ?_, ?_, ?_⟩
    · have ha : Above t.parent c d := ha.mono fun y z hy => by simpa using hy
      exact (hu.forest.rooted c).not_above d hp (hw.above ht.forest ha)
    · simp only [Heap.schema_move, Heap.schema_shiftUp, hw.schema]
      rw [← hi']
      exact SchemaType.index_container hkey _ _
    · simpa [hw.schema] using hn

theorem Sound.insertAt {len : Nat} {a : Option Arg} (hs : Sound schemas h) (hd : d < h.size)
    (hlen : h.IsLen d len) (hi : 1 ≤ i ∧ i ≤ len + 1) (hknown : h.Known a)
    (ha : ∀ a' ∈ a, MayAttach schemas h d (.integer 1) a')
    (hfull : i ≤ len → (h.slot d (.integer i)).isSome) :
    wp (insertAt schemas d len i a) (fun _ t => Sound schemas t) (Sound schemas) h := by
  refine wp_seq (wp_index schemas h d (.integer i)) (fun _ ht => ht.1 ▸ hs) fun lv t ht => ?_
  obtain ⟨rfl, rfl, hcheck⟩ := ht
  have hkey := hs.list_of_index hcheck
  have hmay : ∀ a' ∈ a, MayAttach schemas t d (.integer i) a' := fun a' ha' => by
    unfold MayAttach
    rw [SchemaType.index_container hkey (.integer i) (.integer 1)]
    exact ha a' ha'
  refine wp_bind (wp_get ?_)
  refine wp_seq (hs.assign hd hknown hmay) (fun _ hu => hu) fun _ w hw => ?_
  obtain ⟨k', u, v, moved, hk, hsu, hg, _, hw, hv, hsw, _⟩ := hw
  cases (SchemaType.keyType_integer hkey i).2.symm.trans hk
  have hdu := Nat.lt_of_lt_of_le hd hg.size
  have hmark {z : Heap} (hz : Sound schemas z) (hsize : z.size = u.size) :
      wp (do
        let h ← get
        if (h.docs d).revision = (t.docs d).revision then Orm.markDirty d)
        (fun _ t => Sound schemas t) (Sound schemas) z := by
    refine wp_bind (wp_get ?_)
    split
    · exact wp_mono (hz.markDirty (hsize ▸ hdu)) (fun _ _ hm => hz.congr hm) fun _ he => he
    · exact wp_pure _ hz
  refine wp_bind (wp_modify _ ?_)
  rcases Nat.lt_or_ge len i with hlt | hle
  · obtain rfl : i = len + 1 := by omega
    have hzero : len - (len + 1) = 0 := by omega
    rw [hlen.2, hzero]
    exact wp_bind (wp_pure _ (hmark hsw hw.size))
  · obtain ⟨x, hx⟩ := Option.isSome_iff_exists.mp (hfull hle)
    rw [hx]
    refine wp_bind (wp_modify _ (hmark ?_ ?_))
    · refine hsu.restored hsw hdu ((hg.schema d hd).symm ▸ hkey) hw hv
        ((hg.slot d hd _).trans hx) hle ((hg.slot d hd _).trans hlen.2)
    · simp [hw.size]

theorem position_spec {len : Nat} {a : Option Arg} (hp : position len a = .ok i) :
    1 ≤ i ∧ i ≤ len + 1 := by
  unfold position at hp
  split at hp
  · split at hp
    · split at hp
      · cases hp
        omega
      · cases hp
    · cases hp
  · split at hp <;> cases hp
  · cases hp

theorem Sound.insert {len : Nat} {index a : Option Arg} (hs : Sound schemas h)
    (he : h.Enabled (.insert d len index a)) (hok : InForest schemas h (.insert d len index a)) :
    wp (insert schemas d len index a) (fun _ t => Sound schemas t) (Sound schemas) h := by
  obtain ⟨hd, hlen, hindex, hknown⟩ := he
  obtain ⟨ha, hfull⟩ := hok
  cases a with
  | none =>
    exact hs.insertAt hd hlen ⟨Nat.succ_pos _, Nat.le_refl _⟩ hindex (fun a' ha' => (ha a' ha').1)
      fun hle => absurd hle (Nat.not_succ_le_self _)
  | some a =>
    refine wp_bind (wp_lift (fun i hi => ?_) fun _ _ => hs)
    refine hs.insertAt hd hlen (position_spec hi) hknown (fun a' ha' => (ha a' ?_).1)
      (hfull rfl i (by rw [hi]; rfl))
    exact ha'

theorem Sound.closed {len : Nat} (ht : Sound schemas t)
    (hkey : (t.schema d).keyType schemas = some .integer)
    (hempty : t.slot d (.integer i) = none) (hi : i ≤ len) :
    Sound schemas ((t.shiftDown d i (len - i)).move d (.integer len) none) := by
  refine ht.rearranged hkey (fun m => if m = len then none
    else if i ≤ m ∧ m < i + ↑(len - i) then some (m + 1) else some m)
    (by simp) (by simp) (by simp) ?_ ?_ ?_ ?_ ?_
  · intro d' hd' k
    rw [Heap.slot_move, if_neg fun he => hd' he.1, (Heap.shift_slot_other hd').2]
  · intro s
    rw [Heap.slot_move, if_neg, (t.slot_shift_string d i _ s).2]
    rintro ⟨_, ⟨⟩⟩
  · intro m
    rw [Heap.slot_move, Heap.slot_shiftDown]
    by_cases hm : m = len
    · rw [if_pos ⟨rfl, by rw [hm]⟩, if_pos hm]
      rfl
    · rw [if_neg fun he => hm (Key.integer.inj he.2), if_neg hm]
      split <;> rfl
  · intro m m' j hm hm'
    grind
  · intro j hj
    have hne : j ≠ i := by
      rintro rfl
      rw [hempty] at hj
      cases hj
    by_cases hrange : i < j ∧ j ≤ len
    · refine ⟨j - 1, ?_⟩
      rw [if_neg (by omega), if_pos (by omega)]
      congr 1
      omega
    · exact ⟨j, by rw [if_neg (by omega), if_neg (by omega)]⟩

theorem Sound.remove {len : Nat} {index : Option Arg} (hs : Sound schemas h) (hd : d < h.size) :
    wp (remove schemas d len index) (fun _ t => Sound schemas t) (Sound schemas) h := by
  refine wp_bind (wp_lift (fun i _ => ?_) fun _ _ => hs)
  split
  · exact wp_pure _ hs
  · next hi =>
    obtain ⟨hpos, hle⟩ := not_or.mp hi
    refine wp_seq (wp_index schemas h d (.integer i)) (fun _ ht => ht.1 ▸ hs) fun lv t ht => ?_
    obtain ⟨rfl, rfl, hcheck⟩ := ht
    have hkey := hs.list_of_index hcheck
    refine wp_seq (hs.docChange hd (by rintro _ ⟨⟩)) (fun _ hu => hu ▸ hs) fun _ u hu => ?_
    obtain ⟨k', hk, hw, _, hsu⟩ := hu
    cases (SchemaType.keyType_integer hkey i).2.symm.trans hk
    refine wp_bind (wp_modify _ (wp_pure _ ?_))
    refine hsu.closed (hw.schema d ▸ hkey) ?_ (Nat.not_lt.mp hle)
    rw [hw.slot, if_pos ⟨rfl, rfl⟩, stored_nil]

/-- Every operation within the conditions returns, and keeps the forest. -/
theorem Sound.run (hs : Sound schemas h) {a : Action} (he : h.Enabled a)
    (hok : InForest schemas h a) :
    wp (run schemas a) (fun _ t => Sound schemas t) (Sound schemas) h := by
  cases a with
  | new schema init =>
    exact wp_seq (hs.new hok.1 he) (fun _ ht => ht) fun _ _ ht => wp_pure _ ht
  | assign d k v =>
    refine wp_mono (hs.assign he.1 he.2 fun a ha => (hok.2 a ha).1)
      (fun _ t ht => ?_) fun _ ht => ht
    obtain ⟨_, _, _, _, _, _, _, _, _, _, hst, _⟩ := ht
    exact hst
  | insert d len index v => exact hs.insert he hok
  | remove d len index =>
    exact wp_seq (hs.remove he.1) (fun _ ht => ht) fun _ _ ht => wp_pure _ ht
  | clone d =>
    exact wp_seq (Clones.cloneDoc schemas h d hs he) (fun _ ht => ht.1) fun _ _ ht => wp_pure _ ht.1

theorem Sound.step (hs : Sound schemas h) {a : Action} (hok : InForest schemas h a)
    (ht : step schemas h a = some t) : Sound schemas t := by
  obtain ⟨he, ht⟩ := Option.ite_none_right_eq_some.mp ht
  obtain ⟨⟨r, t'⟩, hrun, rfl⟩ := Option.map_eq_some_iff.mp ht
  obtain ⟨r', u, hu, hsu⟩ := (hs.run he hok).result
  cases hrun.symm.trans hu
  exact hsu.elim (fun ⟨_, hsu⟩ => hsu) id

theorem mapM_ok {f : α → Except ε β} {l : List α} (hf : ∀ x ∈ l, ∃ y, f x = .ok y) :
    ∃ ys, l.mapM f = .ok ys := by
  induction l with
  | nil => exact ⟨[], rfl⟩
  | cons x l ih =>
    obtain ⟨y, hy⟩ := hf x List.mem_cons_self
    obtain ⟨ys, hys⟩ := ih fun x hx => hf x (List.mem_cons_of_mem _ hx)
    refine ⟨y :: ys, ?_⟩
    rw [List.mapM_cons, hy, hys]
    rfl

/-- The copy of a document ends: each step down makes the path to the root longer. -/
theorem Sound.copyBsonFrom (hs : Sound schemas h) {l : List Nat} (hl : Path h.parent d l)
    (hd : d < h.size) (hn : h.size < l.length + n) :
    ∃ b, copyBsonFrom schemas n h d = .ok b := by
  have hlen := hl.length_le fun x hx => hs.above_lt hd (hl.mem_iff.mp hx)
  induction n generalizing d l with
  | zero => exact absurd hn (Nat.not_lt.mpr hlen)
  | succ n ih =>
    obtain ⟨entries, hentries⟩ : ∃ entries, (h.docs d).stage.entries.mapM
        (copyEntry schemas (h.schema d) (Orm.copyBsonFrom schemas n h)) = .ok entries := by
      refine mapM_ok fun e he => ?_
      obtain ⟨k, v⟩ := e
      cases v with
      | scalar s => exact ⟨_, rfl⟩
      | doc c =>
        have hslot : h.slot d k = some (.doc c) := AList.mem_lookup_iff.mpr he
        have hp := (hs.forest.parent_iff c d).mpr ⟨k, hslot⟩
        have hc := hs.known d k c hslot
        have hpath : Path h.parent c (c :: l) := .child hp hl
        have hlen := hpath.length_le fun x hx => hs.above_lt hc (hpath.mem_iff.mp hx)
        obtain ⟨b, hb⟩ := ih hpath hc (by rw [List.length_cons]; omega) hlen
        exact ⟨_, by simp only [copyEntry, hb]; rfl⟩
    exact ⟨_, by rw [Orm.copyBsonFrom, hentries]; rfl⟩

theorem Heap.dirty_foldl_touch {l : List Nat} (hx : x ∈ l ∨ (h.docs x).dirty = true) :
    ((l.foldl Heap.touch h).docs x).dirty = true := by
  induction l generalizing h with
  | nil => exact hx.resolve_left (by rintro ⟨⟩)
  | cons d l ih =>
    refine ih ?_
    by_cases hd : x = d
    · exact .inr (by simp [Heap.touch, Heap.modify, hd])
    · refine hx.imp (fun hx => (List.mem_cons.mp hx).resolve_left hd) fun hx => ?_
      simpa [Heap.touch, Heap.modify, hd] using hx

/-- The documents are a forest; so a change is marked up to the root of its tree, and what is
encoded has no cycle. -/
structure Contained (schemas : Schemas) (h : Heap) : Prop where
  forest : h.Forest
  marks : ∀ d, d < h.size → ∃ t r, markDirty d h = some (.ok (), t) ∧ Above h.parent r d ∧
    h.parent r = none ∧ (t.docs r).dirty = true
  encodes : ∀ d, d < h.size → ∃ b, toBson schemas h d = .ok b

theorem Sound.contained (hs : Sound schemas h) : Contained schemas h := by
  constructor
  case forest => exact hs.forest
  case marks =>
    intro d hd
    obtain ⟨l, hl⟩ := (hs.forest.rooted d).path
    have hlen := hl.length_le fun x hx => hs.above_lt hd (hl.mem_iff.mp hx)
    obtain ⟨r, hr, hroot⟩ := (hs.forest.rooted d).exists_root
    refine ⟨l.foldl Heap.touch h, r, ?_, hr, hroot, Heap.dirty_foldl_touch (.inl ?_)⟩
    · simp only [Orm.markDirty, Heap.markDirtyFrom_eq hl hlen, Option.map_some]
    · exact hl.mem_iff.mpr hr
  case encodes =>
    intro d hd
    obtain ⟨l, hl⟩ := (hs.forest.rooted d).path
    have hpos := hl.length_pos
    exact hs.copyBsonFrom hl hd (by omega)

theorem Sound.initial (hi : (system schemas).init h) : Sound schemas h := by
  obtain ⟨hsize, hslot, hparent⟩ := hi
  constructor
  case forest =>
    constructor
    case parent_iff =>
      intro x d
      simp only [hparent, hslot]
      exact ⟨by rintro ⟨⟩, by rintro ⟨_, ⟨⟩⟩⟩
    case once =>
      intro x d k d' k' hk
      cases (hslot d k).symm.trans hk
    case rooted => exact fun x => .root (hparent x)
  case known =>
    intro d k c hk
    cases (hslot d k).symm.trans hk
  case unused => exact fun d _ k => hslot d k
  case typed =>
    intro d k c hk
    cases (hslot d k).symm.trans hk
  case keyed =>
    intro d n hn
    rw [hslot] at hn
    cases hn

theorem Sound.of_reaches (hr : (system schemas).Reaches (InForest schemas) h) : Sound schemas h :=
  hr.invariant (fun _ hi => .initial hi) fun _ _ _ hs hok ht => hs.step hok ht

/-- Containment stays a forest, and every operation returns. -/
theorem containment_forest (hr : (system schemas).Reaches (InForest schemas) h) :
    Contained schemas h ∧
      ∀ a, h.Enabled a → InForest schemas h a → (step schemas h a).isSome := by
  refine ⟨(Sound.of_reaches hr).contained, fun a he hok => ?_⟩
  obtain ⟨r, t, hrun, _⟩ := ((Sound.of_reaches hr).run he hok).result
  simp only [step, if_pos he, hrun, Option.map_some, Option.isSome_some]

/-- A generated schema with a structure that contains itself and a list. -/
def roleSchemas : Schemas := fun name =>
  if name = "role" then
    some (.struct [("sub", .schema "role"), ("items", .schema "arr_item"),
      ("best", .schema "item")])
  else if name = "item" then some (.struct [("count", .integer)])
  else if name = "arr_item" then some (.array (.schema "item"))
  else none

def emptyHeap : Heap := ⟨0, fun _ => ⟨.integer, none, ∅, [], false, false, 0⟩⟩

theorem emptyHeap_init : (system roleSchemas).init emptyHeap :=
  ⟨rfl, fun _ _ => rfl, fun _ => rfl⟩

def item (count : Nat) : Arg := .table [(.string "count", .scalar (.number (.integer count)))]

/-- A role with three items. -/
def threeItems : Action :=
  .new (.schema "role") [(.string "items", .table [(.integer 1, item 1), (.integer 2, item 2),
    (.integer 3, item 3)])]

/-- The second item goes to another place, and a new one before the first. -/
def moveItems : List Action :=
  [threeItems, .remove 1 3 (some (.scalar (.number (.integer 2)))),
    .assign 0 (.string "best") (some (.doc 3)),
    .insert 1 2 (some (.scalar (.number (.integer 1)))) (some (item 4)), .clone 0]

theorem containment_forest_moved :
    Contained roleSchemas ((system roleSchemas).run (InForest roleSchemas) emptyHeap moveItems
      (by decide +kernel)) :=
  (containment_forest ((system roleSchemas).run_reaches (InForest roleSchemas) _ emptyHeap_init
    (by decide +kernel))).1

/-- An item is assigned where a role is declared, and the error is caught. -/
def wrongType : List Action :=
  [.new (.schema "role") [], .new (.schema "item") [], .assign 0 (.string "sub") (some (.doc 1))]

theorem stale_parent : ∃ s, (system roleSchemas).Reaches Machine.anyStep s ∧ ¬ s.Forest := by
  refine ⟨_, (system roleSchemas).run_reaches Machine.anyStep wrongType emptyHeap_init
    (by decide +kernel), fun hf => ?_⟩
  obtain ⟨k, hk⟩ := (hf.parent_iff 1 0).mp (by decide +kernel)
  have hempty : (((system roleSchemas).run Machine.anyStep emptyHeap wrongType
      (by decide +kernel)).docs 0).stage.entries = [] := by decide +kernel
  simp only [Heap.slot, AList.lookup, hempty, List.dlookup_nil] at hk
  cases hk

/-- A role is assigned to a role that it contains: `mark_dirty` never ends. -/
theorem attached_below_itself : ∃ s, (system roleSchemas).Reaches Machine.anyStep s ∧
    s.Enabled (.assign 1 (.string "sub") (some (.doc 0))) ∧
      step roleSchemas s (.assign 1 (.string "sub") (some (.doc 0))) = none := by
  refine ⟨_, (system roleSchemas).run_reaches Machine.anyStep
    [.new (.schema "role") [(.string "sub", .table [])]] emptyHeap_init (by decide +kernel),
    by decide +kernel, ?_⟩
  exact Option.isNone_iff_eq_none.mp (by decide +kernel)

/-- An item is inserted at an empty position, and the one behind it is there twice. -/
theorem element_doubled : ∃ s, (system roleSchemas).Reaches Machine.anyStep s ∧ ¬ s.Forest := by
  refine ⟨_, (system roleSchemas).run_reaches Machine.anyStep
    [threeItems, .assign 1 (.integer 2) none, .insert 1 3 (some (.scalar (.number (.integer 2))))
      (some (item 4))]
    emptyHeap_init (by decide +kernel), fun hf => ?_⟩
  obtain ⟨_, hk⟩ := hf.once 4 1 (.integer 3) 1 (.integer 4) (by decide +kernel) (by decide +kernel)
  cases hk

end Skyext.Orm
