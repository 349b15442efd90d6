import Skyext.Fs.Walk

namespace Skyext
set_option autoImplicit true

namespace Fs

/-- Files with more at and below a place: what is elsewhere, directories and links stay. -/
structure Grows (fs : Files) (m : Loc) (fs' : Files) : Prop where
  ok : fs'.Ok
  cwd : fs'.cwd = fs.cwd
  outside : ∀ x, ¬ m <+: x → fs'.kind x = fs.kind x
  dirs : ∀ x, fs.kind x = some .dir → fs'.kind x = some .dir
  links : ∀ x target, fs'.kind x = some (.link target) ↔ fs.kind x = some (.link target)

/-- Names below a directory that make a relative path. -/
structure Rel (rel : List Text) : Prop where
  names : ∀ c ∈ rel, Name c
  drive : ∀ c more, rel = c :: more → more ≠ [] → isDrive c = false

/-- The path that the copies of a directory's entries are put in. -/
def dirPath (q : Text) (pre : List Text) : Text :=
  if pre = [] then q else join [q, joined [] pre]

section Grows

variable {fs fs' fs'' : Files} {m y : Loc} {c : Text}

theorem Grows.refl (hfs : fs.Ok) (m : Loc) : Grows fs m fs :=
  ⟨hfs, rfl, fun _ _ => rfl, fun _ h => h, fun _ _ => .rfl⟩

theorem Grows.trans (h : Grows fs m fs') (h' : Grows fs' m fs'') : Grows fs m fs'' :=
  ⟨h'.ok, h'.cwd.trans h.cwd, fun x hx => (h'.outside x hx).trans (h.outside x hx),
    fun x hx => h'.dirs x (h.dirs x hx), fun x t => (h'.links x t).trans (h.links x t)⟩

theorem Files.Ok.put (hfs : fs.Ok) (hy : fs.kind y = some .dir)
    (hc : isName c = true ∧ slash ∉ c) {k : Kind} (hk : ∀ target, k = .link target → target ≠ [])
    (hold : fs.kind (y ++ [c]) ≠ some .dir) : (fs.put (y ++ [c]) (some k)).Ok := by
  obtain ⟨hcovers, hnodup⟩ := hfs.put_locs (y ++ [c]) (some k)
  have hself : (fs.put (y ++ [c]) (some k)).kind (y ++ [c]) = some k := Function.update_self _ _ _
  have hother {x : Loc} (hx : x ≠ y ++ [c]) :
      (fs.put (y ++ [c]) (some k)).kind x = fs.kind x := Function.update_of_ne hx _ _
  have hdirs (x : Loc) (hx : fs.kind x = some .dir) :
      (fs.put (y ++ [c]) (some k)).kind x = some .dir := by
    rw [hother]
    · exact hx
    · rintro rfl
      exact hold hx
  refine ⟨?_, fun x d h => ?_, fun x d h => ?_, fun x target h => ?_, hcovers, hnodup⟩
  · rw [hother (by simp)]
    exact hfs.root
  · by_cases hx : x ++ [d] = y ++ [c]
    · obtain ⟨rfl, -⟩ := List.append_inj' hx rfl
      exact hdirs x hy
    · rw [hother hx] at h
      exact hdirs x (hfs.parent x d h)
  · by_cases hx : x ++ [d] = y ++ [c]
    · obtain ⟨rfl, heq⟩ := List.append_inj' hx rfl
      cases heq
      exact hc
    · rw [hother hx] at h
      exact hfs.name x d h
  · by_cases hx : x = y ++ [c]
    · rw [hx, hself] at h
      exact hk target (Option.some.inj h)
    · rw [hother hx] at h
      exact hfs.link x target h

theorem Grows.put (hfs : fs.Ok) (hy : fs.kind y = some .dir) (hc : isName c = true ∧ slash ∉ c)
    {k : Kind}
    (hk : ∀ target, k ≠ .link target) (hold : fs.kind (y ++ [c]) ≠ some .dir)
    (hlink : ∀ target, fs.kind (y ++ [c]) ≠ some (.link target)) (hm : m <+: y ++ [c]) :
    Grows fs m (fs.put (y ++ [c]) (some k)) := by
  have hother {x : Loc} (hx : x ≠ y ++ [c]) :
      (fs.put (y ++ [c]) (some k)).kind x = fs.kind x := Function.update_of_ne hx _ _
  refine ⟨hfs.put hy hc (fun target h => absurd h (hk target)) hold, rfl, fun x hx => hother ?_,
    fun x hx => ?_, fun x target => ?_⟩
  · rintro rfl
    exact hx hm
  · rw [hother]
    · exact hx
    · rintro rfl
      exact hold hx
  · by_cases hx : x = y ++ [c]
    · have hself : (fs.put (y ++ [c]) (some k)).kind (y ++ [c]) = some k :=
        Function.update_self _ _ _
      rw [hx, hself]
      exact iff_of_false (fun h => hk target (Option.some.inj h)) (hlink target)
    · rw [hother hx]

theorem Grows.new (hfs : fs.Ok) (hy : fs.kind y = some .dir) (hc : isName c = true ∧ slash ∉ c)
    {k : Kind} (hk : ∀ target, k ≠ .link target) (hnone : fs.kind (y ++ [c]) = none)
    (hm : m <+: y ++ [c]) : Grows fs m (fs.put (y ++ [c]) (some k)) :=
  .put hfs hy hc hk (by simp [hnone]) (by simp [hnone]) hm

theorem Grows.reaches {q : Text} (h : Grows fs m fs') (hq : Reaches fs q y) : Reaches fs' q y :=
  hq.mono h.cwd h.dirs fun x target hx => (h.links x target).mpr hx

end Grows

section Paths

variable {fs : Files} {q c x : Text} {m : Loc} {pre : List Text}

theorem isAbsolute_drive (hne : c ≠ []) (hc : ∀ b ∈ c, isSeparator b = false) (y : Text) :
    isAbsolute (c ++ slash :: y) = isDrive c := by
  have hslash : isSeparator slash = true := rfl
  rcases c with _ | ⟨a, _ | ⟨b, _ | ⟨d, rest⟩⟩⟩
  · exact absurd rfl hne
  · cases y with
    | nil => simp [isAbsolute, isDrive, hc]
    | cons e y => simp [isAbsolute, isDrive, hc, slash]
  · simp [isAbsolute, isDrive, hc, hslash]
  · simp [isAbsolute, isDrive, hc]

theorem joined_snoc (pre : List Text) (c : Text) :
    joined [] (pre ++ [c]) = relativeTo (joined [] pre) c := by
  rw [joined, List.foldl_append]
  rfl

theorem joined_ne_nil (hpre : pre ≠ []) (hnames : ∀ c ∈ pre, Name c) : joined [] pre ≠ [] := by
  cases pre using List.reverseRecOn with
  | nil => exact absurd rfl hpre
  | append_singleton pre c =>
    rw [joined_snoc]
    exact relativeTo_ne_nil (hnames c (by simp)).ne_nil _

theorem joined_plain (hnames : ∀ c ∈ pre, Name c) : Plain (joined [] pre) := by
  induction pre using List.reverseRecOn with
  | nil => simp [joined, Plain]
  | append_singleton pre c ih =>
    have hpre := ih fun d hd => hnames d (List.mem_append_left _ hd)
    have hc := (hnames c (by simp)).plain
    rw [joined_snoc, relativeTo]
    split
    · exact hc
    · refine hpre.append fun hmem => ?_
      rcases List.mem_cons.mp hmem with h | h
      · exact absurd h (by decide)
      · exact hc h

theorem joined_cons (c : Text) (more : List Text) (hc : c ≠ []) :
    joined [] (c :: more) = c ∨ more ≠ [] ∧ ∃ y, joined [] (c :: more) = c ++ slash :: y := by
  induction more using List.reverseRecOn with
  | nil => exact .inl rfl
  | append_singleton more d ih =>
    right
    have hsnoc : c :: (more ++ [d]) = (c :: more) ++ [d] := rfl
    refine ⟨by simp, ?_⟩
    rw [hsnoc, joined_snoc]
    rcases ih with h | ⟨-, y, h⟩
    · exact ⟨d, by rw [h, relativeTo, if_neg hc]⟩
    · refine ⟨y ++ slash :: d, ?_⟩
      rw [h, relativeTo, if_neg (by simp), List.append_assoc, List.cons_append]

theorem Rel.not_absolute (h : Rel pre) : isAbsolute (joined [] pre) = false := by
  cases pre with
  | nil => rfl
  | cons c more =>
    have hc := h.names c List.mem_cons_self
    rcases joined_cons c more hc.ne_nil with heq | ⟨hmore, y, heq⟩
    · rw [heq]
      exact isAbsolute_plain hc.no_separator
    · rw [heq, isAbsolute_drive hc.ne_nil hc.no_separator]
      exact h.drive c more rfl hmore

theorem Rel.of_append {rel : List Text} (h : Rel (pre ++ rel)) : Rel pre := by
  refine ⟨fun c hc => h.names c (List.mem_append_left _ hc), fun c more heq hmore => ?_⟩
  refine h.drive c (more ++ rel) (by rw [heq, List.cons_append]) ?_
  simp [hmore]

/-- The path of a copy. -/
theorem Rel.path (h : Rel pre) (hpre : pre ≠ []) (hq : Plain q) (hne : q ≠ []) :
    join [q, joined [] pre] = stripLast q ++ slash :: joined [] pre :=
  join_append hq hne (joined_plain h.names) (joined_ne_nil hpre h.names) h.not_absolute

theorem Rel.join_snoc (h : Rel (pre ++ [c])) (hq : Plain q) (hne : q ≠ []) :
    join [q, joined [] (pre ++ [c])] = join [dirPath q pre, c] := by
  have hpath := h.path (by simp) hq hne
  have hname := h.names c (by simp)
  rw [dirPath]
  split
  · next hnil =>
    rw [hnil]
    rfl
  · next hpre =>
    have hrel := h.of_append
    have hlast : stripLast (join [q, joined [] pre]) = join [q, joined [] pre] := by
      rw [hrel.path hpre hq hne]
      cases pre using List.reverseRecOn with
      | nil => exact absurd rfl hpre
      | append_singleton pre d =>
        have hd := hrel.names d (by simp)
        rw [joined_snoc, relativeTo]
        split
        · exact stripLast_append_name hd _
        · have hassoc : stripLast q ++ slash :: (joined [] pre ++ slash :: d) =
              (stripLast q ++ slash :: joined [] pre) ++ slash :: d := by simp
          rw [hassoc]
          exact stripLast_append_name hd _
    have hnonempty : join [q, joined [] pre] ≠ [] := by
      rw [hrel.path hpre hq hne]
      simp
    rw [hpath, join_append (plain_join q _) hnonempty hname.plain hname.ne_nil
      (isAbsolute_plain hname.no_separator), hlast, hrel.path hpre hq hne, joined_snoc, relativeTo,
      if_neg (joined_ne_nil hpre hrel.names), List.append_assoc, List.cons_append]

end Paths

section Mkdir

variable {fs fs' : Files} {path d c x : Text} {l : Loc}

theorem Walks.keep {n k : Nat} {xs : List Text} (w : Walks fs n l xs k m)
    (hm : fs.kind m ≠ none) : ∃ y, fs.resolveFrom .keep n l xs = some y ∧ fs.kind y ≠ none := by
  induction w with
  | nil => exact ⟨_, resolveFrom_nil _ _ _, hm⟩
  | skip h w ih =>
    rw [resolveFrom_skip h]
    exact ih hm
  | up w ih =>
    rw [resolveFrom_up]
    exact ih hm
  | dir h hup hk w ih =>
    rw [resolveFrom_name h hup, hk]
    exact ih hm
  | @link c l _ _ xs _ _ h hup hk w ih =>
    rw [resolveFrom_name h hup, hk]
    by_cases hxs : xs = []
    · refine ⟨l ++ [c], by simp [hxs], ?_⟩
      rw [hk]
      simp
    · obtain ⟨y, hy, hky⟩ := ih hm
      exact ⟨y, by simpa [hxs, linkFrom] using hy, hky⟩

/-- A directory is there also without the slash at the end of its path. -/
theorem Reaches.mode_strip (h : Reaches fs d l) :
    stripLast d = [] ∨ fs.mode (stripLast d) ≠ none := by
  obtain ⟨k, w⟩ := h.walks
  obtain ⟨y, hy, hky⟩ := w.keep (by rw [h.dir]; simp)
  by_cases hnil : stripLast d = []
  · exact .inl hnil
  right
  have hstart : fs.start (stripLast d) = fs.start d := by
    have hrooted : isRooted (stripLast d) = isRooted d := by
      cases hs : stripLast d with
      | nil => exact absurd hs hnil
      | cons b rest =>
        have hjoin := isRooted_stripLast h.plain h.ne_nil []
        rw [hs] at hjoin
        exact hjoin
    rw [Files.start, Files.start, hrooted]
  rw [Files.mode, Files.resolve, if_neg hnil, hstart, hy, Option.bind_some]
  simpa using hky

theorem parentOf_append (hc : Name c) (x : Text) : parentOf (x ++ slash :: c) = some x := by
  have htake : (x ++ slash :: c).reverse.takeWhile (!isSeparator ·) = c.reverse := by
    rw [List.reverse_append, List.reverse_cons, List.append_assoc]
    rw [List.takeWhile_append_of_pos fun b hb => by
      simp [hc.no_separator b (List.mem_reverse.mp hb)]]
    simp [isSeparator]
  rw [parentOf, htake]
  simp [hc.ne_nil]

theorem parentOf_plain (hp : Plain path) (h : parentOf path = some x) : Plain x := by
  rw [parentOf] at h
  split at h
  · cases h
  · next hdrop =>
    split at h
    · cases h
    · cases h
      intro hmem
      exact hp (List.mem_reverse.mp (List.mem_of_mem_drop
        (hdrop ▸ List.mem_cons_of_mem _ (List.mem_reverse.mp hmem))))

theorem mkdirFrom_there (n : Nat) (hp : Plain path) (h : fs.mode path ≠ none) :
    (mkdirFrom n path fs).2 = fs := by
  cases n with
  | zero => rfl
  | succ n =>
    rw [mkdirFrom, native_plain hp]
    cases hm : fs.mode path with
    | none => exact absurd hm h
    | some mode => rfl

/-- `M.mkdir` where the parent is there, which it does not change. -/
theorem mkdir_none (hp : Plain path) (hm : fs.mode path = none)
    (hparent : ∀ x, parentOf path = some x → x = [] ∨ fs.mode x ≠ none) :
    mkdir path fs = (false, fs) ∨
      ∃ fs', fs.mkdir path = some fs' ∧ mkdir path fs = (true, fs') := by
  have hcases : fs.mkdir path = none ∨ ∃ fs', fs.mkdir path = some fs' := by
    cases fs.mkdir path with
    | none => exact .inl rfl
    | some fs' => exact .inr ⟨fs', rfl⟩
  rw [mkdir, mkdirFrom, native_plain hp, hm]
  simp only
  cases hx : parentOf path with
  | none => rcases hcases with hmk | ⟨fs', hmk⟩ <;> simp [hmk, hm]
  | some x =>
    by_cases hsame : x = [] ∨ x = path
    · simp only [if_pos hsame]
      rcases hcases with hmk | ⟨fs', hmk⟩ <;> simp [hmk, hm]
    by_cases hdrive : isDrive x = true
    · simp only [if_neg hsame, if_pos hdrive]
      split
      · rcases hcases with hmk | ⟨fs', hmk⟩ <;> simp [hmk, hm]
      · exact .inl rfl
    · have hthere := (hparent x hx).resolve_left fun h => hsame (.inl h)
      simp only [if_neg hsame, if_neg hdrive,
        mkdirFrom_there path.length (parentOf_plain hp hx) hthere]
      split
      · rcases hcases with hmk | ⟨fs', hmk⟩ <;> simp [hmk, hm]
      · exact .inl rfl

theorem mkdir_cases (hp : Plain path)
    (hparent : ∀ x, parentOf path = some x → x = [] ∨ fs.mode x ≠ none) :
    (mkdir path fs).2 = fs ∧ ((mkdir path fs).1 = true → fs.mode path = some .directory) ∨
      fs.mode path = none ∧ fs.mkdir path = some (mkdir path fs).2 := by
  cases hm : fs.mode path with
  | some mode =>
    have hrun : mkdir path fs = (decide (mode = Mode.directory), fs) := by
      rw [mkdir, mkdirFrom, native_plain hp, hm]
    rw [hrun]
    exact .inl ⟨rfl, fun h => congrArg some (of_decide_eq_true h)⟩
  | none =>
    rcases mkdir_none hp hm hparent with hrun | ⟨fs', hmk, hrun⟩
    · rw [hrun]
      exact .inl ⟨rfl, fun h => absurd h Bool.false_ne_true⟩
    · rw [hrun]
      exact .inr ⟨rfl, hmk⟩

end Mkdir

section Items

variable {fs fs' : Files} {d q c source : Text} {l m : Loc} {pre : List Text}

theorem Reaches.parentOf_name (h : Reaches fs d l) (hc : Name c) :
    parentOf (join [d, c]) = some (stripLast d) := by
  rw [h.join_name hc, parentOf_append hc]

theorem mkdir_child (hfs : fs.Ok) (h : Reaches fs d l) (hc : Name c) (hm : m <+: l ++ [c]) :
    Grows fs m (mkdir (join [d, c]) fs).2 ∧ ((mkdir (join [d, c]) fs).1 = true →
      (mkdir (join [d, c]) fs).2.kind (l ++ [c]) = some .dir) := by
  have hparent (x : Text) (hx : parentOf (join [d, c]) = some x) : x = [] ∨ fs.mode x ≠ none := by
    rw [h.parentOf_name hc] at hx
    cases hx
    exact h.mode_strip
  rcases mkdir_cases (plain_join d c) hparent with ⟨hsame, hok⟩ | ⟨hnone, hmk⟩
  · rw [hsame]
    refine ⟨.refl hfs m, fun hrun => ?_⟩
    have hmode := hok hrun
    rw [h.mode_name hc] at hmode
    cases hk : fs.kind (l ++ [c]) with
    | none =>
      rw [hk] at hmode
      cases hmode
    | some k =>
      rw [hk] at hmode
      cases k with
      | dir => rfl
      | _ => cases hmode
  · rw [Files.mkdir, h.place_name hc, Option.bind_some] at hmk
    split at hmk
    · next hk =>
      rw [← Option.some.inj hmk]
      exact ⟨.new hfs h.dir ⟨hc.proper, hc.slashless⟩ (by simp) hk hm,
        fun _ => Function.update_self _ _ _⟩
    · cases hmk

/-- The parent of a place in a directory is there, so that `copy` makes no directory. -/
theorem mkdir_parent (h : Reaches fs d l) (hc : Name c) :
    (mkdir ((parentOf (join [d, c])).getD [46]) fs).2 = fs := by
  rw [h.parentOf_name hc, Option.getD_some]
  rcases h.mode_strip with hnil | hthere
  · rw [hnil]
    rfl
  · exact mkdirFrom_there _ h.plain.stripLast hthere

theorem resolve_create (h : Reaches fs d l) (hc : Name c)
    (hlink : ∀ target, fs.kind (l ++ [c]) ≠ some (.link target)) :
    fs.resolve .create (join [d, c]) = some (l ++ [c]) := by
  obtain ⟨k, hk⟩ := h.resolve_name hc
  obtain ⟨hskip, hup⟩ := hc.not_dots
  rw [hk, resolveFrom_name hskip hup]
  cases hkind : fs.kind (l ++ [c]) with
  | none => simp
  | some kind =>
    cases kind with
    | link target => exact absurd hkind (hlink target)
    | dir => exact resolveFrom_nil _ _ _
    | _ => rfl

theorem copy_child (hfs : fs.Ok) (h : Reaches fs d l) (hc : Name c) (hm : m <+: l ++ [c])
    (hlink : ∀ target, fs.kind (l ++ [c]) ≠ some (.link target)) (source : Text) :
    Grows fs m (copy source (join [d, c]) fs).2 := by
  have hwrite (data : Text) (hdir : fs.kind (l ++ [c]) ≠ some .dir) :
      Grows fs m ((fs.put (l ++ [c]) (some (.file []))).put (l ++ [c]) (some (.file data))) := by
    have hfirst : Grows fs m (fs.put (l ++ [c]) (some (.file []))) :=
      .put hfs h.dir ⟨hc.proper, hc.slashless⟩ (by simp) hdir hlink hm
    have hself : (fs.put (l ++ [c]) (some (.file []))).kind (l ++ [c]) = some (.file []) :=
      Function.update_self _ _ _
    refine hfirst.trans (.put hfirst.ok (hfirst.dirs l h.dir) ⟨hc.proper, hc.slashless⟩
      (by simp) ?_ ?_ hm)
    · simp [hself]
    · simp [hself]
  have hmk := mkdir_parent h hc
  rw [copy]
  generalize mkdir ((parentOf (join [d, c])).getD [46]) fs = r at hmk
  obtain ⟨ok, fs₁⟩ := r
  subst hmk
  cases ok with
  | false => exact .refl hfs m
  | true =>
    simp only [if_true]
    cases fs₁.resolve .follow source with
    | none => exact .refl hfs m
    | some input =>
      rw [Files.openWrite, resolve_create h hc hlink, Option.bind_some]
      cases hk : fs₁.kind (l ++ [c]) with
      | none => exact hwrite _ (by simp [hk])
      | some kind =>
        cases kind with
        | link target => exact absurd hk (hlink target)
        | dir => exact .refl hfs m
        | other => exact .refl hfs m
        | file data => exact hwrite _ (by simp [hk])

theorem Reaches.dirPath (hfs : fs.Ok) (hq : Reaches fs q m) (hrel : Rel pre)
    (hk : fs.kind (m ++ pre) = some .dir) : Reaches fs (dirPath q pre) (m ++ pre) := by
  induction pre using List.reverseRecOn with
  | nil =>
    rw [List.append_nil]
    exact hq
  | append_singleton pre c ih =>
    rw [← List.append_assoc] at hk
    have hdir := hfs.parent _ _ (by rw [hk]; simp)
    rw [Fs.dirPath, if_neg (by simp), hrel.join_snoc hq.plain hq.ne_nil, ← List.append_assoc]
    exact (ih hrel.of_append hdir).child (hrel.names c (by simp)) hk

/-- One item of `copy_tree`. -/
theorem copyItem_grows (item : Item) (hfs : fs.Ok) (hq : Reaches fs q m) (hrel : Rel (pre ++ [c]))
    (hk : fs.kind (m ++ pre) = some .dir) (hitem : item.relative = joined [] (pre ++ [c]))
    (hlink : item.mode ≠ .directory → ∀ target, fs.kind (m ++ pre ++ [c]) ≠ some (.link target)) :
    Grows fs m (copyItem q item fs).2 ∧
      ((copyItem q item fs).1 = true → item.mode = .directory →
        (copyItem q item fs).2.kind (m ++ pre ++ [c]) = some .dir) := by
  have hd := hq.dirPath hfs hrel.of_append hk
  have hc := hrel.names c (by simp)
  have hm : m <+: m ++ pre ++ [c] := by
    rw [List.append_assoc]
    exact List.prefix_append m _
  rw [copyItem, hitem, hrel.join_snoc hq.plain hq.ne_nil]
  split
  · obtain ⟨hgrows, hdir⟩ := mkdir_child hfs hd hc hm
    exact ⟨hgrows, fun hok _ => hdir hok⟩
  · next hmode => exact ⟨copy_child hfs hd hc hm (hlink hmode) item.path, fun _ h => absurd h hmode⟩

theorem copyItems_append (q : Text) (xs ys : List Item) (fs : Files) :
    copyItems q (xs ++ ys) fs = if (copyItems q xs fs).1 = true
      then copyItems q ys (copyItems q xs fs).2 else copyItems q xs fs := by
  induction xs generalizing fs with
  | nil => rfl
  | cons x xs ih =>
    rw [List.cons_append, copyItems, copyItems]
    generalize copyItem q x fs = r
    obtain ⟨ok, fs'⟩ := r
    cases ok with
    | false => rfl
    | true => exact ih fs'

end Items

end Fs
end Skyext
