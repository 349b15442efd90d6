import Skyext.Fs.Paths

namespace Skyext
set_option autoImplicit true

namespace Fs

/-- Files that differ below a place only. -/
def Beside (fs : Files) (l : Loc) (fs' : Files) : Prop :=
  fs'.cwd = fs.cwd ∧ ∀ x, ¬ (l <+: x ∧ x ≠ l) → fs'.kind x = fs.kind x

/-- A path that names a place, whatever is below it. -/
structure Names (fs : Files) (path : Text) (l : Loc) : Prop where
  ne_root : l ≠ []
  place : ∀ fs', Beside fs l fs' → fs'.place path = some l
  mode : ∀ fs', Beside fs l fs' → fs'.mode path = (fs'.kind l).map Kind.mode
  resolve : ∀ fs', Beside fs l fs' → fs'.kind l = some .dir → fs'.resolve .follow path = some l

section Beside

variable {fs fs' fs'' : Files} {l : Loc} {c path : Text}

theorem Beside.refl (fs : Files) (l : Loc) : Beside fs l fs := ⟨rfl, fun _ _ => rfl⟩

theorem Beside.trans (h : Beside fs l fs') (h' : Beside fs' l fs'') : Beside fs l fs'' :=
  ⟨h'.1.trans h.1, fun x hx => (h'.2 x hx).trans (h.2 x hx)⟩

theorem Beside.kind (h : Beside fs l fs') : fs'.kind l = fs.kind l := h.2 l (by simp)

theorem not_child_prefix (l : Loc) (c : Text) : ¬ l ++ [c] <+: l := by
  intro h
  have hlen := h.length_le
  rw [List.length_append, List.length_singleton] at hlen
  omega

theorem Beside.of_child (h : Beside fs (l ++ [c]) fs') : Beside fs l fs' := by
  refine ⟨h.1, fun x hx => h.2 x fun hbelow => hx ⟨?_, ?_⟩⟩
  · exact (List.prefix_append l [c]).trans hbelow.1
  · rintro rfl
    exact not_child_prefix _ c hbelow.1

theorem Names.reaches (h : Names fs path l) (hp : Plain path) (hb : Beside fs l fs')
    (hl : fs'.kind l = some .dir) : Reaches fs' path l :=
  .of_resolve hp (h.resolve fs' hb hl) hl

theorem Names.of_reaches (h : ∀ fs', Beside fs (l ++ [c]) fs' → Reaches fs' path l) (hc : Name c) :
    Names fs (join [path, c]) (l ++ [c]) := by
  refine ⟨by simp, fun fs' hb => ?_, fun fs' hb => ?_, fun fs' hb hk => ?_⟩
  · exact (h fs' hb).place_name hc
  · exact (h fs' hb).mode_name hc
  · exact ((h fs' hb).child hc hk).resolve

theorem Names.child (h : Names fs path l) (hp : Plain path) (hl : fs.kind l = some .dir)
    (hc : Name c) : Names fs (join [path, c]) (l ++ [c]) :=
  .of_reaches (fun _ hb => h.reaches hp hb.of_child (hb.of_child.kind.trans hl)) hc

theorem Names.beside (h : Names fs path l) (hb : Beside fs l fs') : Names fs' path l :=
  ⟨h.ne_root, fun _ h' => h.place _ (hb.trans h'), fun _ h' => h.mode _ (hb.trans h'),
    fun _ h' => h.resolve _ (hb.trans h')⟩

end Beside

/-- No name below a place has a backslash. -/
def PlainBelow (fs : Files) (l : Loc) : Prop :=
  ∀ rel, fs.kind (l ++ rel) ≠ none → ∀ c ∈ rel, Plain c

theorem PlainBelow.child {fs : Files} {l : Loc} {c : Text} (h : PlainBelow fs l) :
    PlainBelow fs (l ++ [c]) := by
  intro rel hrel d hd
  rw [List.append_assoc] at hrel
  exact h _ hrel d (List.mem_append_right _ hd)

/-- The files without a place and what is below it. -/
structure Without (fs : Files) (l : Loc) (fs' : Files) : Prop where
  ok : fs'.Ok
  cwd : fs'.cwd = fs.cwd
  kind : ∀ x, fs'.kind x = if l <+: x then none else fs.kind x

/-- The files without some entries of a directory. -/
structure Cleared (fs : Files) (l : Loc) (done : List Text) (fs' : Files) : Prop where
  ok : fs'.Ok
  cwd : fs'.cwd = fs.cwd
  kind : ∀ x, fs'.kind x = if ∃ c ∈ done, l ++ [c] <+: x then none else fs.kind x

section Remove

variable {fs fs' : Files} {l : Loc} {path : Text} {done : List Text}

theorem Cleared.beside (h : Cleared fs l done fs') : Beside fs l fs' := by
  refine ⟨h.cwd, fun x hx => ?_⟩
  rw [h.kind, if_neg]
  rintro ⟨c, -, hc⟩
  refine hx ⟨(List.prefix_append l [c]).trans hc, ?_⟩
  rintro rfl
  exact not_child_prefix _ c hc

theorem Cleared.step (h : Cleared fs l done fs') {c : Text} {fs'' : Files}
    (hw : Without fs' (l ++ [c]) fs'') : Cleared fs l (c :: done) fs'' := by
  refine ⟨hw.ok, hw.cwd.trans h.cwd, fun x => ?_⟩
  rw [hw.kind, h.kind]
  simp only [List.mem_cons, exists_eq_or_imp]
  by_cases hc : l ++ [c] <+: x
  · rw [if_pos hc, if_pos (.inl hc)]
  · rw [if_neg hc]
    simp [hc]

theorem forEach_cleared {body : Text → Files → Bool × Files} (names : List Text)
    (hbody : ∀ c ∈ names, ∀ fs', Beside fs l fs' → fs'.Ok →
      (∀ rel, fs'.kind (l ++ rel) ≠ none → fs.kind (l ++ rel) ≠ none) →
      ∃ fs'', body c fs' = (true, fs'') ∧ Without fs' (l ++ [c]) fs'')
    (h : Cleared fs l done fs') :
    ∃ fs'' done', forEach body names fs' = (true, fs'') ∧ Cleared fs l done' fs'' ∧
      ∀ c, c ∈ names ∨ c ∈ done → c ∈ done' := by
  induction names generalizing done fs' with
  | nil => exact ⟨fs', done, rfl, h, by simp⟩
  | cons c names ih =>
    have hless : ∀ rel, fs'.kind (l ++ rel) ≠ none → fs.kind (l ++ rel) ≠ none := by
      intro rel hrel
      rw [h.kind] at hrel
      split at hrel
      · exact absurd rfl hrel
      · exact hrel
    obtain ⟨fs₁, hrun, hw⟩ := hbody c List.mem_cons_self fs' h.beside h.ok hless
    obtain ⟨fs₂, done', hloop, hcleared, hmem⟩ :=
      ih (fun d hd => hbody d (List.mem_cons_of_mem _ hd)) (h.step hw)
    refine ⟨fs₂, done', ?_, hcleared, fun d hd => hmem d ?_⟩
    · rw [forEach, hrun]
      exact hloop
    · simp only [List.mem_cons] at hd ⊢
      tauto

theorem without_put (hfs : fs.Ok) (hl : l ≠ []) (hempty : ∀ c, fs.kind (l ++ [c]) = none) :
    Without fs l (fs.put l none) := by
  refine ⟨hfs.put_none hl hempty, rfl, fun x => ?_⟩
  rw [Files.put_kind]
  by_cases hx : x = l
  · rw [hx, Function.update_self, if_pos (List.prefix_refl l)]
  · rw [Function.update_of_ne hx]
    split
    · next hpre =>
      obtain ⟨rel, rfl⟩ := hpre
      cases rel with
      | nil => simp at hx
      | cons c rel =>
        by_contra hsome
        exact hfs.first hsome (hempty c)
    · rfl

theorem without_none (hfs : fs.Ok) (hl : fs.kind l = none) : Without fs l fs := by
  refine ⟨hfs, rfl, fun x => ?_⟩
  split
  · next hpre =>
    obtain ⟨rel, rfl⟩ := hpre
    by_contra hsome
    by_cases hrel : rel = []
    · rw [hrel, List.append_nil] at hsome
      exact hsome hl
    · have hdir := hfs.below_dir hrel hsome
      rw [hl] at hdir
      cases hdir
  · rfl

theorem no_children (hfs : fs.Ok) (hl : fs.kind l ≠ some .dir) (c : Text) :
    fs.kind (l ++ [c]) = none := by
  by_contra hsome
  exact hl (hfs.parent l c hsome)

theorem Cleared.without (h : Cleared fs l done fs') (hl : l ≠ [])
    (hall : ∀ c, fs.kind (l ++ [c]) ≠ none → c ∈ done) : Without fs l (fs'.put l none) := by
  have hempty (c : Text) : fs'.kind (l ++ [c]) = none := by
    rw [h.kind]
    split
    · rfl
    · next hc =>
      by_contra hsome
      exact hc ⟨c, hall c hsome, List.prefix_refl _⟩
  obtain ⟨hok, hcwd, hkind⟩ := without_put h.ok hl hempty
  refine ⟨hok, hcwd.trans h.cwd, fun x => ?_⟩
  rw [hkind]
  by_cases hx : l <+: x
  · rw [if_pos hx, if_pos hx]
  · rw [if_neg hx, if_neg hx]
    exact h.beside.2 x fun hbelow => hx hbelow.1

theorem entries_resolve (h : fs.resolve .follow path = some l) (hl : fs.kind l = some .dir) :
    entries fs path = some ((fs.names l).mergeSort fun a b => decide (a ≤ b)) := by
  rw [entries, Files.dir, h, Option.bind_some, if_pos hl]
  rfl

theorem remove_names (h : Names fs path l) {k : Kind} (hk : fs.kind l = some k) (hdir : k ≠ .dir) :
    fs.remove path = some (fs.put l none) := by
  rw [Files.remove, h.place fs (.refl fs l), Option.bind_some, hk]
  cases k with
  | dir => exact absurd rfl hdir
  | _ => rfl

theorem Cleared.rmdir (hc : Cleared fs l done fs') (h : Names fs path l)
    (hl : fs.kind l = some .dir) (hall : ∀ c, fs.kind (l ++ [c]) ≠ none → c ∈ done) :
    fs'.rmdir path = some (fs'.put l none) := by
  have hempty : fs'.names l = [] := by
    rw [Files.names_eq_nil hc.ok]
    intro c
    rw [hc.kind]
    split
    · rfl
    · next hnot =>
      by_contra hsome
      exact hnot ⟨c, hall c hsome, List.prefix_refl _⟩
  rw [Files.rmdir, h.place fs' hc.beside, Option.bind_some,
    if_pos ⟨hc.beside.kind.trans hl, hempty⟩]

theorem removeTree_step (n : Nat) (hfs : fs.Ok) (h : Names fs path l)
    (hchild : ∀ c, fs.kind (l ++ [c]) ≠ none → fs.kind l = some .dir → ∀ fs', Beside fs l fs' →
      fs'.Ok → (∀ rel, fs'.kind (l ++ rel) ≠ none → fs.kind (l ++ rel) ≠ none) →
      ∃ fs'', removeTree n (join [path, c]) fs' = (true, fs'') ∧ Without fs' (l ++ [c]) fs'') :
    ∃ fs', removeTree (n + 1) path fs = (true, fs') ∧ Without fs l fs' := by
  have hmode := h.mode fs (.refl fs l)
  rw [removeTree]
  cases hk : fs.kind l with
  | none =>
    rw [hk] at hmode
    rw [hmode]
    exact ⟨fs, rfl, without_none hfs hk⟩
  | some k =>
    by_cases hdir : k = .dir
    · subst hdir
      rw [hk] at hmode
      rw [hmode]
      simp only [Option.map_some, Kind.mode, entries_resolve (h.resolve fs (.refl fs l) hk) hk]
      have hnames (c : Text) : c ∈ (fs.names l).mergeSort (fun a b => decide (a ≤ b)) ↔
          fs.kind (l ++ [c]) ≠ none := by
        rw [List.mem_mergeSort, Files.mem_names hfs]
      have hstart : Cleared fs l [] fs := ⟨hfs, rfl, by simp⟩
      obtain ⟨fs₁, done, hloop, hcleared, hmem⟩ := forEach_cleared _
        (fun c hc => hchild c ((hnames c).mp hc) hk) hstart
      have hall (c : Text) (hc : fs.kind (l ++ [c]) ≠ none) : c ∈ done :=
        hmem c (.inl ((hnames c).mpr hc))
      rw [hloop]
      simp only [if_true, hcleared.rmdir h hk hall]
      exact ⟨_, rfl, hcleared.without h.ne_root hall⟩
    · rw [hk] at hmode
      rw [hmode]
      have hremove := remove_names h hk hdir
      have hnone (c : Text) : fs.kind (l ++ [c]) = none :=
        no_children hfs (by rw [hk]; simpa using hdir) c
      refine ⟨fs.put l none, ?_, without_put hfs h.ne_root hnone⟩
      cases k with
      | dir => exact absurd rfl hdir
      | _ => simp only [Option.map_some, Kind.mode, hremove]

/-- Where no name below a place has a backslash, `remove_tree` removes what is there. -/
theorem removeTree_names (n : Nat) (hfs : fs.Ok) (h : Names fs path l)
    (hp : Plain path ∨ ∀ c, fs.kind (l ++ [c]) = none) (hbelow : PlainBelow fs l)
    (hdepth : ∀ rel, fs.kind (l ++ rel) ≠ none → rel.length ≤ n) :
    ∃ fs', removeTree (n + 1) path fs = (true, fs') ∧ Without fs l fs' := by
  induction n generalizing fs path l with
  | zero =>
    refine removeTree_step 0 hfs h fun c hc => ?_
    have hlen := hdepth [c] hc
    simp at hlen
  | succ n ih =>
    refine removeTree_step (n + 1) hfs h fun c hc hk fs' hb hok hless => ?_
    have hname : Name c :=
      ⟨(hfs.name l c hc).1, (hfs.name l c hc).2, hbelow [c] hc c List.mem_cons_self⟩
    have hpath : Plain path := hp.resolve_right fun hnone => hc (hnone c)
    refine ih hok ((h.beside hb).child hpath (hb.kind.trans hk) hname) (.inl (plain_join path c))
      (fun rel hrel d hd => ?_) fun rel hrel => ?_
    · rw [List.append_assoc] at hrel
      exact hbelow _ (hless _ hrel) d (List.mem_append_right _ hd)
    · rw [List.append_assoc] at hrel
      have hlen := hdepth _ (hless _ hrel)
      rw [List.length_append, List.length_singleton] at hlen
      omega

end Remove

section Kept

variable {fs fs' : Files} {l : Loc} {path c : Text}

theorem mem_components {part : Text} {b : UInt8} (hpart : part ∈ components path) (hb : b ∈ part) :
    b ∈ path := by
  have hjoin : [slash].intercalate (components path) = path := List.intercalate_splitOn slash
  rw [← hjoin, List.intercalate, List.mem_flatten]
  obtain ⟨i, hi⟩ := List.mem_iff_getElem?.mp hpart
  refine ⟨part, List.mem_iff_getElem?.mpr ⟨2 * i, ?_⟩, hb⟩
  rw [List.getElem?_intersperse_two_mul]
  exact hi

theorem place_plain (hp : Plain path) (h : fs.place path = some l) :
    ∃ x d, l = x ++ [d] ∧ Plain d := by
  rw [Files.place] at h
  obtain ⟨⟨before, d⟩, hsplit, h⟩ := Option.bind_eq_some_iff.mp h
  obtain ⟨x, -, h⟩ := Option.bind_eq_some_iff.mp h
  split at h
  · cases h
    refine ⟨x, d, rfl, fun hmem => hp (mem_components ?_ hmem)⟩
    rw [splitLast] at hsplit
    split at hsplit
    · cases hsplit
    · next c before' hdrop =>
      split at hsplit
      · cases hsplit
        have hmem : d ∈ (components path).reverse.dropWhile (· = []) := by
          rw [hdrop]
          exact List.mem_cons_self
        exact List.mem_reverse.mp ((List.dropWhile_suffix _).subset hmem)
      · cases hsplit
  · cases h

theorem put_other (hp : Plain path) (h : fs.place path = some l) (hc : ¬ Plain c) (x : Loc)
    (k : Option Kind) : (fs.put l k).kind (x ++ [c]) = fs.kind (x ++ [c]) := by
  obtain ⟨y, d, rfl, hd⟩ := place_plain hp h
  refine Function.update_of_ne (fun heq => hc ?_) _ _
  have hlast := congrArg List.getLast? heq
  simp only [List.getLast?_append, List.getLast?_singleton, Option.some_or, Option.some.injEq]
    at hlast
  rw [hlast]
  exact hd

theorem rmdir_keeps (hp : Plain path) (h : fs.rmdir path = some fs') (hc : ¬ Plain c) (x : Loc) :
    fs'.kind (x ++ [c]) = fs.kind (x ++ [c]) := by
  obtain ⟨l, hl, h⟩ := Option.bind_eq_some_iff.mp h
  split at h
  · cases h
    exact put_other hp hl hc x none
  · cases h

theorem remove_keeps (hp : Plain path) (h : fs.remove path = some fs') (hc : ¬ Plain c) (x : Loc) :
    fs'.kind (x ++ [c]) = fs.kind (x ++ [c]) := by
  obtain ⟨l, hl, h⟩ := Option.bind_eq_some_iff.mp h
  split at h
  · cases h
  · exact rmdir_keeps hp h hc x
  · cases h
    exact put_other hp hl hc x none

theorem forEach_keeps {body : Text → Files → Bool × Files} (x : Loc)
    (hbody : ∀ name fs, (body name fs).2.kind x = fs.kind x) (names : List Text) (fs : Files) :
    (forEach body names fs).2.kind x = fs.kind x := by
  induction names generalizing fs with
  | nil => rfl
  | cons name names ih =>
    have hname := hbody name fs
    rw [forEach]
    generalize body name fs = r at hname
    obtain ⟨ok, fs'⟩ := r
    cases ok with
    | true =>
      simp only [if_true]
      exact (ih fs').trans hname
    | false => exact hname

theorem removeTree_keeps (n : Nat) (hp : Plain path) (hc : ¬ Plain c) (x : Loc) (fs : Files) :
    (removeTree n path fs).2.kind (x ++ [c]) = fs.kind (x ++ [c]) := by
  induction n generalizing path fs with
  | zero => rfl
  | succ n ih =>
    rw [removeTree]
    split
    · rfl
    · split
      · rfl
      · next names _ =>
        have hstep (name : Text) (fs : Files) :
            (removeTree n (join [path, name]) fs).2.kind (x ++ [c]) = fs.kind (x ++ [c]) :=
          ih (plain_join path name) fs
        have hloop := forEach_keeps (x ++ [c]) hstep names fs
        generalize forEach (fun name => removeTree n (join [path, name])) names fs = r at hloop
        obtain ⟨ok, fs'⟩ := r
        cases ok with
        | false => exact hloop
        | true =>
          simp only [if_true]
          split
          · next h => exact (rmdir_keeps hp h hc x).trans hloop
          · exact hloop
    · split
      · next h => exact remove_keeps hp h hc x
      · rfl

/-- `remove_tree` removes exactly what it should if and only if no name has a backslash. -/
theorem removeTree_iff (n : Nat) (hfs : fs.Ok) (h : Names fs path l)
    (hp : Plain path ∨ ∀ c, fs.kind (l ++ [c]) = none)
    (hdepth : ∀ rel, fs.kind (l ++ rel) ≠ none → rel.length ≤ n) :
    (∃ fs', removeTree (n + 1) path fs = (true, fs') ∧ Without fs l fs') ↔ PlainBelow fs l := by
  constructor
  · rintro ⟨fs', hrun, hw⟩ rel hrel c hc
    by_contra hplain
    obtain ⟨a, b, rfl⟩ := List.append_of_mem hc
    have hpath : Plain path := hp.resolve_right fun hnone => by
      cases a with
      | nil => exact hfs.first hrel (hnone c)
      | cons d a => exact hfs.first hrel (hnone d)
    have hsplit : l ++ (a ++ c :: b) = l ++ a ++ [c] ++ b := by simp
    have hthere : fs.kind (l ++ a ++ [c]) ≠ none := by
      rw [hsplit] at hrel
      by_cases hb : b = []
      · rwa [hb, List.append_nil] at hrel
      · rw [hfs.below_dir hb hrel]
        simp
    have hkept := removeTree_keeps (n + 1) hpath hplain (l ++ a) fs
    rw [hrun] at hkept
    have hgone := hw.kind (l ++ a ++ [c])
    rw [if_pos (by simp), hkept] at hgone
    exact hthere hgone
  · intro hbelow
    exact removeTree_names n hfs h hp hbelow hdepth

end Kept

end Fs
end Skyext
