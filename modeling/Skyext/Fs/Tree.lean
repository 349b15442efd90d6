import Mathlib.Data.List.TakeWhile
import Skyext.Fs.Copy

namespace Skyext
set_option autoImplicit true

namespace Fs

section Items

variable {fs₁ fs' : Files} {accept : Text → Option Mode → Bool} {d q : Text} {l m x : Loc}
  {pre : List Text}

theorem copyItems_flatten {f : Text → Option (List Item)} {names : List Text}
    {itemss : List (List Item)} (h : List.Forall₂ (fun name is => f name = some is) names itemss)
    (hentry : ∀ name ∈ names, ∀ is, f name = some is → ∀ fs', Grows fs₁ m fs' →
      fs'.kind x = some .dir → Grows fs' m (copyItems q is fs').2)
    (hg : Grows fs₁ m fs') (hx : fs'.kind x = some .dir) :
    Grows fs' m (copyItems q itemss.flatten fs').2 := by
  induction h generalizing fs' with
  | nil => exact .refl hg.ok m
  | cons hfirst _ ih =>
    have hcopied := hentry _ List.mem_cons_self _ hfirst fs' hg hx
    rw [List.flatten_cons, copyItems_append]
    split
    · refine hcopied.trans (ih (fun name hname => ?_) (hg.trans hcopied) (hcopied.dirs x hx))
      exact hentry name (List.mem_cons_of_mem _ hname)
    · exact hcopied

theorem Accepted.cons {c : Text} {rel : List Text} {start : Text}
    (h : Accepted fs₁ accept l start [c])
    (hrest : Accepted fs₁ accept (l ++ [c]) (relativeTo start c) rel) :
    Accepted fs₁ accept l start (c :: rel) := ⟨h.1, hrest⟩

theorem copyItems_visit (n : Nat) {items : List Item} (h : Reaches fs₁ d l) (hq : Reaches fs₁ q m)
    (hplain : PlainBelow fs₁ l)
    (hrel : ∀ rel, rel ≠ [] → Accepted fs₁ accept l (joined [] pre) rel → Rel (pre ++ rel))
    (hlink : ∀ rel target, Accepted fs₁ accept l (joined [] pre) rel →
      fs₁.kind (l ++ rel) ≠ some .dir → fs₁.kind (m ++ pre ++ rel) ≠ some (.link target))
    (hv : visit fs₁ accept n d (joined [] pre) = some items) (hg : Grows fs₁ m fs')
    (hk : fs'.kind (m ++ pre) = some .dir) (hfs : fs₁.Ok) :
    Grows fs' m (copyItems q items fs').2 := by
  induction n generalizing d l pre items fs' with
  | zero => cases hv
  | succ n ih =>
    obtain ⟨names, itemss, hnames, rfl, hitems⟩ := visit_eq_some hv
    rw [entries_resolve h.resolve h.dir] at hnames
    cases hnames
    refine copyItems_flatten hitems (fun c hc is his fs' hg hk => ?_) hg hk
    rw [List.mem_mergeSort, Files.mem_names hfs] at hc
    have hname : Name c :=
      ⟨(hfs.name l c hc).1, (hfs.name l c hc).2, hplain [c] hc c List.mem_cons_self⟩
    rw [visitEntry, h.mode_name hname] at his
    by_cases ha : accept (relativeTo (joined [] pre) c) ((fs₁.kind (l ++ [c])).map Kind.mode) = true
    · simp only [ha, if_true] at his
      obtain ⟨mode, hmode, his⟩ := Option.bind_eq_some_iff.mp his
      have hacc : Accepted fs₁ accept l (joined [] pre) [c] := ⟨⟨hc, ha⟩, trivial⟩
      have hc' := hrel [c] (by simp) hacc
      have hstart : relativeTo (joined [] pre) c = joined [] (pre ++ [c]) :=
        (joined_snoc pre c).symm
      rcases itemMode_eq_some hfs h hname hmode with ⟨rfl, hdir⟩ | ⟨rfl, hdir, -⟩
      · rw [if_pos rfl] at his
        obtain ⟨below, hbelow, his⟩ := Option.bind_eq_some_iff.mp his
        cases his
        obtain ⟨hcopied, hmade⟩ := copyItem_grows
          ⟨join [d, c], relativeTo (joined [] pre) c, .directory⟩ hg.ok (hg.reaches hq) hc' hk
          hstart (fun hne => absurd rfl hne)
        rw [copyItems]
        generalize copyItem q _ fs' = r at hcopied hmade
        obtain ⟨ok, fs''⟩ := r
        cases ok with
        | false => exact hcopied
        | true =>
          have hmade' := hmade rfl rfl
          rw [List.append_assoc] at hmade'
          rw [hstart] at hbelow
          refine hcopied.trans (ih (h.child hname hdir) hplain.child (fun rel hne hacc' => ?_)
            (fun rel target hacc' hnot => ?_) hbelow (hg.trans hcopied) hmade')
          · rw [List.append_assoc]
            exact hrel ([c] ++ rel) (by simp) (hacc.cons (hstart ▸ hacc'))
          · rw [List.append_assoc] at hnot
            have hto : m ++ (pre ++ [c]) ++ rel = m ++ pre ++ ([c] ++ rel) := by simp
            rw [hto]
            exact hlink ([c] ++ rel) target (hacc.cons (hstart ▸ hacc')) hnot
      · rw [if_neg (by decide)] at his
        cases his
        obtain ⟨hcopied, -⟩ := copyItem_grows
          ⟨join [d, c], relativeTo (joined [] pre) c, .file⟩ hg.ok (hg.reaches hq) hc' hk hstart
          (fun _ target hthere => hlink [c] target hacc hdir ((hg.links _ _).mp hthere))
        rw [copyItems]
        generalize copyItem q _ fs' = r at hcopied
        obtain ⟨ok, fs''⟩ := r
        cases ok with
        | false => exact hcopied
        | true => exact hcopied
    · rw [if_neg ha] at his
      cases his
      exact .refl hg.ok m

end Items

/-- What `copy_tree` may be given as its target: something that is there, or the name of an entry
in a directory. -/
inductive Target (fs : Files) (q : Text) : Loc → Prop
  | there (hm : fs.mode q = some .directory) (h : fs.resolve .keep q = some m) : Target fs q m
  | new (hm : fs.mode q = none) (h : fs.place q = some m)
      (hparent : ∀ x, parentOf q = some x → x = [] ∨ fs.mode x ≠ none) : Target fs q m
  | other (hm : fs.mode q = some mode) (h : mode ≠ .directory) : Target fs q m

section Target

variable {fs : Files} {q : Text} {m : Loc}

theorem slash_component {path part : Text} (h : part ∈ components path) : slash ∉ part := by
  induction path generalizing part with
  | nil =>
    rw [List.mem_singleton.mp h]
    exact List.not_mem_nil
  | cons b path ih =>
    rw [components, List.splitOn_cons_eq_if_modifyHead] at h
    split at h
    · rcases List.mem_cons.mp h with rfl | h
      · exact List.not_mem_nil
      · exact ih h
    · next hb =>
      cases hparts : path.splitOn slash with
      | nil => exact absurd hparts (List.splitOn_ne_nil _ _)
      | cons first parts =>
        have hrest (x : Text) (hx : x ∈ first :: parts) : slash ∉ x := by
          rw [← hparts] at hx
          exact ih hx
        rw [hparts, List.modifyHead_cons] at h
        rcases List.mem_cons.mp h with rfl | h
        · intro hmem
          rcases List.mem_cons.mp hmem with heq | hmem
          · exact hb (by simp [heq])
          · exact hrest first List.mem_cons_self hmem
        · exact hrest part (List.mem_cons_of_mem _ h)

theorem splitLast_eq_some {before : List Text} {c : Text} (h : splitLast q = some (before, c)) :
    isName c = true ∧ ∃ blanks, components q = before ++ c :: blanks ∧ ∀ x ∈ blanks, x = [] := by
  rw [splitLast] at h
  split at h
  · cases h
  · next c' before' hdrop =>
    split at h
    · next hname =>
      cases h
      have hblank (x : Text) (hx : x ∈ (components q).reverse.takeWhile (· = [])) :
          x = [] := by
        simpa using List.mem_takeWhile_imp hx
      have hparts : (components q).reverse.takeWhile (· = []) ++ c :: before' =
          (components q).reverse := by
        rw [← hdrop]
        exact List.takeWhile_append_dropWhile
      generalize (components q).reverse.takeWhile (· = []) = blanks at hblank hparts
      refine ⟨hname, blanks.reverse, ?_, fun x hx => hblank x (List.mem_reverse.mp hx)⟩
      rw [← List.reverse_reverse (components q), ← hparts]
      simp
    · cases h

theorem resolveFrom_blanks (last : Last) (n : Nat) (l : Loc) {blanks : List Text}
    (h : ∀ x ∈ blanks, x = []) : fs.resolveFrom last n l blanks = some l := by
  induction blanks with
  | nil => exact resolveFrom_nil _ _ _
  | cons x blanks ih =>
    rw [resolveFrom_skip (.inl (h x List.mem_cons_self))]
    exact ih fun y hy => h y (List.mem_cons_of_mem _ hy)

theorem place_reaches {fs' : Files} (hq : Plain q) (h : fs.place q = some m)
    (hg : Grows fs m fs') (hm : fs'.kind m = some .dir) :
    Reaches fs' q m := by
  rw [Files.place] at h
  obtain ⟨⟨before, c⟩, hsplit, h⟩ := Option.bind_eq_some_iff.mp h
  obtain ⟨y, hy, h⟩ := Option.bind_eq_some_iff.mp h
  obtain ⟨hname, blanks, hparts, hblanks⟩ := splitLast_eq_some hsplit
  split at h
  · next hdir =>
    cases h
    have hcomp : c ∈ components q := by
      rw [hparts]
      simp
    obtain ⟨hskip, hup⟩ := Name.not_dots
      ⟨hname, slash_component hcomp, fun hmem => hq (mem_components hcomp hmem)⟩
    obtain ⟨k, w⟩ := Walks.of_resolveFrom hy hdir
    have w' := w.mono hg.dirs fun x target hx => (hg.links x target).mpr hx
    have hne : q ≠ [] := by
      rintro rfl
      cases hsplit
    have hstart : fs'.start q = fs.start q := by rw [Files.start, Files.start, hg.cwd]
    have hresolve : fs'.resolve .follow q = some (y ++ [c]) := by
      rw [Files.resolve, if_neg hne, hstart, hparts, w'.resolveFrom .follow (.inl rfl),
        resolveFrom_name hskip hup, hm]
      exact resolveFrom_blanks _ _ _ hblanks
    exact .of_resolve hq hresolve hm
  · cases h

theorem place_name_eq (hq : Plain q) (h : fs.place q = some m) :
    ∃ y c, m = y ++ [c] ∧ fs.kind y = some .dir ∧ Name c := by
  rw [Files.place] at h
  obtain ⟨⟨before, c⟩, hsplit, h⟩ := Option.bind_eq_some_iff.mp h
  obtain ⟨y, hy, h⟩ := Option.bind_eq_some_iff.mp h
  obtain ⟨hname, blanks, hparts, -⟩ := splitLast_eq_some hsplit
  have hcomp : c ∈ components q := by
    rw [hparts]
    simp
  split at h
  · next hdir =>
    cases h
    have hplain : Plain c := fun hmem => hq (mem_components hcomp hmem)
    exact ⟨y, c, rfl, hdir, hname, slash_component hcomp, hplain⟩
  · cases h

/-- The first step of `copy_tree`. -/
theorem mkdir_target (hfs : fs.Ok) (hq : Plain q) (ht : Target fs q m) :
    Grows fs m (mkdir q fs).2 ∧ ((mkdir q fs).1 = true → Reaches (mkdir q fs).2 q m) ∧
      ((mkdir q fs).2 = fs ∨ fs.kind m = none ∧ (mkdir q fs).2 = fs.put m (some .dir) ∧
        ∃ y c, m = y ++ [c] ∧ fs.kind y = some .dir ∧ Name c) := by
  have hthere (mode : Mode) (hm : fs.mode q = some mode) :
      mkdir q fs = (decide (mode = Mode.directory), fs) := by
    rw [mkdir, mkdirFrom, native_plain hq, hm]
  cases ht with
  | there hm h =>
    rw [hthere _ hm]
    refine ⟨.refl hfs m, fun _ => .of_resolve hq h ?_, .inl rfl⟩
    rw [Files.mode, h, Option.bind_some] at hm
    cases hk : fs.kind m with
    | none =>
      rw [hk] at hm
      cases hm
    | some k =>
      rw [hk] at hm
      cases k with
      | dir => rfl
      | _ => cases hm
  | other hm h =>
    rw [hthere _ hm]
    exact ⟨.refl hfs m, fun hok => absurd (of_decide_eq_true hok) h, .inl rfl⟩
  | new hm h hparent =>
    obtain ⟨y, c, rfl, hy, hc⟩ := place_name_eq hq h
    rcases mkdir_cases hq hparent with ⟨hsame, hok⟩ | ⟨-, hmk⟩
    · rw [hsame]
      refine ⟨.refl hfs _, fun hrun => ?_, .inl rfl⟩
      have hmode := hok hrun
      rw [hm] at hmode
      cases hmode
    · rw [Files.mkdir, h, Option.bind_some] at hmk
      split at hmk
      · next hk =>
        rw [← Option.some.inj hmk]
        have hg : Grows fs (y ++ [c]) (fs.put (y ++ [c]) (some .dir)) :=
          .new hfs hy ⟨hc.proper, hc.slashless⟩ (by simp) hk (List.prefix_refl _)
        refine ⟨hg, fun _ => place_reaches hq h hg (Function.update_self _ _ _), .inr ?_⟩
        exact ⟨hk, rfl, y, c, rfl, hy, hc⟩
      · cases hmk

end Target

/-- No accepted entry is put in a place that its path does not name, or over a link. -/
structure Fits (fs : Files) (accept : Text → Option Mode → Bool) (l m : Loc) : Prop where
  drive : ∀ c more, more ≠ [] → Accepted fs accept l [] (c :: more) ∨ l ++ c :: more = m →
    isDrive c = false
  link : ∀ rel target, Accepted fs accept l [] rel → fs.kind (l ++ rel) ≠ some .dir →
    fs.kind (m ++ rel) ≠ some (.link target)

section Tree

variable {fs fs' : Files} {accept : Text → Option Mode → Bool} {p q start : Text} {l m : Loc}
  {rel : List Text}

theorem Accepted.of_put (hfs : fs.Ok) (hm : fs.kind m = none)
    (h : Accepted (fs.put m (some .dir)) accept l start rel) :
    Accepted fs accept l start rel ∨ l ++ rel = m := by
  induction rel generalizing l start with
  | nil => exact .inl trivial
  | cons c rel ih =>
    obtain ⟨hfirst, hrest⟩ := h
    by_cases hx : l ++ [c] = m
    · cases rel with
      | nil => exact .inr hx
      | cons e rel =>
        have hthere := hrest.1.1
        rw [hx, Files.put_kind, Function.update_of_ne (by simp)] at hthere
        have hdir := hfs.parent m e hthere
        rw [hm] at hdir
        cases hdir
    · rw [Files.put_kind, Function.update_of_ne hx] at hfirst
      rcases ih hrest with hacc | heq
      · exact .inl ⟨hfirst, hacc⟩
      · exact .inr (by rw [← heq]; simp)

theorem PlainBelow.put (h : PlainBelow fs l) {y : Loc} {c : Text} (hy : fs.kind y = some .dir)
    (hc : Name c) (k : Option Kind) : PlainBelow (fs.put (y ++ [c]) k) l := by
  intro rel hrel d hd
  by_cases hx : l ++ rel = y ++ [c]
  · cases rel using List.reverseRecOn with
    | nil => cases hd
    | append_singleton rel e =>
      rw [← List.append_assoc] at hx
      obtain ⟨rfl, heq⟩ := List.append_inj' hx rfl
      cases heq
      rcases List.mem_append.mp hd with hd | hd
      · exact h rel (by rw [hy]; simp) d hd
      · rw [List.mem_singleton.mp hd]
        exact hc.plain
  · rw [Files.put_kind, Function.update_of_ne hx] at hrel
    exact h rel hrel d hd

theorem Grows.resolve (h : Grows fs m fs') {last : Last} (hp : fs.resolve last p = some l)
    (hl : fs.kind l = some .dir) : fs'.resolve .follow p = some l := by
  rw [Files.resolve] at hp ⊢
  split at hp
  · cases hp
  · next hne =>
    obtain ⟨k, w⟩ := Walks.of_resolveFrom hp hl
    have w' := w.mono h.dirs fun x target hx => (h.links x target).mpr hx
    have hstart : fs'.start p = fs.start p := by rw [Files.start, Files.start, h.cwd]
    rw [if_neg hne, hstart, w'.leads]

theorem walk_empty (hfs : fs.Ok) (hp : fs.resolve .follow p = some l) (hl : fs.kind l = some .dir)
    (hempty : ∀ c, fs.kind (l ++ [c]) = none) (n : Nat) : walk (n + 1) fs p accept = some [] := by
  rw [walk, visit, entries_resolve hp hl, (Files.names_eq_nil hfs).mpr hempty, List.mergeSort_nil]
  rfl

theorem Grows.copyItems (hg : Grows fs m fs') (hmk : fs' = fs ∨ fs.kind m = none ∧
    fs' = fs.put m (some .dir) ∧ ∃ y c, m = y ++ [c] ∧ fs.kind y = some .dir ∧ Name c)
    (hfs : fs.Ok) (hp : Reaches fs' p l) (hq : Reaches fs' q m) (hplain : PlainBelow fs l)
    (hfit : Fits fs accept l m) (n : Nat) {items : List Item}
    (hw : walk n fs' p accept = some items) : Grows fs' m (copyItems q items fs').2 := by
  have hplain' : PlainBelow fs' l := by
    rcases hmk with rfl | ⟨-, rfl, y, c, rfl, hy, hc⟩
    · exact hplain
    · exact hplain.put hy hc _
  have haccepted (rel : List Text) (hacc : Accepted fs' accept l [] rel) :
      Accepted fs accept l [] rel ∨ l ++ rel = m := by
    rcases hmk with rfl | ⟨hm, rfl, -⟩
    · exact .inl hacc
    · exact hacc.of_put hfs hm
  have hrel (rel : List Text) (hne : rel ≠ []) (hacc : Accepted fs' accept l [] rel) :
      Rel ([] ++ rel) := by
    have hthere := hacc.there hne
    refine ⟨fun c hc => ?_, fun c more heq hmore => hfit.drive c more hmore ?_⟩
    · obtain ⟨hproper, hslash⟩ := hg.ok.names_below hthere c hc
      exact ⟨hproper, hslash, hplain' rel hthere c hc⟩
    · rw [List.nil_append] at heq
      exact heq ▸ haccepted rel hacc
  have hm : fs'.kind (m ++ []) = some .dir := by
    rw [List.append_nil]
    exact hq.dir
  have hv : visit fs' accept n p (joined [] []) = some items := hw
  refine copyItems_visit n hp hq hplain' hrel (fun rel target hacc hdir hlink => ?_) hv
    (.refl hg.ok m) hm hg.ok
  rw [List.append_nil, hg.links] at hlink
  rcases haccepted rel hacc with hacc' | heq
  · exact hfit.link rel target hacc' (fun hk => hdir (hg.dirs _ hk)) hlink
  · exact hdir (heq ▸ hq.dir)

/-- `copy_tree` changes only what is at and below its target. -/
theorem copyTree_grows (hfs : fs.Ok) (n : Nat) (hp : fs.resolve .keep p = some l)
    (hpath : Plain p ∨ ∀ c, fs.kind (l ++ [c]) = none ∧ l ++ [c] ≠ m) (hplain : PlainBelow fs l)
    (hq : Plain q) (ht : Target fs q m) (hfit : Fits fs accept l m) :
    Grows fs m (copyTree n p q accept fs).2 := by
  obtain ⟨hg, hreach, hmk⟩ := mkdir_target hfs hq ht
  rw [copyTree]
  split
  · next hmode =>
    have hl : fs.kind l = some .dir := by
      rw [Files.mode, hp, Option.bind_some] at hmode
      cases hk : fs.kind l with
      | none =>
        rw [hk] at hmode
        cases hmode
      | some k =>
        rw [hk] at hmode
        cases k with
        | dir => rfl
        | _ => cases hmode
    generalize mkdir q fs = r at hg hreach hmk
    obtain ⟨ok, fs'⟩ := r
    cases ok with
    | false => exact hg
    | true =>
      simp only [if_true]
      cases hw : walk n fs' p accept with
      | none => exact hg
      | some items =>
        rcases hpath with hpath | hempty
        · have hp' := hg.reaches (.of_resolve hpath hp hl)
          exact hg.trans (hg.copyItems hmk hfs hp' (hreach rfl) hplain hfit n hw)
        · have hempty' (c : Text) : fs'.kind (l ++ [c]) = none := by
            rcases hmk with rfl | ⟨-, rfl, -⟩
            · exact (hempty c).1
            · rw [Files.put_kind, Function.update_of_ne (hempty c).2]
              exact (hempty c).1
          cases n with
          | zero => cases hw
          | succ n =>
            rw [walk_empty hg.ok (hg.resolve hp hl) (hg.dirs l hl) hempty'] at hw
            cases hw
            exact hg
  · exact .refl hfs m

/-- `walk` lists what it should, and returns unless something is accepted that is no file. -/
theorem walk_exact (hfs : fs.Ok) (n : Nat) (hp : fs.resolve .follow p = some l)
    (hl : fs.kind l = some .dir) (hpath : Plain p ∨ ∀ c, fs.kind (l ++ [c]) = none)
    (hplain : PlainBelow fs l) (hdepth : ∀ rel, fs.kind (l ++ rel) ≠ none → rel.length ≤ n) :
    (∀ items, walk (n + 1) fs p accept = some items → Lists fs accept l items) ∧
      ((∀ rel c, Accepted fs accept l [] (rel ++ [c]) → Regular fs (l ++ rel) c) →
        ∃ items, walk (n + 1) fs p accept = some items) := by
  rcases hpath with hpath | hempty
  · have h := Reaches.of_resolve hpath hp hl
    exact ⟨fun items hw => walk_lists hfs h hplain hw, visit_returns hfs n h hplain hdepth⟩
  · rw [walk_empty hfs hp hl hempty]
    refine ⟨fun items hw => ?_, fun _ => ⟨[], rfl⟩⟩
    cases hw
    refine ⟨fun text => ?_, List.nodup_nil, by simp⟩
    simp only [List.not_mem_nil, false_and, exists_false, false_iff]
    rintro ⟨rel, hne, -, hacc⟩
    cases rel with
    | nil => exact hne rfl
    | cons c rel => exact hacc.1.1 (hempty c)

end Tree

section Small

def rootOnly : Files where
  kind l := if l = [] then some .dir else none
  locs := [[]]
  cwd := []

theorem rootOnly_ok : rootOnly.Ok := by
  have hkind (l : Loc) (h : rootOnly.kind l ≠ none) : l = [] := by
    by_contra hne
    exact h (if_neg hne)
  refine ⟨rfl, fun l c h => ?_, fun l c h => ?_, fun l target h => ?_, fun l h => ?_,
    List.nodup_singleton _⟩
  · exact absurd (hkind _ h) (by simp)
  · exact absurd (hkind _ h) (by simp)
  · rw [hkind l (by rw [h]; simp)] at h
    cases h
  · rw [hkind l h]
    exact List.mem_singleton_self _

theorem names_top {fs : Files} (hroot : fs.kind [] = some .dir) {c : Text} (hc : Name c) :
    Names fs (slash :: c) [c] := by
  have hjoin : join [[slash], c] = slash :: c :=
    join_append (by decide) (by decide) hc.plain hc.ne_nil (isAbsolute_plain hc.no_separator)
  have hreach (fs' : Files) (hb : Beside fs ([] ++ [c]) fs') : Reaches fs' [slash] [] := by
    refine ⟨by decide, by decide, ⟨maxLinks, .skip (.inl rfl) .nil⟩, ?_⟩
    rw [hb.2 [] (by simp)]
    exact hroot
  rw [← hjoin]
  exact .of_reaches hreach hc

end Small

/-- `/d/s` with a file `a` and a link to it. -/
def small : Files :=
  (((rootOnly.put [[100]] (some .dir)).put [[100], [115]] (some .dir)).put [[100], [115], [97]]
    (some (.file [1]))).put [[100], [115], [108]] (some (.link [97]))

theorem small_ok : small.Ok := by
  have hd := rootOnly_ok.put (y := []) (c := [100]) (k := .dir) (by decide) (by decide) (by simp)
    (by decide)
  have hs := hd.put (y := [[100]]) (c := [115]) (k := .dir) (by decide) (by decide) (by simp)
    (by decide)
  have ha := hs.put (y := [[100], [115]]) (c := [97]) (k := .file [1]) (by decide) (by decide)
    (by simp) (by decide)
  exact ha.put (y := [[100], [115]]) (c := [108]) (k := .link [97]) (by decide) (by decide)
    (by simp) (by decide)

theorem small_kind {l : Loc} (h : small.kind l ≠ none) :
    l = [] ∨ l = [[100]] ∨ l = [[100], [115]] ∨ l = [[100], [115], [97]] ∨
      l = [[100], [115], [108]] := by
  have hmem : l ∈ small.locs := small_ok.covers l h
  have hlocs : small.locs =
      [[[100], [115], [108]], [[100], [115], [97]], [[100], [115]], [[100]], []] := by decide
  rw [hlocs] at hmem
  simp only [List.mem_cons, List.not_mem_nil, or_false] at hmem
  tauto

theorem small_below {rel : List Text} (h : small.kind ([[100]] ++ rel) ≠ none) :
    rel = [] ∨ rel = [[115]] ∨ rel = [[115], [97]] ∨ rel = [[115], [108]] := by
  rcases small_kind h with heq | heq | heq | heq | heq
  · simp at heq
  · exact .inl (by simpa using heq)
  · exact .inr (.inl (by simpa using heq))
  · exact .inr (.inr (.inl (by simpa using heq)))
  · exact .inr (.inr (.inr (by simpa using heq)))

/-- The operations stay in their trees where no name below has a backslash; `remove_tree` does so
only there. -/
theorem operations_inside {fs : Files} {l : Loc} {n : Nat} (hfs : fs.Ok)
    (hdepth : ∀ rel, fs.kind (l ++ rel) ≠ none → rel.length ≤ n) :
    (∀ p, Names fs p l → (Plain p ∨ ∀ c, fs.kind (l ++ [c]) = none) →
      ((∃ fs', removeTree (n + 1) p fs = (true, fs') ∧ Without fs l fs') ↔ PlainBelow fs l)) ∧
    (∀ p accept, fs.resolve .follow p = some l → fs.kind l = some .dir →
      (Plain p ∨ ∀ c, fs.kind (l ++ [c]) = none) → PlainBelow fs l →
      (∀ items, walk (n + 1) fs p accept = some items → Lists fs accept l items) ∧
        ((∀ rel c, Accepted fs accept l [] (rel ++ [c]) → Regular fs (l ++ rel) c) →
          ∃ items, walk (n + 1) fs p accept = some items)) ∧
    ∀ p q m accept, fs.resolve .keep p = some l →
      (Plain p ∨ ∀ c, fs.kind (l ++ [c]) = none ∧ l ++ [c] ≠ m) → PlainBelow fs l → Plain q →
      Target fs q m → Fits fs accept l m →
      ∀ x, ¬ m <+: x → (copyTree (n + 1) p q accept fs).2.kind x = fs.kind x := by
  refine ⟨fun p hp hpath => ?_, fun p accept hp hl hpath hplain => ?_,
    fun p q m accept hp hpath hplain hq ht hfit => ?_⟩
  · exact removeTree_iff n hfs hp hpath hdepth
  · exact walk_exact hfs n hp hl hpath hplain hdepth
  · exact (copyTree_grows hfs (n + 1) hp hpath hplain hq ht hfit).outside

theorem operations_inside_small :
    (∃ fs', removeTree 3 [47, 100] small = (true, fs') ∧ Without small [[100]] fs') ∧
    (∃ items, walk 3 small [47, 100] (fun _ _ => true) = some items ∧
      Lists small (fun _ _ => true) [[100]] items) ∧
    ∀ x, ¬ [[101]] <+: x →
      (copyTree 3 [47, 100] [47, 101] (fun _ _ => true) small).2.kind x = small.kind x := by
  have hdepth (rel : List Text) (h : small.kind ([[100]] ++ rel) ≠ none) : rel.length ≤ 2 := by
    rcases small_below h with rfl | rfl | rfl | rfl <;> decide
  have hplain : PlainBelow small [[100]] := by
    intro rel h c hc
    rcases small_below h with rfl | rfl | rfl | rfl <;> revert c <;> decide
  have hnames : Names small [47, 100] [[100]] :=
    names_top small_ok.root ⟨by decide, by decide, by decide⟩
  have hfit : Fits small (fun _ _ => true) [[100]] [[101]] := by
    refine ⟨fun c more hmore h => ?_, fun rel target hacc hdir h => ?_⟩
    · rcases h with hacc | heq
      · rcases small_below (hacc.there (by simp)) with h | h | h | h <;> cases h <;> decide
      · simp at heq
    · rcases small_kind (l := [[101]] ++ rel) (by rw [h]; simp) with heq | heq | heq | heq | heq <;>
        simp at heq
  have htarget : Target small [47, 101] [[101]] := by
    refine .new (by decide) (by decide) fun x hx => .inl ?_
    have hroot : parentOf [47, 101] = some [] := by decide
    rw [hroot] at hx
    exact (Option.some.inj hx).symm
  have hregular (rel : List Text) (c : Text)
      (hacc : Accepted small (fun _ _ => true) [[100]] [] (rel ++ [c])) :
      Regular small ([[100]] ++ rel) c := by
    rcases small_below (hacc.there (by simp)) with h | h | h | h
    · simp at h
    · have heq : rel ++ [c] = [] ++ [[115]] := h
      obtain ⟨rfl, h⟩ := List.append_inj' heq rfl
      cases h
      trivial
    · have heq : rel ++ [c] = [[115]] ++ [[97]] := h
      obtain ⟨rfl, h⟩ := List.append_inj' heq rfl
      cases h
      trivial
    · have heq : rel ++ [c] = [[115]] ++ [[108]] := h
      obtain ⟨rfl, h⟩ := List.append_inj' heq rfl
      cases h
      exact ⟨by decide +kernel, [1], by decide +kernel⟩
  obtain ⟨hremove, hwalk, hcopy⟩ := operations_inside small_ok hdepth
  obtain ⟨hlists, hreturns⟩ := hwalk [47, 100] (fun _ _ => true) (by decide) (by decide)
    (.inl (by decide)) hplain
  obtain ⟨items, hitems⟩ := hreturns hregular
  exact ⟨(hremove [47, 100] hnames (.inl (by decide))).mpr hplain, ⟨items, hitems, hlists _ hitems⟩,
    hcopy [47, 100] [47, 101] [[101]] (fun _ _ => true) (by decide) (.inl (by decide)) hplain
      (by decide) htarget hfit⟩

/-- `/d` and `/e`, and an entry `\e` of `/d`. -/
def backslashed : Files :=
  ((rootOnly.put [[100]] (some .dir)).put [[101]] (some .dir)).put [[100], [92, 101]]
    (some (.file []))

theorem backslashed_ok : backslashed.Ok := by
  have hd := rootOnly_ok.put (y := []) (c := [100]) (k := .dir) (by decide) (by decide) (by simp)
    (by decide)
  have he := hd.put (y := []) (c := [101]) (k := .dir) (by decide) (by decide) (by simp)
    (by decide)
  exact he.put (y := [[100]]) (c := [92, 101]) (k := .file []) (by decide) (by decide) (by simp)
    (by decide)

/-- `remove_tree("/d")` removes `/e` and not the entry. -/
theorem removeTree_backslashed : backslashed.Ok ∧ Names backslashed [47, 100] [[100]] ∧
    (removeTree 3 [47, 100] backslashed).1 = false ∧
    ¬ [[100]] <+: ([[101]] : Loc) ∧ backslashed.kind [[101]] = some .dir ∧
    (removeTree 3 [47, 100] backslashed).2.kind [[101]] = none ∧
    (removeTree 3 [47, 100] backslashed).2.kind [[100], [92, 101]] = some (.file []) := by
  refine ⟨backslashed_ok, names_top backslashed_ok.root ⟨by decide, by decide, by decide⟩, ?_⟩
  decide +kernel

end Fs
end Skyext
