import Mathlib.Data.List.Forall2
import Skyext.Fs.Remove

namespace Skyext
set_option autoImplicit true

namespace Fs

def joined (start : Text) (rel : List Text) : Text := rel.foldl relativeTo start

/-- Names that lead to a place, each of them accepted. -/
def Accepted (fs : Files) (accept : Text → Option Mode → Bool) : Loc → Text → List Text → Prop
  | _, _, [] => True
  | l, start, c :: rel =>
    (fs.kind (l ++ [c]) ≠ none ∧
      accept (relativeTo start c) ((fs.kind (l ++ [c])).map Kind.mode) = true) ∧
        Accepted fs accept (l ++ [c]) (relativeTo start c) rel

/-- Names that lead to a place below a directory. -/
def Inside (fs : Files) (l : Loc) (rel : List Text) : Prop :=
  ∃ x, fs.resolveFrom .follow maxLinks l rel = some x ∧ l <+: x

/-- What is listed: a file, a directory, or a link to a file beside it. -/
def Regular (fs : Files) (l : Loc) (c : Text) : Prop :=
  match fs.kind (l ++ [c]) with
  | some (.file _) => True
  | some .dir => True
  | some (.link target) =>
    (∀ b ∈ target, isSeparator b = false) ∧ ∃ data, fs.kind (l ++ [target]) = some (.file data)
  | _ => False

section Joined

variable {start c : Text} {rel : List Text}

theorem relativeTo_ne_nil (hc : c ≠ []) (start : Text) : relativeTo start c ≠ [] := by
  rw [relativeTo]
  split
  · exact hc
  · simp

theorem components_relativeTo (hstart : start ≠ []) (hc : slash ∉ c) :
    components (relativeTo start c) = components start ++ [c] := by
  rw [relativeTo, if_neg hstart, components_append, components_slashless hc]

theorem components_joined (hrel : ∀ c ∈ rel, c ≠ [] ∧ slash ∉ c) (hstart : start ≠ []) :
    components (joined start rel) = components start ++ rel := by
  induction rel generalizing start with
  | nil => exact (List.append_nil _).symm
  | cons c rel ih =>
    obtain ⟨hc, hslash⟩ := hrel c List.mem_cons_self
    rw [joined, List.foldl_cons]
    have hrest := ih (fun d hd => hrel d (List.mem_cons_of_mem _ hd)) (relativeTo_ne_nil hc start)
    rw [joined] at hrest
    rw [hrest, components_relativeTo hstart hslash, List.append_assoc, List.singleton_append]

theorem components_relative (hrel : ∀ c ∈ rel, c ≠ [] ∧ slash ∉ c) (hne : rel ≠ []) :
    components (joined [] rel) = rel := by
  cases rel with
  | nil => exact absurd rfl hne
  | cons c rel =>
    obtain ⟨hc, hslash⟩ := hrel c List.mem_cons_self
    have hrest := components_joined (fun d hd => hrel d (List.mem_cons_of_mem _ hd)) hc
    rw [components_slashless hslash] at hrest
    exact hrest

end Joined

section Visit

variable {fs : Files} {accept : Text → Option Mode → Bool} {d c start : Text} {l : Loc}

theorem mapM_forall₂ {f : α → Option β} {xs : List α} {ys : List β} (h : xs.mapM f = some ys) :
    List.Forall₂ (fun x y => f x = some y) xs ys := by
  induction xs generalizing ys with
  | nil =>
    cases h
    exact .nil
  | cons x xs ih =>
    rw [List.mapM_cons] at h
    obtain ⟨y, hy, h⟩ := Option.bind_eq_some_iff.mp h
    obtain ⟨zs, hzs, h⟩ := Option.bind_eq_some_iff.mp h
    cases h
    exact .cons hy (ih hzs)

theorem mem_forall₂ {R : α → β → Prop} {xs : List α} {ys : List β} (h : List.Forall₂ R xs ys)
    {x : α} (hx : x ∈ xs) : ∃ y ∈ ys, R x y := by
  induction h with
  | nil => cases hx
  | cons hfirst _ ih =>
    rcases List.mem_cons.mp hx with rfl | hx
    · exact ⟨_, List.mem_cons_self, hfirst⟩
    · obtain ⟨y, hy, hr⟩ := ih hx
      exact ⟨y, List.mem_cons_of_mem _ hy, hr⟩

def visitEntry (fs : Files) (accept : Text → Option Mode → Bool) (n : Nat) (d start name : Text) :
    Option (List Item) := do
  let relative := relativeTo start name
  let path := join [d, name]
  if accept relative (fs.mode path) then
    let mode ← itemMode fs d path
    let below ← if mode = .directory then visit fs accept n path relative else some []
    some (⟨path, relative, mode⟩ :: below)
  else some []

theorem visit_eq_some {n : Nat} {items : List Item}
    (h : visit fs accept (n + 1) d start = some items) :
    ∃ names itemss, entries fs d = some names ∧ items = itemss.flatten ∧
      List.Forall₂ (fun name is => visitEntry fs accept n d start name = some is) names itemss := by
  obtain ⟨names, hnames, h⟩ := Option.bind_eq_some_iff.mp h
  obtain ⟨itemss, hitems, h⟩ := Option.bind_eq_some_iff.mp h
  cases h
  exact ⟨names, itemss, hnames, rfl, mapM_forall₂ hitems⟩

theorem dropLast_dir (hfs : fs.Ok) (hl : fs.kind l = some .dir) :
    fs.kind l.dropLast = some .dir := by
  cases hl' : l using List.reverseRecOn with
  | nil => exact hfs.root
  | append_singleton x y =>
    rw [List.dropLast_concat]
    refine hfs.parent x y ?_
    rw [← hl', hl]
    simp

theorem beside_file (hfs : fs.Ok) (h : Reaches fs d l) {target : Text}
    (hsep : ∀ b ∈ target, isSeparator b = false) (hne : target ≠ [])
    (hm : fs.mode (join [d, target]) = some .file) :
    ¬ (target = [] ∨ target = [46]) ∧ target ≠ [46, 46] ∧
      ∃ data, fs.kind (l ++ [target]) = some (.file data) := by
  obtain ⟨k, hk⟩ := h.resolve_slashless hsep hne
  rw [Files.mode, hk] at hm
  by_cases hskip : target = [] ∨ target = [46]
  · rw [resolveFrom_skip hskip, resolveFrom_nil, Option.bind_some, h.dir] at hm
    cases hm
  by_cases hup : target = [46, 46]
  · rw [hup, resolveFrom_up, resolveFrom_nil, Option.bind_some, dropLast_dir hfs h.dir] at hm
    cases hm
  refine ⟨hskip, hup, ?_⟩
  rw [resolveFrom_name hskip hup] at hm
  cases hkind : fs.kind (l ++ [target]) with
  | none =>
    rw [hkind] at hm
    cases hm
  | some kind =>
    rw [hkind] at hm
    cases kind with
    | file data => exact ⟨data, rfl⟩
    | link t =>
      simp only [true_and, if_true, Option.bind_some, hkind] at hm
      cases hm
    | other =>
      simp only [if_true, Option.bind_some, hkind] at hm
      cases hm
    | dir =>
      simp only [resolveFrom_nil, Option.bind_some, hkind] at hm
      cases hm

theorem linkMode_eq_some {mode : Mode} (h : linkMode fs d c = some mode) :
    mode = .file ∧ ∃ target, fs.target c = some target ∧
      (∀ b ∈ target, isSeparator b = false) ∧ fs.mode (join [d, target]) = some .file := by
  obtain ⟨target, ht, h⟩ := Option.bind_eq_some_iff.mp h
  split at h
  · cases h
  · next hsep =>
    split at h
    · next hfile =>
      cases h
      refine ⟨rfl, target, ht, fun b hb => eq_false_of_ne_true fun hb' => hsep ?_, hfile⟩
      exact List.any_eq_true.mpr ⟨b, hb, hb'⟩
    · cases h

theorem itemMode_eq_some (hfs : fs.Ok) (h : Reaches fs d l) (hc : Name c) {mode : Mode}
    (hm : itemMode fs d (join [d, c]) = some mode) :
    mode = .directory ∧ fs.kind (l ++ [c]) = some .dir ∨
      mode = .file ∧ fs.kind (l ++ [c]) ≠ some .dir ∧ Inside fs l [c] := by
  obtain ⟨hskip, hup⟩ := hc.not_dots
  have hresolve := @resolveFrom_name fs c hskip hup .follow maxLinks l []
  rw [itemMode, h.mode_name hc] at hm
  cases hkind : fs.kind (l ++ [c]) with
  | none =>
    rw [hkind] at hm
    cases hm
  | some kind =>
    rw [hkind] at hm hresolve
    cases kind with
    | file data =>
      cases hm
      exact .inr ⟨rfl, by simp, l ++ [c], hresolve, List.prefix_append l [c]⟩
    | other => cases hm
    | dir =>
      cases hm
      exact .inl ⟨rfl, rfl⟩
    | link target =>
      obtain ⟨rfl, target', htarget, hsep, hfile⟩ := linkMode_eq_some hm
      have heq : target' = target := by
        rw [Files.target, h.resolve_keep hc, hkind] at htarget
        simp only [reduceCtorEq, if_false, Option.bind_some, hkind, Option.some.injEq] at htarget
        exact htarget.symm
      subst heq
      obtain ⟨hskip', hup', data, hdata⟩ := beside_file hfs h hsep (hfs.link _ _ hkind) hfile
      have hslash : slash ∉ target' := fun hmem => absurd (hsep slash hmem) (by decide)
      have hrooted : isRooted target' = false := by
        refine eq_false_of_ne_true fun hr => hslash ?_
        exact List.mem_of_head? (of_decide_eq_true hr)
      refine .inr ⟨rfl, by simp, l ++ [target'], ?_, List.prefix_append l [target']⟩
      rw [hresolve]
      simp only [reduceCtorEq, and_false, if_false, hrooted, Bool.false_eq_true,
        components_slashless hslash, List.append_nil]
      change fs.resolveFrom .follow 39 l [target'] = _
      rw [resolveFrom_name hskip' hup', hdata]
      rfl

/-- An item of an entry's names. -/
def ItemOf (fs : Files) (l : Loc) (start : Text) (item : Item) (rel : List Text) : Prop :=
  item.relative = joined start rel ∧ Inside fs l rel

/-- Items for the accepted names that start with one of a list, each once. -/
def ItemsOf (fs : Files) (accept : Text → Option Mode → Bool) (l : Loc) (start : Text)
    (names : List Text) (items : List Item) : Prop :=
  ∃ rels, List.Forall₂ (ItemOf fs l start) items rels ∧ rels.Nodup ∧
    ∀ rel, rel ∈ rels ↔ ∃ c ∈ names, ∃ more, rel = c :: more ∧ Accepted fs accept l start rel

theorem ItemsOf.nil : ItemsOf fs accept l start [] [] :=
  ⟨[], .nil, List.nodup_nil, by simp⟩

theorem ItemsOf.cons {names : List Text} {is items : List Item} (hnew : c ∉ names)
    (h : ItemsOf fs accept l start [c] is) (hrest : ItemsOf fs accept l start names items) :
    ItemsOf fs accept l start (c :: names) (is ++ items) := by
  obtain ⟨rels, hitems, hnodup, hmem⟩ := h
  obtain ⟨rels', hitems', hnodup', hmem'⟩ := hrest
  refine ⟨rels ++ rels', List.rel_append hitems hitems', ?_, fun rel => ?_⟩
  · refine List.nodup_append.mpr ⟨hnodup, hnodup', ?_⟩
    rintro a ha b hb rfl
    obtain ⟨d, hd, more, rfl, -⟩ := (hmem a).mp ha
    obtain ⟨d', hd', more', heq, -⟩ := (hmem' _).mp hb
    cases heq
    rw [List.mem_singleton.mp hd] at hd'
    exact hnew hd'
  · rw [List.mem_append, hmem, hmem']
    simp only [List.mem_cons, List.not_mem_nil, or_false, exists_eq_left, exists_eq_or_imp]

theorem itemsOf_names {n : Nat} {names : List Text} {itemss : List (List Item)}
    (hnodup : names.Nodup)
    (h : List.Forall₂ (fun name is => visitEntry fs accept n d start name = some is) names itemss)
    (hentry : ∀ name ∈ names, ∀ is, visitEntry fs accept n d start name = some is →
      ItemsOf fs accept l start [name] is) :
    ItemsOf fs accept l start names itemss.flatten := by
  induction h with
  | nil => exact .nil
  | cons hfirst _ ih =>
    obtain ⟨hnew, hnodup⟩ := List.nodup_cons.mp hnodup
    exact .cons hnew (hentry _ List.mem_cons_self _ hfirst)
      (ih hnodup fun name hname => hentry name (List.mem_cons_of_mem _ hname))

theorem ItemsOf.below {names : List Text} {items : List Item} {item : Item}
    (hc : ¬ (c = [] ∨ c = [46]) ∧ c ≠ [46, 46]) (hk : fs.kind (l ++ [c]) = some .dir)
    (ha : accept (relativeTo start c) (some .directory) = true)
    (hitem : item.relative = relativeTo start c)
    (hnames : ∀ d, fs.kind (l ++ [c] ++ [d]) ≠ none → d ∈ names)
    (h : ItemsOf fs accept (l ++ [c]) (relativeTo start c) names items) :
    ItemsOf fs accept l start [c] (item :: items) := by
  obtain ⟨rels, hitems, hnodup, hmem⟩ := h
  have hresolve (rel : List Text) : fs.resolveFrom .follow maxLinks l (c :: rel) =
      fs.resolveFrom .follow maxLinks (l ++ [c]) rel := by
    rw [resolveFrom_name hc.1 hc.2, hk]
  refine ⟨[c] :: rels.map (c :: ·), .cons ⟨hitem, l ++ [c], ?_, List.prefix_append l [c]⟩ ?_, ?_,
    fun rel => ?_⟩
  · rw [hresolve, resolveFrom_nil]
  · rw [List.forall₂_map_right_iff]
    refine hitems.imp fun item rel hitem => ⟨hitem.1, ?_⟩
    obtain ⟨x, hx, hpre⟩ := hitem.2
    exact ⟨x, (hresolve rel).trans hx, (List.prefix_append l [c]).trans hpre⟩
  · refine List.nodup_cons.mpr ⟨fun hin => ?_, hnodup.map (List.cons_injective)⟩
    obtain ⟨rel, hrel, heq⟩ := List.mem_map.mp hin
    cases heq
    obtain ⟨_, _, _, heq, _⟩ := (hmem []).mp hrel
    cases heq
  · have haccepted (more : List Text) : Accepted fs accept l start (c :: more) ↔
        Accepted fs accept (l ++ [c]) (relativeTo start c) more := by
      simp [Accepted, hk, ha, Kind.mode]
    simp only [List.mem_cons, List.mem_map, List.not_mem_nil, or_false, exists_eq_left]
    constructor
    · rintro (rfl | ⟨more, hmore, rfl⟩)
      · exact ⟨[], rfl, (haccepted []).mpr trivial⟩
      · obtain ⟨_, _, _, _, hacc⟩ := (hmem more).mp hmore
        exact ⟨more, rfl, (haccepted more).mpr hacc⟩
    · rintro ⟨more, rfl, hacc⟩
      rw [haccepted] at hacc
      cases more with
      | nil => exact .inl rfl
      | cons e more =>
        refine .inr ⟨e :: more, (hmem _).mpr ⟨e, hnames e hacc.1.1, more, rfl, hacc⟩, rfl⟩

theorem ItemsOf.rejected (h : ¬ accept (relativeTo start c)
    ((fs.kind (l ++ [c])).map Kind.mode) = true) : ItemsOf fs accept l start [c] [] := by
  refine ⟨[], .nil, List.nodup_nil, fun rel => ?_⟩
  simp only [List.not_mem_nil, List.mem_singleton, exists_eq_left, false_iff]
  rintro ⟨more, rfl, hacc⟩
  exact h hacc.1.2

theorem ItemsOf.leaf {item : Item} (hfs : fs.Ok) (hthere : fs.kind (l ++ [c]) ≠ none)
    (hk : fs.kind (l ++ [c]) ≠ some .dir) (hinside : Inside fs l [c])
    (ha : accept (relativeTo start c) ((fs.kind (l ++ [c])).map Kind.mode) = true)
    (hitem : item.relative = relativeTo start c) : ItemsOf fs accept l start [c] [item] := by
  refine ⟨[[c]], .cons ⟨hitem, hinside⟩ .nil, List.nodup_singleton _, fun rel => ?_⟩
  simp only [List.mem_singleton, exists_eq_left]
  constructor
  · rintro rfl
    exact ⟨[], rfl, ⟨hthere, ha⟩, trivial⟩
  · rintro ⟨more, rfl, hacc⟩
    cases more with
    | nil => rfl
    | cons e more => exact absurd (hfs.parent _ e hacc.2.1.1) hk

/-- `visit` lists what is accepted, where no name has a backslash. -/
theorem visit_items (hfs : fs.Ok) (n : Nat) {items : List Item} (h : Reaches fs d l)
    (hplain : PlainBelow fs l)
    (hv : visit fs accept n d start = some items) :
    ∃ names, (∀ c, c ∈ names ↔ fs.kind (l ++ [c]) ≠ none) ∧
      ItemsOf fs accept l start names items := by
  induction n generalizing d l start items with
  | zero => cases hv
  | succ n ih =>
    obtain ⟨names, itemss, hnames, rfl, hitems⟩ := visit_eq_some hv
    rw [entries_resolve h.resolve h.dir] at hnames
    cases hnames
    have hmem (c : Text) : c ∈ (fs.names l).mergeSort (fun a b => decide (a ≤ b)) ↔
        fs.kind (l ++ [c]) ≠ none := by
      rw [List.mem_mergeSort, Files.mem_names hfs]
    have hnodup := (List.mergeSort_perm (fs.names l) fun a b => decide (a ≤ b)).nodup_iff.mpr
      (Files.names_nodup hfs l)
    refine ⟨_, hmem, itemsOf_names hnodup hitems fun c hc is his => ?_⟩
    have hthere := (hmem c).mp hc
    have hname : Name c :=
      ⟨(hfs.name l c hthere).1, (hfs.name l c hthere).2, hplain [c] hthere c List.mem_cons_self⟩
    rw [visitEntry, h.mode_name hname] at his
    by_cases ha : accept (relativeTo start c) ((fs.kind (l ++ [c])).map Kind.mode) = true
    · simp only [ha, if_true] at his
      obtain ⟨mode, hmode, his⟩ := Option.bind_eq_some_iff.mp his
      rcases itemMode_eq_some hfs h hname hmode with ⟨rfl, hk⟩ | ⟨rfl, hk, hinside⟩
      · rw [if_pos rfl] at his
        obtain ⟨below, hbelow, his⟩ := Option.bind_eq_some_iff.mp his
        cases his
        obtain ⟨names', hmem', hitems'⟩ := ih (h.child hname hk) hplain.child hbelow
        rw [hk] at ha
        exact hitems'.below hname.not_dots hk ha rfl fun e he => (hmem' e).mpr he
      · rw [if_neg (by decide)] at his
        cases his
        exact .leaf hfs hthere hk hinside ha rfl
    · rw [if_neg ha] at his
      cases his
      exact .rejected ha

theorem itemMode_regular (hfs : fs.Ok) (h : Reaches fs d l) (hc : Name c) (hr : Regular fs l c) :
    ∃ mode, itemMode fs d (join [d, c]) = some mode := by
  rw [Regular] at hr
  rw [itemMode, h.mode_name hc]
  cases hkind : fs.kind (l ++ [c]) with
  | none =>
    rw [hkind] at hr
    exact hr.elim
  | some kind =>
    rw [hkind] at hr
    cases kind with
    | file data => exact ⟨.file, rfl⟩
    | dir => exact ⟨.directory, rfl⟩
    | other => exact hr.elim
    | link target =>
      obtain ⟨hsep, data, hdata⟩ := hr
      obtain ⟨hproper, hslash⟩ := hfs.name l target (by rw [hdata]; simp)
      have hplain : Plain target := fun hmem => absurd (hsep backslash hmem) (by decide)
      have hno : ¬ target.any isSeparator = true := by
        intro hany
        obtain ⟨b, hb, hb'⟩ := List.any_eq_true.mp hany
        rw [hsep b hb] at hb'
        cases hb'
      refine ⟨.file, ?_⟩
      have htarget : fs.target (join [d, c]) = some target := by
        rw [Files.target, h.resolve_keep hc, hkind]
        simp [hkind]
      simp only [Option.map_some, Kind.mode, linkMode, htarget, Option.bind_some, if_neg hno,
        h.mode_name ⟨hproper, hslash, hplain⟩, hdata, if_true]

theorem mapM_some {f : α → Option β} {xs : List α} (h : ∀ x ∈ xs, ∃ y, f x = some y) :
    ∃ ys, xs.mapM f = some ys := by
  induction xs with
  | nil => exact ⟨[], rfl⟩
  | cons x xs ih =>
    obtain ⟨y, hy⟩ := h x List.mem_cons_self
    obtain ⟨ys, hys⟩ := ih fun x' hx' => h x' (List.mem_cons_of_mem _ hx')
    exact ⟨y :: ys, by rw [List.mapM_cons, hy, hys]; rfl⟩

/-- `visit` returns if what is accepted can be listed. -/
theorem visit_returns (hfs : fs.Ok) (n : Nat) (h : Reaches fs d l) (hplain : PlainBelow fs l)
    (hdepth : ∀ rel, fs.kind (l ++ rel) ≠ none → rel.length ≤ n)
    (hr : ∀ rel c, Accepted fs accept l start (rel ++ [c]) → Regular fs (l ++ rel) c) :
    ∃ items, visit fs accept (n + 1) d start = some items := by
  induction n generalizing d l start with
  | zero =>
    have hnone : (fs.names l).mergeSort (fun a b => decide (a ≤ b)) = [] := by
      refine List.eq_nil_iff_forall_not_mem.mpr fun c hc => ?_
      rw [List.mem_mergeSort, Files.mem_names hfs] at hc
      have hlen := hdepth [c] hc
      simp at hlen
    exact ⟨[], by rw [visit, entries_resolve h.resolve h.dir, hnone]; rfl⟩
  | succ n ih =>
    have hentry (c : Text) (hc : c ∈ (fs.names l).mergeSort (fun a b => decide (a ≤ b))) :
        ∃ is, visitEntry fs accept (n + 1) d start c = some is := by
      rw [List.mem_mergeSort, Files.mem_names hfs] at hc
      have hname : Name c :=
        ⟨(hfs.name l c hc).1, (hfs.name l c hc).2, hplain [c] hc c List.mem_cons_self⟩
      rw [visitEntry, h.mode_name hname]
      by_cases ha : accept (relativeTo start c) ((fs.kind (l ++ [c])).map Kind.mode) = true
      · have hregular := hr [] c ⟨⟨hc, ha⟩, trivial⟩
        rw [List.append_nil] at hregular
        obtain ⟨mode, hmode⟩ := itemMode_regular hfs h hname hregular
        simp only [ha, if_true, hmode]
        rcases itemMode_eq_some hfs h hname hmode with ⟨rfl, hk⟩ | ⟨rfl, -, -⟩
        · have hreturns : ∃ is, visit fs accept (n + 1) (join [d, c]) (relativeTo start c) =
              some is := by
            refine ih (h.child hname hk) hplain.child (fun rel hrel => ?_) fun rel e hacc => ?_
            · rw [List.append_assoc] at hrel
              have hlen := hdepth _ hrel
              rw [List.length_append, List.length_singleton] at hlen
              omega
            · rw [List.append_assoc]
              exact hr ([c] ++ rel) e ⟨⟨hc, ha⟩, hacc⟩
          obtain ⟨below, hbelow⟩ := hreturns
          simp only [Option.bind_eq_bind, Option.bind_some, if_true, hbelow]
          exact ⟨_, rfl⟩
        · exact ⟨_, rfl⟩
      · rw [if_neg ha]
        exact ⟨[], rfl⟩
    obtain ⟨itemss, hitems⟩ := mapM_some hentry
    refine ⟨itemss.flatten, ?_⟩
    rw [visit, entries_resolve h.resolve h.dir, Option.bind_eq_bind, Option.bind_some]
    exact congrArg (Option.bind · _) hitems

end Visit

/-- The items of `walk`: what is accepted below a directory, each once and by a relative path that
stays in it. -/
structure Lists (fs : Files) (accept : Text → Option Mode → Bool) (l : Loc) (items : List Item) :
    Prop where
  exact : ∀ text, (∃ item ∈ items, item.relative = text) ↔
    ∃ rel ≠ [], text = joined [] rel ∧ Accepted fs accept l [] rel
  once : (items.map Item.relative).Nodup
  inside : ∀ item ∈ items, Inside fs l (components item.relative)

theorem Accepted.there {fs : Files} {accept : Text → Option Mode → Bool} {l : Loc} {start : Text}
    {rel : List Text} (h : Accepted fs accept l start rel) (hrel : rel ≠ []) :
    fs.kind (l ++ rel) ≠ none := by
  induction rel generalizing l start with
  | nil => exact absurd rfl hrel
  | cons c rel ih =>
    by_cases hnil : rel = []
    · rw [hnil]
      exact h.1.1
    · have hrest := ih h.2 hnil
      rwa [List.append_assoc, List.singleton_append] at hrest

theorem Files.Ok.names_below {fs : Files} (hfs : fs.Ok) {l : Loc} {rel : List Text}
    (h : fs.kind (l ++ rel) ≠ none) : ∀ c ∈ rel, isName c = true ∧ slash ∉ c := by
  induction rel using List.reverseRecOn with
  | nil => simp
  | append_singleton rel d ih =>
    rw [← List.append_assoc] at h
    intro c hc
    rcases List.mem_append.mp hc with hc | hc
    · refine ih ?_ c hc
      rw [hfs.parent _ _ h]
      simp
    · cases List.mem_singleton.mp hc
      exact hfs.name _ _ h

theorem walk_lists {fs : Files} {accept : Text → Option Mode → Bool} {root : Text} {l : Loc}
    {n : Nat} {items : List Item} (hfs : fs.Ok) (h : Reaches fs root l)
    (hplain : PlainBelow fs l)
    (hw : walk n fs root accept = some items) : Lists fs accept l items := by
  obtain ⟨names, hnames, rels, hitems, hnodup, hmem⟩ := visit_items hfs n h hplain hw
  have hrel (rel : List Text) : rel ∈ rels ↔ rel ≠ [] ∧ Accepted fs accept l [] rel := by
    rw [hmem]
    constructor
    · rintro ⟨c, -, more, rfl, hacc⟩
      exact ⟨by simp, hacc⟩
    · rintro ⟨hne, hacc⟩
      cases rel with
      | nil => exact absurd rfl hne
      | cons c more => exact ⟨c, (hnames c).mpr hacc.1.1, more, rfl, hacc⟩
  have hcomponents (rel : List Text) (hr : rel ∈ rels) : components (joined [] rel) = rel := by
    obtain ⟨hne, hacc⟩ := (hrel rel).mp hr
    refine components_relative (fun c hc => ?_) hne
    obtain ⟨hproper, hslash⟩ := hfs.names_below (hacc.there hne) c hc
    refine ⟨?_, hslash⟩
    rintro rfl
    exact absurd hproper (by decide)
  have hrelative : items.map Item.relative = rels.map (joined []) := by
    refine List.forall₂_eq_eq_eq ▸ ?_
    rw [List.forall₂_map_left_iff, List.forall₂_map_right_iff]
    exact hitems.imp fun _ _ hi => hi.1
  have hback : (items.map Item.relative).map components = rels := by
    rw [hrelative, List.map_map]
    conv_rhs => rw [← List.map_id rels]
    exact List.map_congr_left hcomponents
  refine ⟨fun text => ?_, ?_, fun item hitem => ?_⟩
  · have hin : (∃ item ∈ items, item.relative = text) ↔ text ∈ items.map Item.relative := by
      rw [List.mem_map]
    rw [hin, hrelative, List.mem_map]
    constructor
    · rintro ⟨rel, hr, rfl⟩
      exact ⟨rel, ((hrel rel).mp hr).1, rfl, ((hrel rel).mp hr).2⟩
    · rintro ⟨rel, hne, rfl, hacc⟩
      exact ⟨rel, (hrel rel).mpr ⟨hne, hacc⟩, rfl⟩
  · exact .of_map components (hback ▸ hnodup)
  · obtain ⟨rel, hr, htext, hi⟩ := mem_forall₂ hitems hitem
    rw [htext, hcomponents rel hr]
    exact hi

end Fs
end Skyext
