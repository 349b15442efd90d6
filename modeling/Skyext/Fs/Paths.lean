import Mathlib.Data.List.Induction
import Mathlib.Data.List.Nodup
import Skyext.Fs.Fs

namespace Skyext
set_option autoImplicit true

namespace Fs

def Plain (text : Text) : Prop := backslash ∉ text

instance (text : Text) : Decidable (Plain text) := inferInstanceAs (Decidable (backslash ∉ text))

/-- A name that `join` appends as it is. -/
structure Name (c : Text) : Prop where
  proper : isName c = true
  slashless : slash ∉ c
  plain : Plain c

section Join

variable {d c x y : Text}

theorem Name.ne_nil (h : Name c) : c ≠ [] := by
  rintro rfl
  exact absurd h.proper (by decide)

theorem Name.not_dots (h : Name c) : ¬ (c = [] ∨ c = [46]) ∧ c ≠ [46, 46] := by
  refine ⟨?_, ?_⟩
  · rintro (rfl | rfl)
    · exact absurd h.proper (by decide)
    · exact absurd h.proper (by decide)
  · rintro rfl
    exact absurd h.proper (by decide)

theorem isSeparator_iff (c : UInt8) : isSeparator c = true ↔ c = slash ∨ c = backslash := by
  simp [isSeparator]

theorem Name.no_separator (h : Name c) : ∀ b ∈ c, isSeparator b = false := by
  intro b hb
  refine eq_false_of_ne_true fun hsep => ?_
  rcases (isSeparator_iff b).mp hsep with rfl | rfl
  · exact h.slashless hb
  · exact h.plain hb

theorem native_plain (h : Plain d) : native d = d := by
  rw [native]
  conv_rhs => rw [← List.map_id d]
  refine List.map_congr_left fun b hb => ?_
  simp only [id_eq]
  split
  · next hsep =>
    rcases (isSeparator_iff b).mp hsep with rfl | rfl
    · rfl
    · exact absurd hb h
  · rfl

theorem plain_native (d : Text) : Plain (native d) := by
  intro h
  obtain ⟨b, -, hb⟩ := List.mem_map.mp h
  split at hb
  · exact absurd hb (by decide)
  · next hsep =>
    subst hb
    exact hsep (by decide)

theorem Plain.append (hx : Plain x) (hy : Plain y) : Plain (x ++ y) := by
  intro h
  rcases List.mem_append.mp h with h | h
  · exact hx h
  · exact hy h

theorem Plain.stripLast (h : Plain d) : Plain (stripLast d) := by
  intro hmem
  rw [Fs.stripLast] at hmem
  split at hmem
  · exact h ((List.dropLast_sublist d).subset hmem)
  · exact h hmem

theorem isAbsolute_plain (h : ∀ b ∈ c, isSeparator b = false) : isAbsolute c = false := by
  rcases c with _ | ⟨b, _ | ⟨colon, _ | ⟨sep, rest⟩⟩⟩
  · rfl
  · simp [isAbsolute, h]
  · simp [isAbsolute, h]
  · simp [isAbsolute, h]

theorem join_append (hd : Plain d) (hne : d ≠ []) (hc : Plain c) (hcne : c ≠ [])
    (hrel : isAbsolute c = false) : join [d, c] = stripLast d ++ slash :: c := by
  simp [join, hne, hcne, native_plain hd, native_plain hc, hrel]

theorem plain_join (d c : Text) : Plain (join [d, c]) := by
  have hstep (path part : Text) (hpath : Plain path) : Plain (if part = [] then path else
      if path = [] ∨ isAbsolute (native part) = true then native part
      else stripLast path ++ slash :: native part) := by
    split
    · exact hpath
    · split
      · exact plain_native part
      · refine hpath.stripLast.append ?_
        intro h
        rcases List.mem_cons.mp h with h | h
        · exact absurd h (by decide)
        · exact plain_native part h
  exact hstep _ c (hstep [] d (by simp [Plain]))

theorem stripLast_append_name (h : Name c) (x : Text) :
    stripLast (x ++ slash :: c) = x ++ slash :: c := by
  have hlast : (x ++ slash :: c).getLast?.any isSeparator = false := by
    rw [List.getLast?_append, List.getLast?_cons]
    cases hc : c.getLast? with
    | none => exact absurd (List.getLast?_eq_none_iff.mp hc) h.ne_nil
    | some b => simpa using h.no_separator b (List.mem_of_getLast? hc)
  rw [stripLast, if_neg (by rw [hlast]; decide)]

theorem isRooted_stripLast (hd : Plain d) (hne : d ≠ []) (y : Text) :
    isRooted (stripLast d ++ slash :: y) = isRooted d := by
  cases d with
  | nil => exact absurd rfl hne
  | cons b d =>
    rw [stripLast]
    split
    · next hlast =>
      cases d with
      | nil =>
        simp only [List.getLast?_singleton, Option.any_some, isSeparator_iff] at hlast
        rcases hlast with rfl | rfl
        · rfl
        · exact absurd List.mem_cons_self hd
      | cons b' d => rfl
    · rfl

theorem components_append (x y : Text) :
    components (x ++ slash :: y) = components x ++ components y :=
  List.splitOn_append_cons_self x y

theorem components_slashless (h : slash ∉ c) : components c = [c] := List.splitOn_eq_singleton h

theorem components_stripLast (hd : Plain d) :
    components d = components (stripLast d) ∨ components d = components (stripLast d) ++ [[]] := by
  rw [stripLast]
  split
  · next hlast =>
    right
    cases hl : d.getLast? with
    | none => simp [hl] at hlast
    | some b =>
      simp only [hl, Option.any_some, isSeparator_iff] at hlast
      have hd' : d = d.dropLast ++ [b] := (List.dropLast_append_getLast? b hl).symm
      have hb : b = slash := by
        rcases hlast with h | rfl
        · exact h
        · exact absurd (List.mem_of_getLast? hl) hd
      conv_lhs => rw [hd', hb, components_append]
      rfl
  · exact .inl rfl

end Join

/-- Names that lead from a directory to another one, with the numbers of links left before and
after them. -/
inductive Walks (fs : Files) : Nat → Loc → List Text → Nat → Loc → Prop
  | nil : Walks fs n l [] n l
  | skip (h : c = [] ∨ c = [46]) (w : Walks fs n l xs k m) : Walks fs n l (c :: xs) k m
  | up (w : Walks fs n l.dropLast xs k m) : Walks fs n l ([46, 46] :: xs) k m
  | dir (h : ¬ (c = [] ∨ c = [46])) (hup : c ≠ [46, 46]) (hk : fs.kind (l ++ [c]) = some .dir)
      (w : Walks fs n (l ++ [c]) xs k m) : Walks fs n l (c :: xs) k m
  | link (h : ¬ (c = [] ∨ c = [46])) (hup : c ≠ [46, 46])
      (hk : fs.kind (l ++ [c]) = some (.link target))
      (w : Walks fs n (if isRooted target then [] else l) (components target ++ xs) k m) :
      Walks fs (n + 1) l (c :: xs) k m

section Resolution

variable {fs : Files} {l m : Loc} {xs ys : List Text} {c : Text}

/-- What is done at a link with so many links left. -/
def linkFrom (fs : Files) (last : Last) : Nat → Loc → List Text → Option Loc
  | 0 => fun _ _ => none
  | n + 1 => fs.resolveFrom last n

theorem resolveFrom_eq (last : Last) (n : Nat) :
    fs.resolveFrom last n = fs.follow (linkFrom fs last n) last := by
  cases n <;> rfl

theorem resolveFrom_nil (last : Last) (n : Nat) (l : Loc) :
    fs.resolveFrom last n l [] = some l := by
  cases n <;> rfl

theorem resolveFrom_skip (h : c = [] ∨ c = [46]) (last : Last) (n : Nat) (l : Loc)
    (xs : List Text) : fs.resolveFrom last n l (c :: xs) = fs.resolveFrom last n l xs := by
  rw [resolveFrom_eq, Files.follow, if_pos h]

theorem resolveFrom_up (last : Last) (n : Nat) (l : Loc) (xs : List Text) :
    fs.resolveFrom last n l ([46, 46] :: xs) = fs.resolveFrom last n l.dropLast xs := by
  rw [resolveFrom_eq, Files.follow, if_neg (by decide), if_pos rfl]

theorem resolveFrom_name (h : ¬ (c = [] ∨ c = [46])) (hup : c ≠ [46, 46]) (last : Last) (n : Nat)
    (l : Loc) (xs : List Text) : fs.resolveFrom last n l (c :: xs) =
      match fs.kind (l ++ [c]) with
      | none => if xs = [] ∧ last = .create then some (l ++ [c]) else none
      | some (.link target) =>
        if xs = [] ∧ last = .keep then some (l ++ [c])
        else linkFrom fs last n (if isRooted target then [] else l) (components target ++ xs)
      | some .dir => fs.resolveFrom last n (l ++ [c]) xs
      | some _ => if xs = [] then some (l ++ [c]) else none := by
  rw [resolveFrom_eq]
  exact (if_neg h).trans (if_neg hup)

theorem Walks.resolveFrom (w : Walks fs n l xs k m) (last : Last) {ys : List Text}
    (hys : last = .follow ∨ ys ≠ []) :
    fs.resolveFrom last n l (xs ++ ys) = fs.resolveFrom last k m ys := by
  have hnot {zs : List Text} : ¬ (zs ++ ys = [] ∧ last = .keep) := by
    rintro ⟨hnil, rfl⟩
    rcases hys with h | h
    · cases h
    · exact h (List.append_eq_nil_iff.mp hnil).2
  induction w with
  | nil => rfl
  | skip h w ih => rw [List.cons_append, resolveFrom_skip h, ih]
  | up w ih => rw [List.cons_append, resolveFrom_up, ih]
  | dir h hup hk w ih =>
    rw [List.cons_append, resolveFrom_name h hup, hk]
    exact ih
  | link h hup hk w ih =>
    rw [List.cons_append, resolveFrom_name h hup, hk]
    simp only
    rw [if_neg hnot, ← List.append_assoc]
    exact ih

theorem Walks.leads (w : Walks fs n l xs k m) : fs.resolveFrom .follow n l xs = some m := by
  have hwalk := w.resolveFrom .follow (.inl rfl : _ ∨ ([] : List Text) ≠ [])
  rwa [List.append_nil, resolveFrom_nil] at hwalk

theorem Walks.trans (w : Walks fs n l xs k m) (w' : Walks fs k m ys j o) :
    Walks fs n l (xs ++ ys) j o := by
  induction w with
  | nil => exact w'
  | skip h w ih => exact .skip h (ih w')
  | up w ih => exact .up (ih w')
  | dir h hup hk w ih => exact .dir h hup hk (ih w')
  | link h hup hk w ih =>
    have hrest := ih w'
    rw [List.append_assoc] at hrest
    exact .link h hup hk hrest

theorem Walks.of_resolveFrom {last : Last} (h : fs.resolveFrom last n l xs = some m)
    (hm : fs.kind m = some .dir) : ∃ k, Walks fs n l xs k m := by
  induction n using Nat.strongRecOn generalizing l xs with
  | _ n ihn =>
    induction xs generalizing l with
    | nil =>
      rw [resolveFrom_nil] at h
      cases h
      exact ⟨n, .nil⟩
    | cons c xs ih =>
      by_cases hskip : c = [] ∨ c = [46]
      · rw [resolveFrom_skip hskip] at h
        obtain ⟨k, w⟩ := ih h
        exact ⟨k, .skip hskip w⟩
      by_cases hup : c = [46, 46]
      · subst hup
        rw [resolveFrom_up] at h
        obtain ⟨k, w⟩ := ih h
        exact ⟨k, .up w⟩
      rw [resolveFrom_name hskip hup] at h
      have hfile : ¬ (if xs = [] then some (l ++ [c]) else none) = some m ∨
          fs.kind (l ++ [c]) = some .dir := by
        by_cases hxs : xs = []
        · by_cases hl : l ++ [c] = m
          · exact .inr (hl ▸ hm)
          · exact .inl (by simpa [hxs] using hl)
        · exact .inl (by simp [hxs])
      cases hk : fs.kind (l ++ [c]) with
      | none =>
        rw [hk] at h
        simp only [Option.ite_none_right_eq_some] at h
        have hnone : fs.kind m = none := Option.some.inj h.2 ▸ hk
        rw [hm] at hnone
        cases hnone
      | some kind =>
        rw [hk] at h hfile
        cases kind with
        | dir =>
          obtain ⟨k, w⟩ := ih h
          exact ⟨k, .dir hskip hup hk w⟩
        | file data => exact absurd h (hfile.resolve_right (by simp))
        | other => exact absurd h (hfile.resolve_right (by simp))
        | link target =>
          simp only at h
          split at h
          · have hlink : fs.kind m = some (.link target) := Option.some.inj h ▸ hk
            rw [hm] at hlink
            cases hlink
          cases n with
          | zero => cases h
          | succ n =>
            obtain ⟨k, w⟩ := ihn n (Nat.lt_succ_self n) h
            exact ⟨k, .link hskip hup hk w⟩

theorem Walks.mono {fs' : Files} (w : Walks fs n l xs k m)
    (hdirs : ∀ l, fs.kind l = some .dir → fs'.kind l = some .dir)
    (hlinks : ∀ l target, fs.kind l = some (.link target) → fs'.kind l = some (.link target)) :
    Walks fs' n l xs k m := by
  induction w with
  | nil => exact .nil
  | skip hc w ih => exact .skip hc ih
  | up w ih => exact .up ih
  | dir hc hup hk w ih => exact .dir hc hup (hdirs _ hk) ih
  | link hc hup hk w ih => exact .link hc hup (hlinks _ _ hk) ih

theorem Walks.of_trailing (h : Walks fs n l (xs ++ [[]]) k m) : Walks fs n l xs k m := by
  generalize hzs : xs ++ [[]] = zs at h
  induction h generalizing xs with
  | nil => exact absurd (List.append_eq_nil_iff.mp hzs).2 (by simp)
  | skip hc w ih =>
    cases xs with
    | nil =>
      cases hzs
      exact w
    | cons x xs =>
      cases hzs
      exact .skip hc (ih rfl)
  | up w ih =>
    cases xs with
    | nil => cases hzs
    | cons x xs =>
      cases hzs
      exact .up (ih rfl)
  | dir hc hup hk w ih =>
    cases xs with
    | nil =>
      cases hzs
      exact absurd (.inl rfl) hc
    | cons x xs =>
      cases hzs
      exact .dir hc hup hk (ih rfl)
  | link hc hup hk w ih =>
    cases xs with
    | nil =>
      cases hzs
      exact absurd (.inl rfl) hc
    | cons x xs =>
      cases hzs
      exact .link hc hup hk (ih (List.append_assoc _ _ _))

end Resolution

/-- A path without backslashes to a directory. -/
structure Reaches (fs : Files) (d : Text) (l : Loc) : Prop where
  plain : Plain d
  ne_nil : d ≠ []
  walks : ∃ k, Walks fs maxLinks (fs.start d) (components (stripLast d)) k l
  dir : fs.kind l = some .dir

theorem splitLast_append {c : Text} (h : Name c) (x : Text) :
    splitLast (x ++ slash :: c) = some (components x, c) := by
  rw [splitLast, components_append, components_slashless h.slashless, List.reverse_append,
    List.reverse_singleton, List.singleton_append,
    List.dropWhile_cons_of_neg (by simpa using h.ne_nil)]
  simp only [h.proper, if_true, List.reverse_reverse]

namespace Reaches

variable {fs fs' : Files} {d c : Text} {l : Loc}

theorem of_resolve (hd : Plain d) {last : Last} (h : fs.resolve last d = some l)
    (hl : fs.kind l = some .dir) : Reaches fs d l := by
  rw [Files.resolve] at h
  split at h
  · cases h
  · next hne =>
    obtain ⟨k, w⟩ := Walks.of_resolveFrom h hl
    refine ⟨hd, hne, ⟨k, ?_⟩, hl⟩
    rcases components_stripLast hd with hc | hc
    · rw [hc] at w
      exact w
    · rw [hc] at w
      exact w.of_trailing

theorem resolve (h : Reaches fs d l) : fs.resolve .follow d = some l := by
  obtain ⟨k, w⟩ := h.walks
  rw [Files.resolve, if_neg h.ne_nil]
  rcases components_stripLast h.plain with hc | hc
  · rw [hc, w.leads]
  · rw [hc, w.resolveFrom .follow (.inl rfl), resolveFrom_skip (.inl rfl), resolveFrom_nil]

theorem mono (h : Reaches fs d l) (hcwd : fs'.cwd = fs.cwd)
    (hdirs : ∀ l, fs.kind l = some .dir → fs'.kind l = some .dir)
    (hlinks : ∀ l target, fs.kind l = some (.link target) → fs'.kind l = some (.link target)) :
    Reaches fs' d l := by
  obtain ⟨k, w⟩ := h.walks
  refine ⟨h.plain, h.ne_nil, ⟨k, ?_⟩, hdirs _ h.dir⟩
  have hstart : fs'.start d = fs.start d := by rw [Files.start, Files.start, hcwd]
  rw [hstart]
  exact w.mono hdirs hlinks

theorem start_join (h : Reaches fs d l) (y : Text) :
    fs.start (stripLast d ++ slash :: y) = fs.start d := by
  rw [Files.start, Files.start, isRooted_stripLast h.plain h.ne_nil]

theorem join_name (h : Reaches fs d l) (hc : Name c) : join [d, c] = stripLast d ++ slash :: c :=
  join_append h.plain h.ne_nil hc.plain hc.ne_nil (isAbsolute_plain hc.no_separator)

theorem resolve_slashless (h : Reaches fs d l) (hc : ∀ b ∈ c, isSeparator b = false)
    (hne : c ≠ []) :
    ∃ k, ∀ last, fs.resolve last (join [d, c]) = fs.resolveFrom last k l [c] := by
  obtain ⟨k, w⟩ := h.walks
  have hslash : slash ∉ c := fun hmem => absurd (hc slash hmem) (by decide)
  have hplain : Plain c := fun hmem => absurd (hc backslash hmem) (by decide)
  refine ⟨k, fun last => ?_⟩
  rw [join_append h.plain h.ne_nil hplain hne (isAbsolute_plain hc), Files.resolve,
    if_neg (by simp), h.start_join, components_append, components_slashless hslash,
    w.resolveFrom last (.inr (by simp))]

theorem resolve_name (h : Reaches fs d l) (hc : Name c) :
    ∃ k, ∀ last, fs.resolve last (join [d, c]) = fs.resolveFrom last k l [c] :=
  h.resolve_slashless hc.no_separator hc.ne_nil

theorem resolve_keep (h : Reaches fs d l) (hc : Name c) :
    fs.resolve .keep (join [d, c]) =
      if fs.kind (l ++ [c]) = none then none else some (l ++ [c]) := by
  obtain ⟨k, hk⟩ := h.resolve_name hc
  obtain ⟨hskip, hup⟩ := hc.not_dots
  rw [hk, resolveFrom_name hskip hup]
  cases hkind : fs.kind (l ++ [c]) with
  | none => rfl
  | some kind => cases kind <;> simp [resolveFrom_nil]

theorem mode_name (h : Reaches fs d l) (hc : Name c) :
    fs.mode (join [d, c]) = (fs.kind (l ++ [c])).map Kind.mode := by
  rw [Files.mode, h.resolve_keep hc]
  cases hkind : fs.kind (l ++ [c]) with
  | none => rfl
  | some kind => simp [hkind]

theorem child (h : Reaches fs d l) (hc : Name c) (hk : fs.kind (l ++ [c]) = some .dir) :
    Reaches fs (join [d, c]) (l ++ [c]) := by
  obtain ⟨k, w⟩ := h.walks
  obtain ⟨hskip, hup⟩ := hc.not_dots
  refine ⟨plain_join d c, ?_, ⟨k, ?_⟩, hk⟩
  · rw [h.join_name hc]
    simp
  · rw [h.join_name hc, stripLast_append_name hc, h.start_join, components_append,
      components_slashless hc.slashless]
    exact w.trans (.dir hskip hup hk .nil)

theorem place_name (h : Reaches fs d l) (hc : Name c) :
    fs.place (join [d, c]) = some (l ++ [c]) := by
  obtain ⟨k, w⟩ := h.walks
  rw [Files.place, h.join_name hc, splitLast_append hc, Option.bind_some]
  simp only [h.start_join, w.leads, Option.bind_some, if_pos h.dir]

end Reaches

namespace Files

variable {fs : Files} {l l' : Loc} {c : Text}

theorem nameIn_eq_some : fs.nameIn l l' = some c ↔ l' = l ++ [c] ∧ fs.kind (l ++ [c]) ≠ none := by
  rw [nameIn]
  constructor
  · intro h
    obtain ⟨c', -, h⟩ := Option.bind_eq_some_iff.mp h
    split at h
    · next hc =>
      cases h
      exact ⟨hc.1, hc.1 ▸ hc.2⟩
    · cases h
  · rintro ⟨rfl, hk⟩
    simp [hk]

theorem mem_names (hfs : fs.Ok) : c ∈ fs.names l ↔ fs.kind (l ++ [c]) ≠ none := by
  rw [names, List.mem_filterMap]
  constructor
  · rintro ⟨l', -, h⟩
    exact (nameIn_eq_some.mp h).2
  · intro h
    exact ⟨l ++ [c], hfs.covers _ h, nameIn_eq_some.mpr ⟨rfl, h⟩⟩

theorem names_nodup (hfs : fs.Ok) (l : Loc) : (fs.names l).Nodup := by
  refine List.Nodup.filterMap (fun a b c ha hb => ?_) hfs.nodup
  rw [(nameIn_eq_some.mp ha).1, (nameIn_eq_some.mp hb).1]

theorem names_eq_nil (hfs : fs.Ok) : fs.names l = [] ↔ ∀ c, fs.kind (l ++ [c]) = none := by
  rw [List.eq_nil_iff_forall_not_mem]
  simp only [mem_names hfs, ne_eq, not_not]

@[simp] theorem put_kind (fs : Files) (l : Loc) (k : Option Kind) :
    (fs.put l k).kind = Function.update fs.kind l k := rfl

theorem Ok.put_locs (hfs : fs.Ok) (l : Loc) (k : Option Kind) :
    (∀ x, (fs.put l k).kind x ≠ none → x ∈ (fs.put l k).locs) ∧ (fs.put l k).locs.Nodup := by
  have hmem : l ∈ (fs.put l k).locs := by
    simp only [put]
    split
    · next h => exact h
    · exact List.mem_cons_self
  refine ⟨fun x hx => ?_, ?_⟩
  · by_cases hxl : x = l
    · exact hxl ▸ hmem
    · rw [put_kind, Function.update_of_ne hxl] at hx
      have hold := hfs.covers x hx
      simp only [put]
      split
      · exact hold
      · exact List.mem_cons_of_mem _ hold
  · simp only [put]
    split
    · exact hfs.nodup
    · next h => exact List.nodup_cons.mpr ⟨h, hfs.nodup⟩

theorem Ok.below_dir (hfs : fs.Ok) {rel : List Text} (hrel : rel ≠ [])
    (h : fs.kind (l ++ rel) ≠ none) : fs.kind l = some .dir := by
  induction rel using List.reverseRecOn with
  | nil => exact absurd rfl hrel
  | append_singleton rel c ih =>
    rw [← List.append_assoc] at h
    have hdir := hfs.parent _ _ h
    by_cases hnil : rel = []
    · rw [hnil, List.append_nil] at hdir
      exact hdir
    · refine ih hnil ?_
      rw [hdir]
      simp

theorem Ok.first (hfs : fs.Ok) {rel : List Text} (h : fs.kind (l ++ c :: rel) ≠ none) :
    fs.kind (l ++ [c]) ≠ none := by
  have hsplit : l ++ c :: rel = l ++ [c] ++ rel := by simp
  rw [hsplit] at h
  by_cases hrel : rel = []
  · rwa [hrel, List.append_nil] at h
  · rw [hfs.below_dir hrel h]
    simp

theorem Ok.put_none (hfs : fs.Ok) (hl : l ≠ []) (hempty : ∀ c, fs.kind (l ++ [c]) = none) :
    (fs.put l none).Ok := by
  obtain ⟨hcovers, hnodup⟩ := hfs.put_locs l none
  have hkind (x : Loc) (c : Text) (h : (fs.put l none).kind (x ++ [c]) ≠ none) :
      fs.kind (x ++ [c]) ≠ none ∧ x ≠ l := by
    by_cases hx : x ++ [c] = l
    · rw [put_kind, hx, Function.update_self] at h
      exact absurd rfl h
    · rw [put_kind, Function.update_of_ne hx] at h
      refine ⟨h, ?_⟩
      rintro rfl
      exact h (hempty c)
  refine ⟨?_, fun x c h => ?_, fun x c h => ?_, fun x target h => ?_, hcovers, hnodup⟩
  · rw [put_kind, Function.update_of_ne hl.symm]
    exact hfs.root
  · obtain ⟨hold, hne⟩ := hkind x c h
    rw [put_kind, Function.update_of_ne hne]
    exact hfs.parent x c hold
  · exact hfs.name x c (hkind x c h).1
  · by_cases hx : x = l
    · rw [put_kind, hx, Function.update_self] at h
      cases h
    · rw [put_kind, Function.update_of_ne hx] at h
      exact hfs.link x target h

end Files

end Fs
end Skyext
