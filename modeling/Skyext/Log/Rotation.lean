import Mathlib.Data.List.Perm.Subperm
import Mathlib.Data.List.Range
import Mathlib.Tactic.Linarith
import Skyext.Log.File

namespace Skyext
set_option autoImplicit true

namespace Log

def bytesOf (g : List Put) : Bytes := (g.map fun p => p.str ++ [10]).flatten

/-- What the lines of one file are limited to. -/
def Within : Splitting → List Put → Prop
  | .line maxline, g => g.length ≤ maxline
  | .size maxsize, g => (bytesOf g).length ≤ maxsize ∨ g.length = 1
  | .time split, g => ∀ a ∈ g, ∀ b ∈ g, split.Same a.time b.time

/-- Since `start` the lines have gone to files of the given names and then to the current one, a
group of lines to each. -/
structure Rotates (params : Splitting) (start obj : FileObj) (lines : List Put)
    (names : List String) (groups : List (List Put)) : Prop where
  renames : obj.renames = start.renames ++ names
  distinct : (names ++ [start.path]).Nodup
  fresh : ∀ n ∈ names, n ∉ start.files
  kept : ∀ n ∈ start.files, n ≠ start.path → obj.files.lookup n = start.files.lookup n
  lines : groups.flatten = lines
  contents : (names ++ [start.path]).map obj.files.lookup = groups.map fun g => some (bytesOf g)
  within : ∀ g ∈ groups, Within params g

/-- What a bucket may have done to the files before its first record. -/
structure Opens (files : Files) (start : FileObj) : Prop where
  kept : ∀ n ∈ files, n ≠ start.path → start.files.lookup n = files.lookup n
  previous : ∀ content ∈ files.lookup start.path, content ≠ [] →
    ∃ n ∉ files, start.files.lookup n = some content
  empty : start.files.lookup start.path = some []

variable {files : Files} {filename name n : String} {obj start : FileObj} {mgr mgr' : SplitMgr}
  {content str : Bytes} {mode mode' : Mode} {params : Splitting} {t : Date}

namespace FileObj

def numbered (filename : String) (i : Nat) : String := filename ++ "." ++ toString i

theorem numbered_injective (filename : String) : Function.Injective (numbered filename) := by
  intro i j h
  have hchars : (toString i).toList = (toString j).toList := by
    have hlist : (filename ++ ".").toList ++ (toString i).toList =
        (filename ++ ".").toList ++ (toString j).toList := by
      rw [← String.toList_append, ← String.toList_append]
      exact congrArg String.toList h
    exact List.append_cancel_left hlist
  rw [Nat.toString_eq_ofList_toDigits, Nat.toString_eq_ofList_toDigits, String.toList_ofList,
    String.toList_ofList] at hchars
  have hread := congrArg (fun digits => Nat.ofDigitChars 10 digits 0) hchars
  simpa using hread

theorem nextName_last (h : mgr.lastprefixed = some filename) : nextName filename mgr =
    (numbered filename (mgr.count + 1), { mgr with count := mgr.count + 1 }) := by
  rw [nextName, if_pos h, numbered]

theorem newPath_succ (n : Nat) : newPath files filename (n + 1) mgr =
    if (nextName filename mgr).1 ∈ files then newPath files filename n (nextName filename mgr).2
    else some (nextName filename mgr) := rfl

theorem newPath_none (n : Nat) (hlast : mgr.lastprefixed = some filename)
    (h : newPath files filename n mgr = none) (i : Nat) (hi : i < n) :
    numbered filename (mgr.count + 1 + i) ∈ files := by
  induction n generalizing mgr i with
  | zero => exact absurd hi (Nat.not_lt_zero i)
  | succ n ih =>
    rw [newPath_succ, nextName_last hlast] at h
    split at h
    · next hused =>
      cases i with
      | zero => exact hused
      | succ i =>
        have hlast' : ({ mgr with count := mgr.count + 1 } : SplitMgr).lastprefixed =
            some filename := hlast
        have hnext : numbered filename (mgr.count + 1 + 1 + i) ∈ files :=
          ih hlast' h i (Nat.lt_of_succ_lt_succ hi)
        rwa [show mgr.count + 1 + (i + 1) = mgr.count + 1 + 1 + i by omega]
    · cases h

theorem newPath_last (hlast : mgr.lastprefixed = some filename) :
    ∃ r, newPath files filename (files.entries.length + 1) mgr = some r := by
  refine Option.ne_none_iff_exists'.mp fun h => ?_
  have hsub : (List.range (files.entries.length + 1)).map
      (fun i => numbered filename (mgr.count + 1 + i)) ⊆ files.keys := by
    intro name hname
    obtain ⟨i, hi, rfl⟩ := List.mem_map.mp hname
    exact AList.mem_keys.mp (newPath_none _ hlast h i (List.mem_range.mp hi))
  have hnodup : ((List.range (files.entries.length + 1)).map
      (fun i => numbered filename (mgr.count + 1 + i))).Nodup := by
    refine List.nodup_range.map fun i j hij => ?_
    exact Nat.add_left_cancel (numbered_injective filename hij)
  have hlen := (List.subperm_of_subset hnodup hsub).length_le
  rw [List.length_map, List.length_range, AList.keys, List.keys, List.length_map] at hlen
  exact absurd hlen (Nat.not_succ_le_self _)

theorem newPath_total (files : Files) (filename : String) (mgr : SplitMgr) :
    ∃ r, newPath files filename (files.entries.length + 2) mgr = some r := by
  rw [newPath_succ]
  split
  · refine newPath_last ?_
    unfold nextName
    split
    · assumption
    · rfl
  · exact ⟨_, rfl⟩

theorem newPath_fresh (n : Nat) (h : newPath files filename n mgr = some (name, mgr')) :
    name ∉ files ∧ mgr'.mode = mgr.mode := by
  induction n generalizing mgr with
  | zero => cases h
  | succ n ih =>
    have hmode : (nextName filename mgr).2.mode = mgr.mode := by
      unfold nextName
      split <;> rfl
    rw [newPath_succ] at h
    split at h
    · rw [← hmode]
      exact ih h
    · next hfree =>
      rw [Option.some.inj h] at hfree hmode
      exact ⟨hfree, hmode⟩

theorem write_lookup : (obj.write str).files.lookup n =
    if n = obj.path then some ((obj.files.lookup obj.path).getD [] ++ (str ++ [10]))
    else obj.files.lookup n := by
  rw [write]
  split
  · next he => rw [he, AList.lookup_insert]
  · next hne => rw [AList.lookup_insert_ne hne]

theorem reload_lookup : obj.reload.files.lookup n =
    if n = obj.path then some ((obj.files.lookup obj.path).getD []) else obj.files.lookup n := by
  by_cases hpath : obj.path ∈ obj.files
  · obtain ⟨content, hcontent⟩ := Option.isSome_iff_exists.mp (AList.lookup_isSome.mpr hpath)
    simp only [reload, if_pos hpath, hcontent, Option.getD_some]
    split
    · next he => rw [he, hcontent]
    · rfl
  · simp only [reload, if_neg hpath, AList.lookup_eq_none.mpr hpath, Option.getD_none]
    split
    · next he => rw [he, AList.lookup_insert]
    · next hne => rw [AList.lookup_insert_ne hne]

theorem reload_size : obj.reload.size = ((obj.files.lookup obj.path).getD []).length := by
  have hcurrent : obj.reload.files.lookup obj.path =
      some ((obj.files.lookup obj.path).getD []) := reload_lookup.trans (if_pos rfl)
  change ((obj.reload.files.lookup obj.path).getD []).length = _
  rw [hcurrent]
  rfl

/-- A split leaves the old content under a new name and an empty current file. -/
theorem split_spec (hcontent : obj.files.lookup obj.path = some content) (mgr : SplitMgr) :
    ∃ name obj', obj.split mgr = some obj' ∧ name ∉ obj.files ∧ obj'.path = obj.path ∧
      obj'.level = obj.level ∧ obj'.renames = obj.renames ++ [name] ∧
      (∃ mgr', obj'.splitMgr = some mgr' ∧ mgr'.mode = mgr.mode.grow 0) ∧
      ∀ n, obj'.files.lookup n = if n = obj.path then some [] else if n = name then some content
        else obj.files.lookup n := by
  obtain ⟨⟨name, mgr'⟩, hname⟩ := newPath_total obj.files obj.path mgr
  obtain ⟨hfree, hmode⟩ := newPath_fresh _ hname
  have hpath : obj.path ∈ obj.files := AList.lookup_isSome.mp (by rw [hcontent]; rfl)
  have hne : obj.path ≠ name := by
    rintro rfl
    exact hfree hpath
  have hlookup (n : String) : (rename obj.files obj.path name).lookup n =
      if n = obj.path then none else if n = name then some content else obj.files.lookup n := by
    simp only [rename, hcontent]
    split
    · next he => rw [he, AList.lookup_insert_ne hne, AList.lookup_erase]
    · next hn =>
      split
      · next he => rw [he, AList.lookup_insert]
      · next hn' => rw [AList.lookup_insert_ne hn', AList.lookup_erase_ne hn]
  have hgone : obj.path ∉ rename obj.files obj.path name := by
    rw [← AList.lookup_isSome, hlookup, if_pos rfl]
    exact Bool.false_ne_true
  rw [split, hname]
  refine ⟨name, _, rfl, hfree, rfl, rfl, rfl, ⟨_, rfl, ?_⟩, fun n => ?_⟩
  · simp only [reload, if_neg hgone, AList.lookup_insert, hmode]
    rfl
  · simp only [reload, if_neg hgone]
    by_cases hn : n = obj.path
    · rw [if_pos hn, hn, AList.lookup_insert]
    · rw [if_neg hn, AList.lookup_insert_ne hn, hlookup, if_neg hn]

end FileObj

def Mode.Inv : Splitting → Mode → List (List Put) → List Put → Prop
  | .line maxline, .line maxline' linecount, filled, current =>
    maxline' = maxline ∧ linecount ≤ ⌊maxline⌋.toNat ∧
      ((filled = [] ∧ current.length = linecount) ∨ (current.length = linecount + 1 ∧
        ∃ first more, filled = first :: more ∧ first.length = ⌊maxline⌋.toNat ∧
          ∀ g ∈ more, g.length = ⌊maxline⌋.toNat + 1))
  | .size maxsize, .size maxsize' used, filled, current =>
    maxsize' = maxsize ∧ used = (bytesOf current).length ∧
      ∀ g ∈ filled ++ [current], Within (.size maxsize) g
  | .time split, .time split' last, filled, current =>
    split' = split ∧ (∀ p ∈ current, split.Same p.time last) ∧
      ∀ g ∈ filled, Within (.time split) g
  | _, _, _, _ => False

variable {filled : List (List Put)} {current : List Put} {p : Put}

theorem bytesOf_snoc (g : List Put) (p : Put) :
    bytesOf (g ++ [p]) = bytesOf g ++ (p.str ++ [10]) := by
  simp [bytesOf]

theorem bytesOf_length_pos (h : g ≠ []) : 0 < (bytesOf g).length := by
  obtain ⟨p, g, rfl⟩ := List.exists_cons_of_ne_nil h
  simp [bytesOf]

theorem le_toNat_floor {x : Rat} {n : Nat} : n + 1 ≤ ⌊x⌋.toNat ↔ ((n + 1 : Nat) : Rat) ≤ x := by
  rw [show ((n + 1 : Nat) : Rat) ≤ x ↔ ((n + 1 : Nat) : Int) ≤ ⌊x⌋ by
    rw [Int.le_floor]
    norm_cast]
  omega

theorem Mode.Inv.keep (h : mode.Inv params filled current)
    (hn : mode.needSplit p.str p.time = (false, mode')) :
    mode'.Inv params filled (current ++ [p]) := by
  cases params with
  | line maxline =>
    cases mode with
    | line maxline' c =>
      obtain ⟨rfl, hc, hshape⟩ := h
      rw [Mode.needSplit] at hn
      split at hn
      · cases hn
      · next hle =>
        cases hn
        refine ⟨rfl, le_toNat_floor.mpr (not_lt.mp hle), ?_⟩
        rw [List.length_append, List.length_singleton]
        rcases hshape with ⟨hnil, hlen⟩ | ⟨hlen, hsome⟩
        · exact .inl ⟨hnil, congrArg Nat.succ hlen⟩
        · exact .inr ⟨congrArg Nat.succ hlen, hsome⟩
    | size => exact h.elim
    | time => exact h.elim
  | size maxsize =>
    cases mode with
    | size maxsize' n =>
      obtain ⟨rfl, hn', hwithin⟩ := h
      rw [Mode.needSplit] at hn
      split at hn
      · cases hn
      · next hle =>
        cases hn
        have hlen : (bytesOf (current ++ [p])).length = n + (p.str.length + 1) := by
          rw [bytesOf_snoc, List.length_append, List.length_append, hn']
          rfl
        refine ⟨rfl, hlen.symm, fun g hg => ?_⟩
        rcases List.mem_append.mp hg with hg | hg
        · exact hwithin g (List.mem_append_left _ hg)
        · cases List.mem_singleton.mp hg
          by_cases hempty : current = []
          · exact .inr (by rw [hempty]; rfl)
          · have hpos := bytesOf_length_pos hempty
            refine .inl ?_
            rw [hlen]
            refine not_lt.mp fun hlt => hle ⟨?_, hlt⟩
            omega
    | line => exact h.elim
    | time => exact h.elim
  | time period =>
    cases mode with
    | time period' last =>
      obtain ⟨rfl, hlast, hwithin⟩ := h
      rw [Mode.needSplit] at hn
      split at hn
      · next hsame =>
        cases hn
        refine ⟨rfl, fun q hq => ?_, hwithin⟩
        rcases List.mem_append.mp hq with hq | hq
        · exact hlast q hq
        · cases List.mem_singleton.mp hq
          exact hsame
      · cases hn
    | line => exact h.elim
    | size => exact h.elim

theorem Period.Same.symm {split : Period} {a b : Date} (h : split.Same a b) : split.Same b a := by
  cases split with
  | hour => exact ⟨h.1.symm, h.2.1.symm, h.2.2.1.symm, h.2.2.2.symm⟩
  | day => exact ⟨h.1.symm, h.2.1.symm, h.2.2.symm⟩

theorem Period.Same.trans {split : Period} {a b c : Date} (h : split.Same a b)
    (h' : split.Same b c) : split.Same a c := by
  cases split with
  | hour =>
    exact ⟨h.1.trans h'.1, h.2.1.trans h'.2.1, h.2.2.1.trans h'.2.2.1, h.2.2.2.trans h'.2.2.2⟩
  | day => exact ⟨h.1.trans h'.1, h.2.1.trans h'.2.1, h.2.2.trans h'.2.2⟩

theorem Period.same_refl (split : Period) (a : Date) : split.Same a a := by
  cases split with
  | hour => exact ⟨rfl, rfl, rfl, rfl⟩
  | day => exact ⟨rfl, rfl, rfl⟩

theorem Mode.Inv.split (h : mode.Inv params filled current)
    (hn : mode.needSplit p.str p.time = (true, mode')) :
    (mode'.grow 0).Inv params (filled ++ [current]) [p] := by
  cases params with
  | line maxline =>
    cases mode with
    | line maxline' c =>
      obtain ⟨rfl, hc, hshape⟩ := h
      rw [Mode.needSplit] at hn
      split at hn
      · next hgt =>
        cases hn
        have hfull : c = ⌊maxline'⌋.toNat := by
          have hnot := (le_toNat_floor (n := c) (x := maxline')).not.mpr (not_le.mpr hgt)
          omega
        refine ⟨rfl, Nat.zero_le _, .inr ⟨rfl, ?_⟩⟩
        rcases hshape with ⟨rfl, hlen⟩ | ⟨hlen, first, more, rfl, hfirst, hmore⟩
        · exact ⟨current, [], rfl, hlen.trans hfull, by simp⟩
        · refine ⟨first, more ++ [current], rfl, hfirst, fun g hg => ?_⟩
          rcases List.mem_append.mp hg with hg | hg
          · exact hmore g hg
          · cases List.mem_singleton.mp hg
            rw [hlen, hfull]
      · cases hn
    | size => exact h.elim
    | time => exact h.elim
  | size maxsize =>
    cases mode with
    | size maxsize' n =>
      obtain ⟨rfl, hn', hwithin⟩ := h
      rw [Mode.needSplit] at hn
      split at hn
      · cases hn
        refine ⟨rfl, by simp [bytesOf], fun g hg => ?_⟩
        rcases List.mem_append.mp hg with hg | hg
        · exact hwithin g hg
        · cases List.mem_singleton.mp hg
          exact .inr rfl
      · cases hn
    | line => exact h.elim
    | time => exact h.elim
  | time period =>
    cases mode with
    | time period' last =>
      obtain ⟨rfl, hlast, hwithin⟩ := h
      rw [Mode.needSplit] at hn
      split at hn
      · cases hn
      · cases hn
        refine ⟨rfl, fun q hq => ?_, fun g hg => ?_⟩
        · cases List.mem_singleton.mp hq
          exact period'.same_refl _
        · rcases List.mem_append.mp hg with hg | hg
          · exact hwithin g hg
          · cases List.mem_singleton.mp hg
            exact fun a ha b hb => (hlast a ha).trans (hlast b hb).symm
    | line => exact h.elim
    | size => exact h.elim

theorem Mode.Inv.initial (params : Splitting) (t : Date) :
    (newSplitMgr params t).mode.Inv params [] [] := by
  cases params with
  | line maxline => exact ⟨rfl, Nat.zero_le _, .inl ⟨rfl, rfl⟩⟩
  | size maxsize =>
    refine ⟨rfl, rfl, fun g hg => .inl ?_⟩
    cases List.mem_singleton.mp hg
    exact zero_le
  | time split =>
    refine ⟨rfl, ?_, ?_⟩
    · rintro _ ⟨⟩
    · rintro _ ⟨⟩

/-- When all files keep to the limit: always, but for lines, where the limit is exceeded from the
second file on. -/
def Fits : Splitting → Nat → Prop
  | .line maxline, n => (n : Int) ≤ 2 * ⌊maxline⌋
  | _, _ => True

theorem within_line {maxline : Rat} {g : List Put} :
    Within (.line maxline) g ↔ (g.length : Int) ≤ ⌊maxline⌋ := by
  rw [Int.le_floor, Within]
  norm_cast

theorem Mode.Inv.within_iff (h : mode.Inv params filled current) :
    (∀ g ∈ filled ++ [current], Within params g) ↔
      Fits params (filled ++ [current]).flatten.length := by
  cases params with
  | line maxline =>
    cases mode with
    | line maxline' c =>
      obtain ⟨rfl, hc, hshape⟩ := h
      simp only [within_line, Fits]
      rcases hshape with ⟨rfl, hlen⟩ | ⟨hlen, first, more, rfl, hfirst, hmore⟩
      · simp only [List.nil_append, List.mem_singleton, forall_eq, List.flatten_singleton]
        omega
      · constructor
        · intro hall
          have hlast := hall current (by simp)
          cases more with
          | nil =>
            simp only [List.cons_append, List.nil_append, List.flatten_cons, List.flatten_nil,
              List.append_nil, List.length_append]
            omega
          | cons g more =>
            have hg := hall g (by simp)
            rw [hmore g List.mem_cons_self] at hg
            omega
        · intro hfits
          cases more with
          | nil =>
            simp only [List.cons_append, List.nil_append, List.flatten_cons, List.flatten_nil,
              List.append_nil, List.length_append] at hfits
            intro g hg
            simp only [List.cons_append, List.nil_append, List.mem_cons, List.not_mem_nil,
              or_false] at hg
            rcases hg with rfl | rfl <;> omega
          | cons g more =>
            have hg := hmore g List.mem_cons_self
            simp only [List.cons_append, List.flatten_cons, List.length_append] at hfits
            simp only [List.flatten_append, List.flatten_singleton, List.length_append] at hfits
            omega
    | size => exact h.elim
    | time => exact h.elim
  | size maxsize =>
    cases mode with
    | size maxsize' n => exact iff_of_true h.2.2 trivial
    | line => exact h.elim
    | time => exact h.elim
  | time period =>
    cases mode with
    | time period' last =>
      obtain ⟨rfl, hlast, hwithin⟩ := h
      refine iff_of_true (fun g hg => ?_) trivial
      rcases List.mem_append.mp hg with hg | hg
      · exact hwithin g hg
      · cases List.mem_singleton.mp hg
        exact fun a ha b hb => (hlast a ha).trans (hlast b hb).symm
    | line => exact h.elim
    | size => exact h.elim

/-- The files since `start`, as far as the mode knows them. -/
structure FileObj.Inv (params : Splitting) (start obj : FileObj) (lines : List Put)
    (names : List String) (filled : List (List Put)) (current : List Put) : Prop where
  path : obj.path = start.path
  level : obj.level = start.level
  renames : obj.renames = start.renames ++ names
  distinct : (names ++ [start.path]).Nodup
  fresh : ∀ n ∈ names, n ∉ start.files
  kept : ∀ n ∈ start.files, n ≠ start.path → obj.files.lookup n = start.files.lookup n
  lines : (filled ++ [current]).flatten = lines
  rotated : names.map obj.files.lookup = filled.map fun g => some (bytesOf g)
  content : obj.files.lookup start.path = some (bytesOf current)
  mode : ∃ mgr, obj.splitMgr = some mgr ∧ mgr.mode.Inv params filled current

variable {lines : List Put} {names : List String}

namespace FileObj

theorem Inv.initial (hempty : start.files.lookup start.path = some [])
    (hmgr : start.splitMgr = some mgr) (hm : mgr.mode.Inv params [] []) :
    Inv params start start [] [] [] [] := by
  constructor
  case path => rfl
  case level => rfl
  case renames => exact (List.append_nil _).symm
  case distinct => exact List.nodup_singleton _
  case fresh => rintro _ ⟨⟩
  case kept => exact fun _ _ _ => rfl
  case lines => rfl
  case rotated => rfl
  case content => exact hempty
  case mode => exact ⟨mgr, hmgr, hm⟩

theorem Inv.path_notMem (h : Inv params start obj lines names filled current) :
    start.path ∉ names := fun hn =>
  (List.nodup_append.mp h.distinct).2.2 _ hn _ (List.mem_singleton_self _) rfl

theorem Inv.current_lookup (h : Inv params start obj lines names filled current) :
    obj.files.lookup obj.path = some (bytesOf current) := by
  rw [h.path]
  exact h.content

theorem Inv.keep (h : Inv params start obj lines names filled current)
    (hm : mgr.mode.Inv params filled (current ++ [p])) :
    Inv params start ({ obj with splitMgr := some mgr }.write p.str) (lines ++ [p]) names filled
      (current ++ [p]) := by
  have hlookup (n : String) : ({ obj with splitMgr := some mgr }.write p.str).files.lookup n =
      if n = start.path then some (bytesOf (current ++ [p])) else obj.files.lookup n := by
    rw [write_lookup]
    simp only [h.current_lookup, Option.getD_some, bytesOf_snoc, h.path]
  constructor
  case path => exact h.path
  case level => exact h.level
  case renames => exact h.renames
  case distinct => exact h.distinct
  case fresh => exact h.fresh
  case kept =>
    intro n hn hne
    rw [hlookup, if_neg hne]
    exact h.kept n hn hne
  case lines =>
    rw [← h.lines]
    simp
  case rotated =>
    rw [← h.rotated]
    refine List.map_congr_left fun n hn => ?_
    have hne : n ≠ start.path := fun he => h.path_notMem (he ▸ hn)
    rw [hlookup, if_neg hne]
  case content => rw [hlookup, if_pos rfl]
  case mode => exact ⟨mgr, rfl, hm⟩

theorem Inv.split (h : Inv params start obj lines names filled current) (mgr : SplitMgr)
    (hm : (mgr.mode.grow 0).Inv params (filled ++ [current]) [p]) :
    ∃ obj' name, obj.split mgr = some obj' ∧ Inv params start (obj'.write p.str) (lines ++ [p])
      (names ++ [name]) (filled ++ [current]) [p] := by
  obtain ⟨name, obj', hsplit, hfree, hpath, hlevel, hrenames, ⟨mgr', hmgr, hmode⟩, hlookup⟩ :=
    split_spec h.current_lookup mgr
  refine ⟨obj', name, hsplit, ?_⟩
  have hwrite (n : String) : (obj'.write p.str).files.lookup n =
      if n = start.path then some (bytesOf [p])
      else if n = name then some (bytesOf current) else obj.files.lookup n := by
    rw [write_lookup, hlookup, hlookup, hpath, if_pos rfl, h.path]
    split
    · simp [bytesOf]
    · rfl
  have hold {n : String} (hn : n ∈ names) : n ≠ name := by
    rintro rfl
    refine hfree ?_
    have hmem := List.mem_map_of_mem (f := obj.files.lookup) hn
    rw [h.rotated] at hmem
    obtain ⟨g, _, hg⟩ := List.mem_map.mp hmem
    exact AList.lookup_isSome.mp (by rw [← hg]; rfl)
  have hne : name ≠ start.path := by
    rintro rfl
    exact hfree (AList.lookup_isSome.mp (by rw [h.content]; rfl))
  constructor
  case path => exact hpath.trans h.path
  case level => exact hlevel.trans h.level
  case renames =>
    rw [← List.append_assoc, ← h.renames]
    exact hrenames
  case distinct =>
    have hdistinct := h.distinct
    rw [List.nodup_append] at hdistinct ⊢
    refine ⟨?_, hdistinct.2.1, ?_⟩
    · refine hdistinct.1.append (List.nodup_singleton _) fun n hn hn' => ?_
      exact hold hn (List.mem_singleton.mp hn')
    · intro n hn m hm
      rcases List.mem_append.mp hn with hn | hn
      · exact hdistinct.2.2 n hn m hm
      · rw [List.mem_singleton.mp hn, List.mem_singleton.mp hm]
        exact hne
  case fresh =>
    intro n hn hstart
    rcases List.mem_append.mp hn with hn | hn
    · exact h.fresh n hn hstart
    · rw [List.mem_singleton.mp hn] at hstart
      refine hfree (AList.lookup_isSome.mp ?_)
      rw [h.kept name hstart hne]
      exact AList.lookup_isSome.mpr hstart
  case kept =>
    intro n hn hpath'
    have hnew : n ≠ name := by
      rintro rfl
      refine hfree (AList.lookup_isSome.mp ?_)
      rw [h.kept n hn hpath']
      exact AList.lookup_isSome.mpr hn
    rw [hwrite, if_neg hpath', if_neg hnew]
    exact h.kept n hn hpath'
  case lines =>
    rw [← h.lines]
    simp
  case rotated =>
    rw [List.map_append, List.map_append, ← h.rotated]
    refine congrArg₂ (· ++ ·) (List.map_congr_left fun n hn => ?_) ?_
    · have hpath' : n ≠ start.path := fun he => h.path_notMem (he ▸ hn)
      rw [hwrite, if_neg hpath', if_neg (hold hn)]
    · rw [List.map_singleton, List.map_singleton, hwrite, if_neg hne, if_pos rfl]
  case content => rw [hwrite, if_pos rfl]
  case mode => exact ⟨mgr', hmgr, hmode ▸ hm⟩

/-- One record: its line is added to the current file or to a new one, unless it is rejected. -/
theorem Inv.put (h : Inv params start obj lines names filled current) (p : Put) :
    ∃ obj' names' filled' current', obj.put p.level p.str p.time = some obj' ∧
      Inv params start obj' (lines ++ accepted start.level [p]) names' filled' current' := by
  rw [FileObj.put, ← h.level]
  by_cases hlog : shouldLog obj.level p.level
  · rw [if_pos hlog, show accepted obj.level [p] = [p] by simp [accepted, hlog]]
    obtain ⟨mgr, hmgr, hm⟩ := h.mode
    simp only [hmgr]
    cases hneed : mgr.mode.needSplit p.str p.time with
    | mk need mode =>
      cases need with
      | false =>
        have hkeep : ({ mgr with mode := mode } : SplitMgr).mode.Inv params filled
          (current ++ [p]) :=
          hm.keep hneed
        exact ⟨_, names, filled, _, rfl, h.keep hkeep⟩
      | true =>
        obtain ⟨obj', name, hsplit, hinv⟩ := h.split { mgr with mode := mode } (hm.split hneed)
        refine ⟨obj'.write p.str, _, _, _, ?_, hinv⟩
        simp only [if_true, hsplit, Option.map_some]
  · rw [if_neg hlog, show accepted obj.level [p] = [] by simp [accepted, hlog], List.append_nil]
    exact ⟨obj, names, filled, current, rfl, h⟩

theorem Inv.putAll (h : Inv params start obj lines names filled current) (puts : List Put) :
    ∃ obj' names' filled' current', putAll obj puts = some obj' ∧
      Inv params start obj' (lines ++ accepted start.level puts) names' filled' current' := by
  induction puts generalizing obj lines names filled current with
  | nil => exact ⟨obj, names, filled, current, rfl, (List.append_nil lines).symm ▸ h⟩
  | cons p puts ih =>
    obtain ⟨obj', names', filled', current', hput, h'⟩ := h.put p
    obtain ⟨obj'', names'', filled'', current'', hall, h''⟩ := ih h'
    refine ⟨obj'', names'', filled'', current'', ?_, ?_⟩
    · rw [Log.putAll, List.foldlM_cons, hput]
      exact hall
    · have haccepted : accepted start.level (p :: puts) =
          accepted start.level [p] ++ accepted start.level puts := List.filter_append [p] puts
      rwa [haccepted, ← List.append_assoc]

end FileObj

theorem groups_unique {gs gs' : List (List Put)} (hflat : gs.flatten = gs'.flatten)
    (hbytes : gs.map bytesOf = gs'.map bytesOf) : gs = gs' := by
  induction gs generalizing gs' with
  | nil => exact (List.map_eq_nil_iff.mp hbytes.symm).symm
  | cons g gs ih =>
    cases gs' with
    | nil => cases hbytes
    | cons g' gs' =>
      rw [List.map_cons, List.map_cons, List.cons.injEq] at hbytes
      rw [List.flatten_cons, List.flatten_cons] at hflat
      have hnil {a b : List Put} (h : bytesOf (a ++ b) = bytesOf a) : b = [] := by
        by_contra hne
        have hpos := bytesOf_length_pos hne
        have hlen := congrArg List.length h
        rw [bytesOf, List.map_append, List.flatten_append, List.length_append] at hlen
        rw [bytesOf] at hpos hlen
        omega
      have hg : g = g' := by
        rcases List.append_eq_append_iff.mp hflat with ⟨a, rfl, _⟩ | ⟨a, rfl, _⟩
        · rw [hnil hbytes.1.symm, List.append_nil]
        · rw [hnil hbytes.1, List.append_nil]
      subst hg
      rw [ih (List.append_cancel_left hflat) hbytes.2]

/-- A new bucket starts with an empty file, what was in it before is under a new name. -/
theorem new_spec (files : Files) (filename : String) (level : Option Level) (params : Splitting)
    (t : Date) : ∃ start, new files filename level (some params) t = some start ∧
      start.path = filename ∧ start.level = level ∧ Opens files start ∧
      FileObj.Inv params start start [] [] [] [] := by
  let opened : FileObj :=
    (FileObj.mk filename (some (newSplitMgr params t)) level 0 files []).reload
  have hnew : new files filename level (some params) t =
      if 0 < opened.size then opened.split (newSplitMgr params t) else some opened := rfl
  have hlookup (n : String) : opened.files.lookup n =
      if n = filename then some ((files.lookup filename).getD []) else files.lookup n :=
    FileObj.reload_lookup
  have hsize : opened.size = ((files.lookup filename).getD []).length := FileObj.reload_size
  have hm := Mode.Inv.initial params t
  by_cases hempty : (files.lookup filename).getD [] = []
  · have hcurrent : opened.files.lookup filename = some [] := by rw [hlookup, if_pos rfl, hempty]
    refine ⟨opened, ?_, rfl, rfl, ⟨?_, ?_, hcurrent⟩, FileObj.Inv.initial hcurrent rfl hm⟩
    · rw [hnew, hsize, hempty]
      rfl
    · exact fun n _ hne => (hlookup n).trans (if_neg hne)
    · intro content hcontent hne
      rw [show files.lookup filename = some content from hcontent] at hempty
      exact absurd hempty hne
  · have hpos : 0 < opened.size := by
      rw [hsize]
      exact List.length_pos_iff.mpr hempty
    have hcontent : opened.files.lookup opened.path = some ((files.lookup filename).getD []) :=
      (hlookup filename).trans (if_pos rfl)
    obtain ⟨name, start, hsplit, hfree, hpath, hlevel, _, ⟨mgr, hmgr, hmode⟩, hstart⟩ :=
      FileObj.split_spec hcontent (newSplitMgr params t)
    have hpath' : start.path = filename := hpath
    have hstart' (n : String) : start.files.lookup n = if n = filename then some []
        else if n = name then some ((files.lookup filename).getD []) else opened.files.lookup n :=
      hstart n
    have hfree' : name ∉ files ∧ name ≠ filename := by
      have hnone := AList.lookup_eq_none.mpr hfree
      rw [hlookup] at hnone
      split at hnone
      · cases hnone
      · next hne => exact ⟨AList.lookup_eq_none.mp hnone, hne⟩
    have hcurrent : start.files.lookup start.path = some [] := by
      rw [hstart, if_pos hpath]
    refine ⟨start, ?_, hpath', hlevel, ⟨?_, ?_, hcurrent⟩, FileObj.Inv.initial hcurrent hmgr ?_⟩
    · rw [hnew, if_pos hpos, hsplit]
    · intro n hn hne
      rw [hpath'] at hne
      have hname : n ≠ name := by
        rintro rfl
        exact hfree'.1 hn
      rw [hstart', if_neg hne, if_neg hname, hlookup, if_neg hne]
    · intro content hc _
      rw [hpath'] at hc
      refine ⟨name, hfree'.1, ?_⟩
      rw [hstart', if_neg hfree'.2, if_pos rfl, show files.lookup filename = some content from hc]
      rfl
    · rw [hmode]
      cases params <;> exact hm

/-- For files as they are at first and records one after the other, no line is lost, and all files
keep to the limit. -/
def Keeps (files : Files) (filename : String) (level : Option Level) (params : Splitting) (t : Date)
    (puts : List Put) : Prop :=
  ∃ start obj, new files filename level (some params) t = some start ∧ Opens files start ∧
    putAll start puts = some obj ∧
    ∃ names groups, Rotates params start obj (accepted level puts) names groups

theorem putAll_new (files : Files) (filename : String) (level : Option Level) (params : Splitting)
    (t : Date) (puts : List Put) : ∃ start obj names filled current,
      new files filename level (some params) t = some start ∧ Opens files start ∧
        putAll start puts = some obj ∧
        FileObj.Inv params start obj (accepted level puts) names filled current := by
  obtain ⟨start, hnew, _, hlevel, hopens, hstart⟩ := new_spec files filename level params t
  obtain ⟨obj, names, filled, current, hputs, h⟩ := hstart.putAll puts
  rw [List.nil_append, hlevel] at h
  exact ⟨start, obj, names, filled, current, hnew, hopens, hputs, h⟩

theorem FileObj.Inv.contents (h : FileObj.Inv params start obj lines names filled current) :
    (names ++ [start.path]).map obj.files.lookup =
      (filled ++ [current]).map fun g => some (bytesOf g) := by
  rw [List.map_append, List.map_append, h.rotated, List.map_singleton, List.map_singleton,
    h.content]

theorem Keeps.fits {level : Option Level} {puts : List Put}
    (hk : Keeps files filename level params t puts) : Fits params (accepted level puts).length := by
  obtain ⟨start, obj, names, filled, current, hnew, _, hputs, h⟩ :=
    putAll_new files filename level params t puts
  obtain ⟨start', obj', hnew', _, hputs', names', groups, hr⟩ := hk
  cases hnew.symm.trans hnew'
  cases hputs.symm.trans hputs'
  have hnames : names' = names := List.append_cancel_left (hr.renames.symm.trans h.renames)
  subst hnames
  have hgroups : groups = filled ++ [current] := by
    refine groups_unique (hr.lines.trans h.lines.symm) ?_
    have hjoin := congrArg (List.map fun o : Option Bytes => o.getD [])
      (hr.contents.symm.trans h.contents)
    rwa [List.map_map, List.map_map] at hjoin
  obtain ⟨mgr, _, hm⟩ := h.mode
  rw [← h.lines]
  exact hm.within_iff.mp (hgroups ▸ hr.within)

theorem Fits.keeps {level : Option Level} {puts : List Put}
    (hf : Fits params (accepted level puts).length) :
    Keeps files filename level params t puts := by
  obtain ⟨start, obj, names, filled, current, hnew, hopens, hputs, h⟩ :=
    putAll_new files filename level params t puts
  obtain ⟨mgr, _, hm⟩ := h.mode
  rw [← h.lines] at hf
  refine ⟨start, obj, hnew, hopens, hputs, names, filled ++ [current], ?_⟩
  exact ⟨h.renames, h.distinct, h.fresh, h.kept, h.lines, h.contents, hm.within_iff.mpr hf⟩

/-- Lines are the only limit that is not kept, and that from the second file on. -/
theorem keeps_iff (files : Files) (filename : String) (level : Option Level) (params : Splitting)
    (t : Date) (puts : List Put) :
    Keeps files filename level params t puts ↔ Fits params (accepted level puts).length :=
  ⟨Keeps.fits, Fits.keeps⟩

/-- Of three lines with at most one in a file, the last two go to the same file. -/
theorem keeps_lines : ¬ Keeps ∅ "app.log" none (.line 1) ⟨2026, 3, 5, 10⟩
    [⟨3, [97, 49], ⟨2026, 3, 5, 10⟩⟩, ⟨3, [97, 50], ⟨2026, 3, 5, 10⟩⟩,
      ⟨3, [97, 51], ⟨2026, 3, 5, 10⟩⟩] := by
  intro h
  have hfits := h.fits
  simp [Fits, accepted, shouldLog] at hfits

end Log
end Skyext
