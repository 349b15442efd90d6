import Skyext.Config.Config
import Skyext.Config.NumeralRead

namespace Skyext
set_option autoImplicit true

namespace Config

open LuaNumber (minInteger maxInteger)

section Print

variable {digits : Text}

theorem mem_stripZeros {c : UInt8} (h : c ∈ stripZeros digits) : c ∈ digits := by
  rw [stripZeros, List.mem_reverse] at h
  exact List.mem_reverse.mp ((List.dropWhile_suffix _).subset h)

theorem twoDigits_ok (n : Nat) : twoDigits n ≠ [] ∧ ∀ c ∈ twoDigits n, isDigit c = true := by
  rw [twoDigits]
  split
  · refine ⟨by simp, fun c hc => ?_⟩
    rcases List.mem_cons.mp hc with rfl | hc
    · decide
    · exact decimal_digits n c hc
  · exact ⟨decimal_ne_nil n, decimal_digits n⟩

theorem looksFloat_ok {p : Printed} (hint : p.int ≠ [] ∧ ∀ c ∈ p.int, isDigit c = true)
    (hfrac : ∀ c ∈ p.frac, isDigit c = true)
    (hexp : ∀ minus digits, p.exp = some (minus, digits) →
      digits ≠ [] ∧ ∀ c ∈ digits, isDigit c = true) : (looksFloat p).Ok := by
  rw [looksFloat]
  split
  · refine ⟨hint, fun c hc => ?_, hexp, .inl (by simp)⟩
    rw [List.mem_singleton.mp hc]
    decide
  · next h => exact ⟨hint, hfrac, hexp, not_and_or.mp h⟩

theorem take_ok {k : Nat} (hk : 0 < k) (hne : digits ≠ []) (hd : ∀ c ∈ digits, isDigit c = true) :
    digits.take k ≠ [] ∧ ∀ c ∈ digits.take k, isDigit c = true := by
  refine ⟨fun h => ?_, fun c hc => hd c (List.mem_of_mem_take hc)⟩
  rcases List.take_eq_nil_iff.mp h with h | h
  · omega
  · exact hne h

theorem general_ok (n d : Nat) : (looksFloat (general n d)).Ok := by
  rw [general]
  generalize significant n d = s
  obtain ⟨q, x⟩ := s
  have hne := decimal_ne_nil q
  have hd := decimal_digits q
  have hfrac (k : Nat) : ∀ c ∈ stripZeros ((decimal q).drop k), isDigit c = true :=
    fun c hc => hd c (List.mem_of_mem_drop (mem_stripZeros hc))
  simp only
  by_cases hrange : -4 ≤ x ∧ x < 14
  · rw [if_pos hrange]
    by_cases hx : 0 ≤ x
    · rw [if_pos hx]
      exact looksFloat_ok (take_ok (by omega) hne hd) (hfrac _) (by simp)
    · rw [if_neg hx]
      refine looksFloat_ok ⟨by simp, fun c hc => ?_⟩ (fun c hc => ?_) (by simp)
      · rw [List.mem_singleton.mp hc]
        decide
      · rcases List.mem_append.mp hc with hc | hc
        · rw [List.eq_of_mem_replicate hc]
          decide
        · exact hd c (mem_stripZeros hc)
  · rw [if_neg hrange]
    refine looksFloat_ok (take_ok (by omega) hne hd) (hfrac _) ?_
    rintro _ _ ⟨⟩
    exact twoDigits_ok _

/-- A float is printed as a numeral, or as what is no number. -/
theorem floatText_cases (f : Float) :
    (∃ minus, ∃ p : Printed, p.Ok ∧ floatText f = sign minus ++ p.text) ∨
      tonumber (floatText f) = none := by
  rw [floatText]
  split
  · next s _ =>
    right
    cases s <;> rfl
  · exact .inr rfl
  · next s _ =>
    have hzero : [byte '0'] ≠ [] ∧ ∀ c ∈ [byte '0'], isDigit c = true := by
      refine ⟨List.cons_ne_nil _ _, fun c hc => ?_⟩
      rw [List.mem_singleton.mp hc]
      rfl
    refine .inl ⟨isNegative s, ⟨[byte '0'], [byte '0'], none⟩, ⟨hzero, hzero.2, ?_, ?_⟩, ?_⟩
    · rintro _ _ ⟨⟩
    · exact .inl (by decide)
    · cases s <;> decide
  · next s m e _ _ => exact .inl ⟨isNegative s, _, general_ok _ _, rfl⟩

end Print

/-- What follows an expression within a constructor, or at the end. -/
def Ends (rest : Text) : Prop := ∀ c ∈ rest.head?, c = byte ',' ∨ c = byte ']'

section Lex

variable {rest d text : Text}

theorem Ends.plain (h : Ends rest) : ∀ c ∈ rest.head?, isExp c = false ∧ isHexDigit c = false ∧
    isHexMark c = false ∧ isNameStart c = false ∧ isDigit c = false ∧ c ≠ byte '.' := by
  intro c hc
  rcases h c hc with rfl | rfl
  · decide
  · decide

theorem readNumeral_digits (hd : ∀ c ∈ d, isDigit c = true) (x : Text) :
    readNumeral isExp false (d ++ x) =
      (d ++ (readNumeral isExp false x).1, (readNumeral isExp false x).2) := by
  induction d with
  | nil => rfl
  | cons c d ih =>
    obtain ⟨-, hhex, hexp, -⟩ := isDigit_plain c (hd c List.mem_cons_self)
    rw [List.cons_append, readNumeral, if_neg (by simp), if_neg (by simp [hexp]),
      if_pos (.inl hhex), ih fun c hc => hd c (List.mem_cons_of_mem _ hc)]
    rfl

theorem readNumeral_ends (h : Ends rest) : readNumeral isExp false rest = ([], rest) := by
  cases rest with
  | nil => rfl
  | cons c rest =>
    obtain ⟨hexp, hhex, -, -, -, hpoint⟩ := h.plain c rfl
    rw [readNumeral, if_neg (by simp), if_neg (by simp [hexp]), if_neg (by simp [hhex, hpoint])]

theorem readNumeral_frac (hd : ∀ c ∈ d, isDigit c = true) (x : Text) :
    readNumeral isExp false (Printed.fracText d ++ x) =
      (Printed.fracText d ++ (readNumeral isExp false x).1, (readNumeral isExp false x).2) := by
  rw [Printed.fracText]
  split
  · rfl
  · rw [List.cons_append, readNumeral, if_neg (by simp), if_neg (by decide), if_pos (.inr rfl),
      readNumeral_digits hd]
    rfl

theorem readNumeral_exp {p : Printed} (hp : p.Ok) (x : Text) :
    readNumeral isExp false (Printed.expText p.exp ++ x) =
      (Printed.expText p.exp ++ (readNumeral isExp false x).1, (readNumeral isExp false x).2) := by
  cases he : p.exp with
  | none => rfl
  | some e =>
    obtain ⟨minus, digits⟩ := e
    have hdigits := readNumeral_digits (hp.exp minus digits he).2 x
    rw [Printed.expText, List.cons_append, List.cons_append, readNumeral, if_neg (by simp),
      if_pos (by decide), readNumeral, if_pos (by cases minus <;> decide), hdigits]
    rfl

/-- A text whose numeral ends where it does. -/
structure Lexed (text : Text) : Prop where
  numeral : Numeral text
  reads : ∀ rest, Ends rest → readNumeral isExp false (text ++ rest) = (text, rest)

theorem Lexed.of_decimal (n : Nat) : Lexed (decimal n) := by
  refine ⟨.of_decimal n, fun rest h => ?_⟩
  rw [readNumeral_digits (decimal_digits n), readNumeral_ends h, List.append_nil]

theorem Lexed.of_printed {p : Printed} (hp : p.Ok) : Lexed p.text := by
  refine ⟨hp.numeral, fun rest h => ?_⟩
  rw [Printed.text, List.append_assoc, List.append_assoc, readNumeral_digits hp.int.2,
    readNumeral_frac hp.frac, readNumeral_exp hp, readNumeral_ends h, List.append_nil,
    List.append_assoc]

theorem lexNumeral_append (h : Lexed text) (hr : Ends rest) :
    lexNumeral (text ++ rest) = (text, rest) := by
  have hreads := h.reads rest hr
  obtain ⟨c, tail, rfl, -⟩ := h.numeral.head
  have hmark : ∀ m ∈ (tail ++ rest).head?, isHexMark m = false := by
    intro m hm
    cases tail with
    | nil => exact (hr.plain m hm).2.2.1
    | cons d tail =>
      cases hm
      exact (isNumeral_plain m (h.numeral.chars m (by simp))).2
  rw [List.cons_append] at hreads ⊢
  cases ht : tail ++ rest with
  | nil =>
    rw [ht] at hreads
    exact hreads
  | cons m more =>
    rw [ht] at hreads hmark
    rw [lexNumeral, if_neg (by simp [hmark m rfl])]
    exact hreads

theorem numeral_append {a : Scalar} (h : Lexed text) (ha : tonumber text = some a)
    (hr : Ends rest) : numeral (text ++ rest) = some (a, rest) := by
  have hname : rest.head?.any isNameStart = false := by
    cases hh : rest.head? with
    | none => rfl
    | some c => exact (hr.plain c hh).2.2.2.1
  rw [numeral, lexNumeral_append h hr]
  simp only [hname, ha]
  rfl

theorem readExp_numeral {a : Scalar} (h : Lexed text) (ha : tonumber text = some a)
    (hr : Ends rest) (depth : Nat) :
    readExp (depth + 1) (text ++ rest) = some (.scalar a, rest) := by
  have hnumeral := numeral_append h ha hr
  obtain ⟨c, tail, rfl, hc⟩ := h.numeral.head
  obtain ⟨hbrace, hquote, -⟩ := isDigit_start c hc
  have hminus : c ≠ byte '-' := (isDigit_plain c hc).2.2.2.1
  rw [List.cons_append] at hnumeral ⊢
  rw [readExp, if_neg hbrace, if_neg hquote, if_neg hminus, if_pos hc, hnumeral]
  rfl

theorem readExp_negative {a : Scalar} {v : Value} (h : Lexed text) (ha : tonumber text = some a)
    (hv : negate (.scalar a) = some v) (hr : Ends rest) (depth : Nat) :
    readExp (depth + 2) (byte '-' :: (text ++ rest)) = some (v, rest) := by
  have hexp := readExp_numeral h ha hr depth
  obtain ⟨c, tail, rfl, hc⟩ := h.numeral.head
  have hminus : c ≠ byte '-' := (isDigit_plain c hc).2.2.2.1
  rw [readExp, if_neg (by decide), if_neg (by decide), if_pos rfl, if_neg (by simpa using hminus),
    hexp, Option.bind_some]
  exact congrArg (Option.map (·, rest)) hv

end Lex

section Quote

variable {s x d : Text}

theorem isControl_newline (c : UInt8) : c = newline ∨ c = 13 → isControl c = true := by
  rintro (rfl | rfl)
  · rfl
  · rfl

theorem digit_ofNat {n : Nat} (hn : n < 10) :
    (UInt8.ofNat (n + (byte '0').toNat)).toNat = n + (byte '0').toNat ∧
      isDigit (UInt8.ofNat (n + (byte '0').toNat)) = true := by
  have hzero : (byte '0').toNat = 48 := rfl
  have hnine : (byte '9').toNat = 57 := rfl
  have hvalue : (UInt8.ofNat (n + (byte '0').toNat)).toNat = n + (byte '0').toNat := by
    rw [UInt8.toNat_ofNat']
    omega
  refine ⟨hvalue, ?_⟩
  simp only [isDigit, Bool.and_eq_true, decide_eq_true_eq, UInt8.le_iff_toNat_le, hvalue]
  omega

theorem threeDigits_value (c : UInt8) : digitsValue (threeDigits c.toNat) = c.toNat ∧
    ∀ d ∈ threeDigits c.toNat, isDigit d = true := by
  have hlt := c.toNat_lt
  obtain ⟨hvalue₂, hdigit₂⟩ := digit_ofNat (show c.toNat / 100 < 10 by omega)
  obtain ⟨hvalue₁, hdigit₁⟩ := digit_ofNat (show c.toNat / 10 % 10 < 10 by omega)
  obtain ⟨hvalue₀, hdigit₀⟩ := digit_ofNat (show c.toNat % 10 < 10 by omega)
  constructor
  · simp only [digitsValue, threeDigits, List.map_cons, List.map_nil, List.foldl_cons,
      List.foldl_nil, hvalue₂, hvalue₁, hvalue₀]
    omega
  · simp only [threeDigits, List.map_cons, List.map_nil, List.mem_cons, List.not_mem_nil, or_false]
    rintro d (rfl | rfl | rfl)
    · exact hdigit₂
    · exact hdigit₁
    · exact hdigit₀

theorem decimal_length (c : UInt8) : (decimal c.toNat).length ≤ 3 := by
  have hlt := c.toNat_lt
  rw [decimal, List.length_map, Nat.length_toDigits_le_iff (by decide) (by decide)]
  omega

theorem escape_length (s : Text) : s.length ≤ (escape s).length := by
  induction s with
  | nil => exact Nat.le_refl 0
  | cons c s ih =>
    rw [escape, List.length_append, List.length_cons]
    split
    · simp only [List.length_cons, List.length_nil]
      omega
    · split <;> simp only [List.length_cons] <;> omega

theorem escape_head (s x : Text) : ∀ c ∈ (escape s ++ quotationMark :: x).head?,
    c ≠ 13 ∧ (isDigit c = true → s.head?.any isDigit = true) := by
  intro c hc
  cases s with
  | nil =>
    cases hc
    decide
  | cons a s =>
    rw [escape] at hc
    split at hc
    · cases hc
      exact ⟨by decide, fun h => absurd h (by decide)⟩
    · split at hc
      · cases hc
        exact ⟨by decide, fun h => absurd h (by decide)⟩
      · next hcontrol =>
        cases hc
        exact ⟨fun h => hcontrol (isControl_newline c (.inr h)), fun h => h⟩

theorem take_digits (hd : ∀ c ∈ d, isDigit c = true) (hlen : d.length ≤ 3)
    (hx : d.length = 3 ∨ ∀ c ∈ x.head?, isDigit c = false) :
    ((d ++ x).take 3).takeWhile isDigit = d := by
  rw [List.take_append, List.take_of_length_le hlen]
  refine (takeWhile_run hd fun c hc => ?_).1
  rcases hx with hx | hx
  · rw [hx] at hc
    simp at hc
  · cases x with
    | nil => simp at hc
    | cons a x =>
      cases hk : 3 - d.length with
      | zero => simp [hk] at hc
      | succ k =>
        rw [hk] at hc
        exact hx c hc

theorem readEscape_digits {c : UInt8} (hd : ∀ c ∈ d, isDigit c = true) (hne : d ≠ [])
    (hlen : d.length ≤ 3) (hx : d.length = 3 ∨ ∀ c ∈ x.head?, isDigit c = false)
    (hvalue : digitsValue d = c.toNat) : readEscape (d ++ x) = some (c, x) := by
  have htake := take_digits hd hlen hx
  cases d with
  | nil => exact absurd rfl hne
  | cons a d =>
    have ha := hd a List.mem_cons_self
    obtain ⟨-, hquote, hsolidus, hnewline, -⟩ := isDigit_start a ha
    rw [List.cons_append] at htake ⊢
    rw [readEscape, if_neg (by simp [hquote, hsolidus]), if_neg hnewline, if_pos ha]
    simp only [htake, hvalue]
    rw [if_pos (Nat.le_of_lt_succ c.toNat_lt), UInt8.ofNat_toNat, ← List.cons_append,
      List.drop_left]

theorem readString_escape (s : Text) {k : Nat} (hk : s.length < k) (x : Text) :
    readString k (escape s ++ quotationMark :: x) = some (s, x) := by
  induction s generalizing k with
  | nil =>
    cases k with
    | zero => cases hk
    | succ k => rfl
  | cons c s ih =>
    cases k with
    | zero => cases hk
    | succ k =>
      have hrest := ih (Nat.lt_of_succ_lt_succ hk)
      have hhead := escape_head s x
      have hescape {text : Text}
          (he : readEscape text = some (c, escape s ++ quotationMark :: x)) :
          readString (k + 1) (reverseSolidus :: text) = some (c :: s, x) := by
        rw [readString, if_neg (by decide), if_neg (by decide), if_pos rfl, he, Option.bind_some]
        exact congrArg (Option.map _) hrest
      rw [escape, List.append_assoc]
      by_cases hspecial : c = quotationMark ∨ c = reverseSolidus ∨ c = newline
      · rw [if_pos hspecial]
        refine hescape ?_
        change readEscape (c :: (escape s ++ quotationMark :: x)) = _
        rw [readEscape]
        by_cases hplain : c = quotationMark ∨ c = reverseSolidus
        · rw [if_pos hplain]
        · have hnewline : c = newline := (or_assoc.mpr hspecial).resolve_left hplain
          have hreturn : (escape s ++ quotationMark :: x).head? ≠ some 13 :=
            fun h => (hhead 13 h).1 rfl
          rw [if_neg hplain, if_pos hnewline, if_neg hreturn]
      rw [if_neg hspecial]
      by_cases hcontrol : isControl c = true
      · rw [if_pos hcontrol]
        refine hescape ?_
        by_cases hdigit : s.head?.any isDigit = true
        · rw [if_pos hdigit]
          obtain ⟨hvalue, hdigits⟩ := threeDigits_value c
          exact readEscape_digits hdigits (by simp [threeDigits]) (Nat.le_refl 3) (.inl rfl) hvalue
        · rw [if_neg hdigit]
          refine readEscape_digits (decimal_digits _) (decimal_ne_nil _) (decimal_length c)
            (.inr fun d hd => ?_) (digitsValue_decimal _)
          exact eq_false_of_ne_true fun h => hdigit ((hhead d hd).2 h)
      · rw [if_neg hcontrol]
        have hquote : c ≠ quotationMark := fun h => hspecial (.inl h)
        have hsolidus : c ≠ reverseSolidus := fun h => hspecial (.inr (.inl h))
        have hnewline : ¬ (c = newline ∨ c = 13) := fun h => hcontrol (isControl_newline c h)
        rw [List.cons_append, List.nil_append, readString, if_neg hquote, if_neg hnewline,
          if_neg hsolidus, hrest]
        rfl

end Quote

section Scalars

variable {rest : Text} {n : Nat}

theorem readExp_string (s : Text) (hn : 1 ≤ n) (rest : Text) :
    readExp n (quote s ++ rest) = some (.scalar (.string s), rest) := by
  obtain ⟨n, rfl⟩ := Nat.exists_eq_add_of_le' hn
  have hlen : s.length < (escape s ++ quotationMark :: rest).length := by
    rw [List.length_append, List.length_cons]
    have hle := escape_length s
    omega
  have htext : quote s ++ rest = quotationMark :: (escape s ++ quotationMark :: rest) := by
    simp [quote]
  rw [htext, readExp, if_neg (by decide), if_pos rfl, readString_escape s hlen]
  rfl

theorem readExp_boolean (b : Bool) (hn : 1 ≤ n) (hr : Ends rest) :
    readExp n (tostring (.boolean b) ++ rest) = some (.scalar (.boolean b), rest) := by
  obtain ⟨n, rfl⟩ := Nat.exists_eq_add_of_le' hn
  have hname (w : Text) (hw : w.all (fun c => isNameStart c || isDigit c) = true) :
      (w ++ rest).takeWhile (fun c => isNameStart c || isDigit c) = w := by
    refine (takeWhile_run (List.all_eq_true.mp hw) fun c hc => ?_).1
    obtain ⟨-, -, -, hstart, hdigit, -⟩ := hr.plain c hc
    simp [hstart, hdigit]
  cases b with
  | true =>
    have hkeyword : keyword (word "true" ++ rest) = some (.boolean true, rest) := by
      rw [keyword, hname _ (by decide)]
      rfl
    exact congrArg (Option.map _) hkeyword
  | false =>
    have hkeyword : keyword (word "false" ++ rest) = some (.boolean false, rest) := by
      rw [keyword, hname _ (by decide)]
      rfl
    exact congrArg (Option.map _) hkeyword

theorem readExp_integer {i : Int} (hv : (Scalar.integer i).Valid) (hs : i ≠ minInteger)
    (hn : (Scalar.integer i).depth ≤ n) (hr : Ends rest) :
    readExp n (integerText i ++ rest) = some (.scalar (.integer i), rest) := by
  obtain ⟨hlo, hhi⟩ := hv
  have hread : tonumber (decimal i.natAbs) = some (.integer i.natAbs) :=
    tonumber_integer false i.natAbs (by
      simp only [minInteger, maxInteger, Bool.false_eq_true, if_false] at *
      omega)
  by_cases hneg : i < 0
  · have htext : integerText i = byte '-' :: decimal i.natAbs := by simp [integerText, sign, hneg]
    have hdepth : (Scalar.integer i).depth = 2 := by
      simp [Scalar.depth, serializeScalar, tostring, htext]
    rw [hdepth] at hn
    obtain ⟨n, rfl⟩ := Nat.exists_eq_add_of_le' hn
    rw [htext, List.cons_append]
    refine readExp_negative (.of_decimal _) hread ?_ hr n
    have hbmod : Int.bmod (-i.natAbs) (2 ^ 64) = i := by
      rw [Int.bmod_eq_of_le (by simp only [minInteger, maxInteger] at *; omega)
        (by simp only [minInteger, maxInteger] at *; omega)]
      omega
    rw [negate, hbmod]
  · have htext : integerText i = decimal i.natAbs := by simp [integerText, sign, hneg]
    have hpos : (i.natAbs : Int) = i := by omega
    have hdepth : 1 ≤ (Scalar.integer i).depth := by
      rw [Scalar.depth]
      split <;> omega
    obtain ⟨n, rfl⟩ := Nat.exists_eq_add_of_le' (Nat.le_trans hdepth hn)
    rw [htext, readExp_numeral (.of_decimal _) hread hr, hpos]

theorem readExp_float {f : Float} (hs : tonumber (floatText f) = some (.float f))
    (hn : (Scalar.float f).depth ≤ n) (hr : Ends rest) :
    readExp n (floatText f ++ rest) = some (.scalar (.float f), rest) := by
  rcases floatText_cases f with ⟨minus, p, hp, htext⟩ | hnone
  · rw [htext, hp.tonumber minus] at hs
    simp only [Option.some.injEq, Scalar.float.injEq] at hs
    cases minus with
    | true =>
      have htext : floatText f = byte '-' :: p.text := htext
      have hdepth : (Scalar.float f).depth = 2 := by
        simp [Scalar.depth, serializeScalar, tostring, htext]
      rw [hdepth] at hn
      obtain ⟨n, rfl⟩ := Nat.exists_eq_add_of_le' hn
      rw [htext, List.cons_append, ← hs]
      exact readExp_negative (.of_printed hp) (hp.tonumber false) rfl hr n
    | false =>
      have htext : floatText f = p.text := htext
      have hdepth : 1 ≤ (Scalar.float f).depth := by
        rw [Scalar.depth]
        split <;> omega
      obtain ⟨n, rfl⟩ := Nat.exists_eq_add_of_le' (Nat.le_trans hdepth hn)
      rw [htext, readExp_numeral (.of_printed hp) (hp.tonumber false) hr, ← hs]
  · rw [hnone] at hs
    cases hs

theorem depth_pos (a : Scalar) : 1 ≤ a.depth := by
  rw [Scalar.depth]
  split <;> omega

theorem readExp_scalar {a : Scalar} (hv : a.Valid) (hs : a.Survives) (hn : a.depth ≤ n)
    (hr : Ends rest) : readExp n (serializeScalar a ++ rest) = some (.scalar a, rest) := by
  cases a with
  | string s => exact readExp_string s (Nat.le_trans (depth_pos _) hn) rest
  | boolean b => exact readExp_boolean b (Nat.le_trans (depth_pos _) hn) hr
  | integer i => exact readExp_integer hv hs hn hr
  | float f => exact readExp_float hs hn hr

end Scalars

section Tables

theorem setEntry_new {entries : List (Scalar × Value)} {k : Scalar} (v : Value)
    (h : k ∉ entries.map Prod.fst) : setEntry entries k v = entries ++ [(k, v)] := if_neg h

theorem after_append (start text : Text) : after start (start ++ text) = some text := by
  have hstart : start.isPrefixOf (start ++ text) = true :=
    List.isPrefixOf_iff_prefix.mpr (List.prefix_append start text)
  rw [after, if_pos hstart, List.drop_left]

theorem serializeEntries_cons (k : Scalar) (v : Value) (entries : List (Scalar × Value))
    (x : Text) : serializeEntries ((k, v) :: entries) ++ x =
      byte '[' :: (serializeScalar k ++ (word "]=" ++
        (serialize v ++ (word "," ++ (serializeEntries entries ++ x))))) := by
  simp [serializeEntries, word]

theorem serializeEntries_length (entries : List (Scalar × Value)) :
    entries.length ≤ (serializeEntries entries).length := by
  induction entries with
  | nil => exact Nat.le_refl 0
  | cons e entries ih =>
    obtain ⟨k, v⟩ := e
    simp only [serializeEntries, List.length_cons, List.length_append]
    omega

theorem ends_bracket (x : Text) : Ends (word "]=" ++ x) := by
  rintro _ ⟨⟩
  exact .inr rfl

theorem ends_comma (x : Text) : Ends (word "," ++ x) := by
  rintro _ ⟨⟩
  exact .inl rfl

/-- A field goes into the table, where no earlier one has its key. -/
theorem readFields_field {exp : Text → Option (Value × Text)} {entries : List (Scalar × Value)}
    {k : Scalar} {v : Value} {x : Text}
    (hk : ∀ x, exp (serializeScalar k ++ (word "]=" ++ x)) = some (.scalar k, word "]=" ++ x))
    (hv : ∀ x, exp (serialize v ++ (word "," ++ x)) = some (v, word "," ++ x))
    (hkey : tableKey k = some k) (hnew : k ∉ entries.map Prod.fst) (n : Nat)
    (more : List (Scalar × Value)) :
    readFields exp (n + 1) entries (serializeEntries ((k, v) :: more) ++ x) =
      readFields exp n (entries ++ [(k, v)]) (serializeEntries more ++ x) := by
  rw [serializeEntries_cons, readFields, if_neg (by decide), if_pos rfl]
  simp only [hk, hv, after_append, hkey, setEntry_new v hnew, Option.bind_eq_bind,
    Option.bind_some]

mutual

/-- A value is read as it was serialized. -/
theorem readExp_serialize : (v : Value) → v.Valid → v.Survives → ∀ {n : Nat}, v.depth ≤ n →
    ∀ {rest : Text}, Ends rest → readExp n (serialize v ++ rest) = some (v, rest)
  | .scalar _, hv, hs, _, hn, _, hr => readExp_scalar hv hs hn hr
  | .table entries, hv, hs, n, hn, rest, _ => by
    obtain ⟨n, rfl⟩ := Nat.exists_eq_add_of_le' (Nat.le_trans (Nat.le_add_left 1 _) hn)
    have hlen : entries.length < (serializeEntries entries ++ byte '}' :: rest).length := by
      rw [List.length_append, List.length_cons]
      have hle := serializeEntries_length entries
      omega
    have hnodup : (([] ++ entries : List (Scalar × Value)).map Prod.fst).Nodup := hv.1
    have hfields :=
      readFields_serialize entries hv.2 hs (Nat.le_of_succ_le_succ hn) hnodup hlen rest
    have htext : serialize (.table entries) ++ rest =
        byte '{' :: (serializeEntries entries ++ byte '}' :: rest) := by
      simp [serialize]
    rw [htext, readExp, if_pos rfl, hfields]
    rfl

theorem readFields_serialize : (entries : List (Scalar × Value)) → ValidEntries entries →
    SurvivesEntries entries → ∀ {n : Nat}, entriesDepth entries ≤ n →
    ∀ {entries₀ : List (Scalar × Value)}, ((entries₀ ++ entries).map Prod.fst).Nodup →
    ∀ {k : Nat}, entries.length < k → ∀ rest : Text,
    readFields (readExp n) k entries₀ (serializeEntries entries ++ byte '}' :: rest) =
      some (entries₀ ++ entries, rest)
  | [], _, _, _, _, entries₀, _, k, hk, rest => by
    obtain ⟨k, rfl⟩ := Nat.exists_eq_add_of_le' hk
    rw [List.append_nil]
    rfl
  | (key, v) :: entries, hv, hs, n, hn, entries₀, hnodup, k, hk, rest => by
    obtain ⟨⟨hkv, hkey, hvv⟩, hv⟩ := hv
    obtain ⟨⟨hks, hvs⟩, hs⟩ := hs
    have hdepth : max (max key.depth v.depth) (entriesDepth entries) ≤ n := hn
    obtain ⟨k, rfl⟩ := Nat.exists_eq_add_of_le' (Nat.lt_of_le_of_lt (Nat.zero_le _) hk)
    have hnew : key ∉ entries₀.map Prod.fst := by
      rw [List.map_append, List.nodup_append] at hnodup
      intro hmem
      exact hnodup.2.2 key hmem key (by simp) rfl
    have happend : entries₀ ++ (key, v) :: entries = entries₀ ++ [(key, v)] ++ entries := by simp
    rw [readFields_field (fun x => readExp_scalar hkv hks (by omega) (ends_bracket x))
      (fun x => readExp_serialize v hvv hvs (by omega) (ends_comma x)) hkey hnew, happend]
    rw [happend] at hnodup
    exact readFields_serialize entries hv hs (by omega) hnodup
      (Nat.lt_of_succ_lt_succ (by simpa using hk)) rest

end

end Tables

end Config
end Skyext
