import Mathlib.Data.List.TakeWhile
import Skyext.Sdk.Json

namespace Skyext
set_option autoImplicit true

namespace Sdk
namespace Json

def Resumes (x rest : Text) : Prop := x.head? = rest.head? ∨ x.head? = some quotationMark

variable {x text rest raw d : Text} {c : UInt16} {p : UInt16 → Bool} {k k' : Nat}

theorem Resumes.append (h : Resumes x rest) (d : Text) : Resumes (d ++ x) (d ++ rest) := by
  cases d with
  | nil => exact h
  | cons c d => exact .inl rfl

theorem takeWhile_head (h : ∀ c ∈ x.head?, p c = false) :
    x.takeWhile p = [] ∧ x.dropWhile p = x := by
  cases x with
  | nil => exact ⟨rfl, rfl⟩
  | cons c x =>
    have hc : p c = false := h c rfl
    exact ⟨List.takeWhile_cons_of_neg (by simp [hc]), List.dropWhile_cons_of_neg (by simp [hc])⟩

theorem takeWhile_resume (hq : p quotationMark = false) (hx : Resumes x (text.dropWhile p)) :
    (text.takeWhile p ++ x).takeWhile p = text.takeWhile p ∧
      (text.takeWhile p ++ x).dropWhile p = x := by
  have hall : ∀ c ∈ text.takeWhile p, p c = true := fun c hc => List.mem_takeWhile_imp hc
  have hhead : ∀ c ∈ x.head?, p c = false := by
    intro c hc
    rcases hx with hx | hx
    · rw [hx] at hc
      have hnot := List.head?_dropWhile_not p text
      rw [hc] at hnot
      exact hnot
    · rw [hx] at hc
      cases hc
      exact hq
  obtain ⟨htake, hdrop⟩ := takeWhile_head hhead
  rw [List.takeWhile_append_of_pos hall, List.dropWhile_append_of_pos hall, htake, hdrop,
    List.append_nil]
  exact ⟨rfl, rfl⟩

theorem scanDigits_append (text : Text) : (scanDigits text).1 ++ (scanDigits text).2 = text :=
  List.takeWhile_append_dropWhile

theorem scanDigits_resume (hx : Resumes x (scanDigits text).2) :
    scanDigits ((scanDigits text).1 ++ x) = ((scanDigits text).1, x) := by
  obtain ⟨htake, hdrop⟩ := takeWhile_resume (by decide) hx
  exact Prod.ext htake hdrop

theorem scanFrac_append (text : Text) : (scanFrac text).1 ++ (scanFrac text).2 = text := by
  cases text with
  | nil => rfl
  | cons c rest =>
    rw [scanFrac]
    split
    · exact congrArg (c :: ·) (scanDigits_append rest)
    · rfl

/-- A character that ends a part of a number ends it also where a string may follow. -/
theorem head_ne {P : UInt16 → Prop} (hx : Resumes x text)
    (h : ∀ c ∈ text.head?, ¬ P c) (hq : ¬ P quotationMark) :
    ∀ c ∈ x.head?, ¬ P c := by
  intro c hc
  rcases hx with hx | hx
  · exact h c (hx ▸ hc)
  · rw [hx] at hc
    cases hc
    exact hq

theorem scanFrac_none (h : ∀ c ∈ x.head?, ¬ c = unit '.') : scanFrac x = ([], x) := by
  cases x with
  | nil => rfl
  | cons c x => rw [scanFrac, if_neg (h c rfl)]

theorem scanFrac_resume (hx : Resumes x (scanFrac text).2) :
    scanFrac ((scanFrac text).1 ++ x) = ((scanFrac text).1, x) := by
  cases text with
  | nil => exact scanFrac_none (head_ne hx (by simp [scanFrac]) (by decide))
  | cons c rest =>
    by_cases hc : c = unit '.'
    · simp only [scanFrac, if_pos hc] at hx ⊢
      simp only [List.cons_append, if_pos hc, scanDigits_resume hx]
    · simp only [scanFrac, if_neg hc] at hx ⊢
      refine scanFrac_none (head_ne hx ?_ (by decide))
      rintro _ ⟨⟩
      exact hc

theorem scanSign_append (text : Text) : (scanSign text).1 ++ (scanSign text).2 = text := by
  cases text with
  | nil => rfl
  | cons c rest =>
    rw [scanSign]
    split <;> rfl

theorem scanSign_none (h : ∀ c ∈ x.head?, ¬ (c = unit '+' ∨ c = unit '-')) :
    scanSign x = ([], x) := by
  cases x with
  | nil => rfl
  | cons c x => rw [scanSign, if_neg (h c rfl)]

theorem scanSign_resume (hx : Resumes x (scanSign text).2) :
    scanSign ((scanSign text).1 ++ x) = ((scanSign text).1, x) := by
  cases text with
  | nil => exact scanSign_none (head_ne hx (by simp [scanSign]) (by decide))
  | cons c rest =>
    by_cases hc : c = unit '+' ∨ c = unit '-'
    · simp only [scanSign, if_pos hc, List.cons_append, List.nil_append]
    · simp only [scanSign, if_neg hc] at hx ⊢
      refine scanSign_none (head_ne hx ?_ (by decide))
      rintro _ ⟨⟩
      exact hc

theorem scanExp_append (text : Text) : (scanExp text).1 ++ (scanExp text).2 = text := by
  cases text with
  | nil => rfl
  | cons c rest =>
    rw [scanExp]
    split
    · have hsign := scanSign_append rest
      have hdigits := scanDigits_append (scanSign rest).2
      simp only [List.cons_append, List.append_assoc, hdigits, hsign]
    · rfl

theorem scanExp_none (h : ∀ c ∈ x.head?, ¬ (c = unit 'e' ∨ c = unit 'E')) :
    scanExp x = ([], x) := by
  cases x with
  | nil => rfl
  | cons c x => rw [scanExp, if_neg (h c rfl)]

theorem scanExp_resume (hx : Resumes x (scanExp text).2) :
    scanExp ((scanExp text).1 ++ x) = ((scanExp text).1, x) := by
  cases text with
  | nil => exact scanExp_none (head_ne hx (by simp [scanExp]) (by decide))
  | cons c rest =>
    by_cases hc : c = unit 'e' ∨ c = unit 'E'
    · simp only [scanExp, if_pos hc] at hx ⊢
      have hdigits := hx.append (scanDigits (scanSign rest).2).1
      rw [scanDigits_append] at hdigits
      simp only [List.cons_append, List.append_assoc, if_pos hc, scanSign_resume hdigits,
        scanDigits_resume hx]
    · simp only [scanExp, if_neg hc] at hx ⊢
      refine scanExp_none (head_ne hx ?_ (by decide))
      rintro _ ⟨⟩
      exact hc

def minusText (minus : Bool) : Text := if minus then [unit '-'] else []

theorem scanMinus_append (text : Text) :
    minusText (scanMinus text).1 ++ (scanMinus text).2 = text := by
  cases text with
  | nil => rfl
  | cons c rest =>
    rw [scanMinus]
    split
    · next hc => rw [hc]; rfl
    · rfl

theorem scanMinus_none (h : ∀ c ∈ x.head?, ¬ c = unit '-') : scanMinus x = (false, x) := by
  cases x with
  | nil => rfl
  | cons c x => rw [scanMinus, if_neg (h c rfl)]

theorem scanMinus_resume (hx : Resumes x (scanMinus text).2) :
    scanMinus (minusText (scanMinus text).1 ++ x) = ((scanMinus text).1, x) := by
  cases text with
  | nil => exact scanMinus_none (head_ne hx (by simp [scanMinus]) (by decide))
  | cons c rest =>
    by_cases hc : c = unit '-'
    · simp only [scanMinus, if_pos hc, minusText, if_true, List.cons_append, List.nil_append]
    · simp only [scanMinus, if_neg hc] at hx ⊢
      refine scanMinus_none (head_ne hx ?_ (by decide))
      rintro _ ⟨⟩
      exact hc

section Parts

variable (text : Text)

def afterMinus : Text := (scanMinus text).2

def afterInt : Text := (scanDigits (afterMinus text)).2

def afterFrac : Text := (scanFrac (afterInt text)).2

theorem scanNumber_parts : scanNumber text =
    (⟨(scanMinus text).1, (scanDigits (afterMinus text)).1, (scanFrac (afterInt text)).1,
      (scanExp (afterFrac text)).1⟩, (scanExp (afterFrac text)).2) := rfl

theorem scanNumber_text : (scanNumber text).1.text = minusText (scanMinus text).1 ++
    (scanDigits (afterMinus text)).1 ++ (scanFrac (afterInt text)).1 ++
      (scanExp (afterFrac text)).1 := rfl

theorem scanNumber_append : (scanNumber text).1.text ++ (scanNumber text).2 = text := by
  have hminus : minusText (scanMinus text).1 ++ afterMinus text = text := scanMinus_append text
  have hint : (scanDigits (afterMinus text)).1 ++ afterInt text = afterMinus text :=
    scanDigits_append _
  have hfrac : (scanFrac (afterInt text)).1 ++ afterFrac text = afterInt text := scanFrac_append _
  have hexp := scanExp_append (afterFrac text)
  rw [scanNumber_text, scanNumber_parts, List.append_assoc, hexp, List.append_assoc, hfrac,
    List.append_assoc, hint, hminus]

end Parts

/-- What follows a number is no part of it. -/
theorem scanNumber_resume (hx : Resumes x (scanNumber text).2) :
    scanNumber ((scanNumber text).1.text ++ x) = ((scanNumber text).1, x) := by
  have hexp : Resumes x (scanExp (afterFrac text)).2 := hx
  have hfrac : Resumes ((scanExp (afterFrac text)).1 ++ x) (scanFrac (afterInt text)).2 := by
    have h := hexp.append (scanExp (afterFrac text)).1
    rwa [scanExp_append] at h
  have hint : Resumes ((scanFrac (afterInt text)).1 ++ ((scanExp (afterFrac text)).1 ++ x))
      (scanDigits (afterMinus text)).2 := by
    have h := hfrac.append (scanFrac (afterInt text)).1
    rwa [scanFrac_append] at h
  have hminus : Resumes ((scanDigits (afterMinus text)).1 ++ ((scanFrac (afterInt text)).1 ++
      ((scanExp (afterFrac text)).1 ++ x))) (scanMinus text).2 := by
    have h := hint.append (scanDigits (afterMinus text)).1
    rwa [scanDigits_append] at h
  rw [scanNumber_text, List.append_assoc, List.append_assoc, List.append_assoc]
  simp only [scanNumber, scanMinus_resume hminus, scanDigits_resume hint, scanFrac_resume hfrac,
    scanExp_resume hexp]
  rfl

theorem scanNumber_cons (hc : c = unit '-' ∨ isDigit c = true) (rest : Text) :
    ∃ tail, (scanNumber (c :: rest)).1.text = c :: tail := by
  rw [scanNumber_text]
  by_cases hminus : c = unit '-'
  · simp only [scanMinus, minusText, if_true, hminus, List.cons_append]
    exact ⟨_, rfl⟩
  · have hdigit := hc.resolve_left hminus
    simp only [afterMinus, scanMinus, if_neg hminus, minusText, scanDigits,
      List.takeWhile_cons_of_pos hdigit]
    exact ⟨_, rfl⟩

theorem stringLiteral_solidus (d : UInt16) (rest : Text) :
    stringLiteral (reverseSolidus :: d :: rest) =
      (stringLiteral rest).map fun (raw, rest) => (reverseSolidus :: d :: raw, rest) := rfl

theorem stringLiteral_plain (hc : c ≠ reverseSolidus) (hq : c ≠ quotationMark) (rest : Text) :
    stringLiteral (c :: rest) =
      (stringLiteral rest).map fun (raw, rest) => (c :: raw, rest) := by
  rw [stringLiteral.eq_def]
  simp only [if_neg hc, if_neg hq]

theorem stringLiteral_mark (rest : Text) :
    stringLiteral (quotationMark :: rest) = some ([], rest) := by
  rw [stringLiteral.eq_def]
  rfl

theorem copyString_plain (hc : c ≠ reverseSolidus) (hq : c ≠ quotationMark) (rest : Text) :
    copyString (c :: rest) = (c :: (copyString rest).1, (copyString rest).2) := by
  rw [copyString.eq_def]
  simp only [if_neg hc, if_neg hq]

theorem copyString_mark (rest : Text) :
    copyString (quotationMark :: rest) = ([quotationMark], rest) := by
  rw [copyString.eq_def]
  rfl

theorem copyString_eq (text : Text) : copyString text =
    match stringLiteral text with
    | some (raw, rest) => (raw ++ [quotationMark], rest)
    | none => (text, []) := by
  induction text using stringLiteral.induct with
  | case1 => rfl
  | case2 => rfl
  | case3 d rest ih =>
    rw [stringLiteral_solidus]
    change (reverseSolidus :: d :: (copyString rest).1, (copyString rest).2) = _
    rw [ih]
    cases stringLiteral rest <;> rfl
  | case4 rest =>
    rw [copyString_mark, stringLiteral_mark]
    rfl
  | case5 c rest hc hq ih =>
    rw [copyString_plain hc hq, stringLiteral_plain hc hq, ih]
    cases stringLiteral rest <;> rfl

theorem stringLiteral_append (h : stringLiteral text = some (raw, rest)) :
    text = raw ++ quotationMark :: rest := by
  induction text using stringLiteral.induct generalizing raw with
  | case1 => cases h
  | case2 => cases h
  | case3 d rest' ih =>
    rw [stringLiteral_solidus] at h
    obtain ⟨⟨raw', rest''⟩, hr, he⟩ := Option.map_eq_some_iff.mp h
    cases he
    rw [ih hr]
    rfl
  | case4 =>
    rw [stringLiteral_mark] at h
    cases h
    rfl
  | case5 c rest' hc hq ih =>
    rw [stringLiteral_plain hc hq] at h
    obtain ⟨⟨raw', rest''⟩, hr, he⟩ := Option.map_eq_some_iff.mp h
    cases he
    rw [ih hr]
    rfl

theorem stringLiteral_resume (h : stringLiteral text = some (raw, rest)) (x : Text) :
    stringLiteral (raw ++ quotationMark :: x) = some (raw, x) := by
  induction text using stringLiteral.induct generalizing raw with
  | case1 => cases h
  | case2 => cases h
  | case3 d rest' ih =>
    rw [stringLiteral_solidus] at h
    obtain ⟨⟨raw', rest''⟩, hr, he⟩ := Option.map_eq_some_iff.mp h
    cases he
    rw [List.cons_append, List.cons_append, stringLiteral_solidus, ih hr]
    rfl
  | case4 =>
    rw [stringLiteral_mark] at h
    cases h
    exact stringLiteral_mark x
  | case5 c rest' hc hq ih =>
    rw [stringLiteral_plain hc hq] at h
    obtain ⟨⟨raw', rest''⟩, hr, he⟩ := Option.map_eq_some_iff.mp h
    cases he
    rw [List.cons_append, stringLiteral_plain hc hq, ih hr]
    rfl

theorem stringLiteral_raw (h : ∀ c ∈ d, c ≠ reverseSolidus ∧ c ≠ quotationMark) (x : Text) :
    stringLiteral (d ++ quotationMark :: x) = some (d, x) := by
  induction d with
  | nil => exact stringLiteral_mark x
  | cons c d ih =>
    obtain ⟨hc, hq⟩ := h c List.mem_cons_self
    rw [List.cons_append, stringLiteral_plain hc hq, ih fun c hc => h c (List.mem_cons_of_mem _ hc)]
    rfl

theorem scanNumber_length (hc : c = unit '-' ∨ isDigit c = true) (rest : Text) :
    (scanNumber (c :: rest)).2.length ≤ rest.length := by
  obtain ⟨tail, htail⟩ := scanNumber_cons hc rest
  have hlen := congrArg List.length (scanNumber_append (c :: rest))
  rw [htail, List.length_append, List.length_cons, List.length_cons] at hlen
  omega

theorem stringLiteral_length (h : stringLiteral text = some (raw, rest)) :
    rest.length ≤ text.length := by
  rw [stringLiteral_append h, List.length_append, List.length_cons]
  omega

/-- More rounds than there are characters make no difference. -/
theorem lexFrom_fuel (hk : text.length ≤ k) (hk' : text.length ≤ k') :
    lexFrom k text = lexFrom k' text := by
  induction k generalizing text k' with
  | zero =>
    rw [List.length_eq_zero_iff.mp (Nat.le_zero.mp hk)]
    cases k' <;> rfl
  | succ k ih =>
    cases text with
    | nil => cases k' <;> rfl
    | cons c rest =>
      cases k' with
      | zero => cases hk'
      | succ k' =>
        have hrest : rest.length ≤ k := Nat.le_of_succ_le_succ hk
        have hrest' : rest.length ≤ k' := Nat.le_of_succ_le_succ hk'
        rw [lexFrom, lexFrom]
        by_cases hb : isBlank c = true
        · rw [if_pos hb, if_pos hb, ih hrest hrest']
        rw [if_neg hb, if_neg hb]
        by_cases hq : c = quotationMark
        · rw [if_pos hq, if_pos hq]
          cases hs : stringLiteral rest with
          | none => rfl
          | some r =>
            have hlen := stringLiteral_length (show stringLiteral rest = some (r.1, r.2) from hs)
            simp only [Option.bind_some]
            rw [ih (Nat.le_trans hlen hrest) (Nat.le_trans hlen hrest')]
        rw [if_neg hq, if_neg hq]
        by_cases hn : c = unit '-' ∨ isDigit c = true
        · have hlen := scanNumber_length hn rest
          rw [if_pos hn, if_pos hn]
          simp only
          rw [ih (Nat.le_trans hlen hrest) (Nat.le_trans hlen hrest')]
        rw [if_neg hn, if_neg hn]
        by_cases hl : isLetter c = true
        · have hlen : (rest.dropWhile isLetter).length ≤ rest.length :=
            (List.dropWhile_suffix _).length_le
          rw [if_pos hl, if_pos hl, ih (Nat.le_trans hlen hrest) (Nat.le_trans hlen hrest')]
        rw [if_neg hl, if_neg hl, ih hrest hrest']

theorem quoteFrom_resumes (hk : text.length ≤ k) : Resumes (quoteFrom k text) text := by
  cases k with
  | zero =>
    rw [List.length_eq_zero_iff.mp (Nat.le_zero.mp hk)]
    exact .inl rfl
  | succ k =>
    cases text with
    | nil => exact .inl rfl
    | cons c rest =>
      rw [quoteFrom]
      split
      · exact .inl rfl
      · split
        · next hc =>
          obtain ⟨tail, htail⟩ := scanNumber_cons hc rest
          simp only [quoteUnsafe]
          split
          · exact .inr rfl
          · rw [htail]
            exact .inl rfl
        · exact .inl rfl

theorem quoteFrom_plain (hq : c ≠ quotationMark) (hn : ¬ (c = unit '-' ∨ isDigit c = true))
    (k : Nat) (rest : Text) : quoteFrom (k + 1) (c :: rest) = c :: quoteFrom k rest := by
  rw [quoteFrom, if_neg hq, if_neg hn]

theorem isLetter_plain (h : isLetter c = true) :
    c ≠ quotationMark ∧ ¬ (c = unit '-' ∨ isDigit c = true) := by
  have hletter : unit 'a' ≤ c := by
    simp only [isLetter, Bool.and_eq_true, decide_eq_true_eq] at h
    exact h.1
  refine ⟨?_, ?_⟩
  · rintro rfl
    exact absurd hletter (by decide)
  · rintro (rfl | hd)
    · exact absurd hletter (by decide)
    · simp only [isDigit, Bool.and_eq_true, decide_eq_true_eq] at hd
      have hle := UInt16.le_trans hletter hd.2
      exact absurd hle (by decide)

theorem quoteFrom_letters (hd : ∀ c ∈ d, isLetter c = true) (k : Nat) (x : Text) :
    quoteFrom (d.length + k) (d ++ x) = d ++ quoteFrom k x := by
  induction d with
  | nil => simp
  | cons c d ih =>
    obtain ⟨hq, hn⟩ := isLetter_plain (hd c List.mem_cons_self)
    rw [List.length_cons, Nat.add_right_comm, List.cons_append, quoteFrom_plain hq hn,
      ih fun c hc => hd c (List.mem_cons_of_mem _ hc)]
    rfl

theorem quoteFrom_word (hk : rest.length ≤ k) : ∃ j ≤ k, (rest.dropWhile isLetter).length ≤ j ∧
    (quoteFrom k rest).takeWhile isLetter = rest.takeWhile isLetter ∧
    (quoteFrom k rest).dropWhile isLetter = quoteFrom j (rest.dropWhile isLetter) ∧
    (quoteFrom j (rest.dropWhile isLetter)).length ≤ (quoteFrom k rest).length := by
  have hword : ∀ c ∈ rest.takeWhile isLetter, isLetter c = true :=
    fun _ hc => List.mem_takeWhile_imp hc
  have hsplit : rest.takeWhile isLetter ++ rest.dropWhile isLetter = rest :=
    List.takeWhile_append_dropWhile
  have hlen := congrArg List.length hsplit
  rw [List.length_append] at hlen
  obtain ⟨j, rfl⟩ := Nat.exists_eq_add_of_le
    (show (rest.takeWhile isLetter).length ≤ k by omega)
  have hr : (rest.dropWhile isLetter).length ≤ j := by omega
  have hletters := quoteFrom_letters hword j (rest.dropWhile isLetter)
  rw [hsplit] at hletters
  obtain ⟨htake, hdrop⟩ := takeWhile_resume (show isLetter quotationMark = false by decide)
    (quoteFrom_resumes hr)
  rw [hletters, htake, hdrop]
  refine ⟨j, Nat.le_add_left _ _, hr, rfl, rfl, ?_⟩
  rw [List.length_append]
  exact Nat.le_add_left _ _

theorem isDigit_plain (h : isDigit c = true) :
    c ≠ reverseSolidus ∧ c ≠ quotationMark ∧ c ≠ sentinel ∧ ¬ c < 32 ∧ c ≠ unit '-' := by
  simp only [isDigit, Bool.and_eq_true, decide_eq_true_eq] at h
  obtain ⟨hlo, hhi⟩ := h
  refine ⟨?_, ?_, ?_, ?_, ?_⟩
  · rintro rfl
    exact absurd hhi (by decide)
  · rintro rfl
    exact absurd hlo (by decide)
  · rintro rfl
    exact absurd hhi (by decide)
  · intro hlt
    exact absurd (UInt16.lt_of_le_of_lt hlo hlt) (by decide)
  · rintro rfl
    exact absurd hlo (by decide)

theorem text_plain {n : Number} (hn : n.isFloat = false) (hint : n.int.all isDigit = true) :
    n.text = minusText n.minus ++ n.int ∧
      ∀ c ∈ n.text, c ≠ reverseSolidus ∧ c ≠ quotationMark ∧ ¬ c < 32 := by
  obtain ⟨hfrac, hexp⟩ : n.frac = [] ∧ n.exp = [] := by
    simpa [Number.isFloat] using hn
  have htext : n.text = minusText n.minus ++ n.int := by
    rw [Number.text, hfrac, hexp, List.append_nil, List.append_nil]
    rfl
  refine ⟨htext, fun c hc => ?_⟩
  rw [htext] at hc
  rcases List.mem_append.mp hc with hc | hc
  · unfold minusText at hc
    split at hc
    · cases List.mem_singleton.mp hc
      decide
    · cases hc
  · obtain ⟨h₁, h₂, _, h₄, _⟩ := isDigit_plain (List.all_eq_true.mp hint c hc)
    exact ⟨h₁, h₂, h₄⟩

theorem scanNumber_int (text : Text) : (scanNumber text).1.int.all isDigit = true :=
  List.all_eq_true.mpr fun _ hc => List.mem_takeWhile_imp hc

theorem number_plain (hc : c = unit '-' ∨ isDigit c = true) :
    ¬ isBlank c = true ∧ c ≠ quotationMark := by
  rcases hc with rfl | hc
  · exact ⟨by decide, by decide⟩
  · obtain ⟨_, hq, _, hlt, _⟩ := isDigit_plain hc
    refine ⟨fun hb => hlt ?_, hq⟩
    simp only [isBlank, Bool.or_eq_true, decide_eq_true_eq] at hb
    rcases hb with ((rfl | rfl) | rfl) | rfl
    · cases hc
    · decide
    · decide
    · decide

theorem lexFrom_string (h : stringLiteral text = some (raw, rest)) (k : Nat) :
    lexFrom (k + 1) (quotationMark :: text) = (lexFrom k rest).map (.string raw :: ·) := by
  rw [lexFrom, if_neg (by decide), if_pos rfl, h]
  rfl

theorem lexFrom_number (hc : c = unit '-' ∨ isDigit c = true) (k : Nat) (rest : Text) :
    lexFrom (k + 1) (c :: rest) = (lexFrom k (scanNumber (c :: rest)).2).map
      (.number (scanNumber (c :: rest)).1 :: ·) := by
  obtain ⟨hb, hq⟩ := number_plain hc
  rw [lexFrom, if_neg hb, if_neg hq, if_pos hc]

/-- A quoted integer is read as a string. -/
theorem lexFrom_quoteUnsafe (hc : c = unit '-' ∨ isDigit c = true) (rest x : Text) (k : Nat)
    (hx : Resumes x (scanNumber (c :: rest)).2)
    (hk : (quoteUnsafe (scanNumber (c :: rest)).1 ++ x).length ≤ k) :
    ∃ k', x.length ≤ k' ∧ lexFrom k (quoteUnsafe (scanNumber (c :: rest)).1 ++ x) =
      (lexFrom k' x).map (Token.quote (.number (scanNumber (c :: rest)).1) :: ·) := by
  rw [quoteUnsafe] at hk ⊢
  rw [Token.quote]
  cases k with
  | zero =>
    obtain ⟨tail, htail⟩ := scanNumber_cons hc rest
    split at hk
    · cases hk
    · rw [htail] at hk
      cases hk
  | succ k =>
    split
    · next hunsafe =>
      rw [if_pos hunsafe] at hk
      have hfloat : (scanNumber (c :: rest)).1.isFloat = false := by
        simp only [Bool.and_eq_true, Bool.not_eq_true'] at hunsafe
        exact hunsafe.1
      have hplain := (text_plain hfloat (scanNumber_int _)).2
      have hraw : stringLiteral (sentinel :: (scanNumber (c :: rest)).1.text ++ [sentinel] ++
          quotationMark :: x) =
            some (sentinel :: (scanNumber (c :: rest)).1.text ++ [sentinel], x) := by
        refine stringLiteral_raw (fun u hu => ?_) x
        rcases List.mem_append.mp hu with hu | hu
        · rcases List.mem_cons.mp hu with rfl | hu
          · decide
          · exact ⟨(hplain u hu).1, (hplain u hu).2.1⟩
        · cases List.mem_singleton.mp hu
          decide
      refine ⟨k, ?_, ?_⟩
      · simp only [List.length_append, List.length_cons] at hk
        omega
      · rw [← lexFrom_string hraw k]
        simp
    · next hsafe =>
      rw [if_neg hsafe] at hk
      obtain ⟨tail, htail⟩ := scanNumber_cons hc rest
      have hscan := scanNumber_resume hx
      rw [htail, List.cons_append] at hscan hk ⊢
      refine ⟨k, ?_, ?_⟩
      · rw [List.length_cons, List.length_append] at hk
        omega
      · rw [lexFrom_number hc, hscan]

/-- The quoted text has the same tokens, but for the quoted integers. -/
theorem lexFrom_quote (k : Nat) (text : Text) (hk : text.length ≤ k) (k' : Nat)
    (hk' : (quoteFrom k text).length ≤ k') :
    lexFrom k' (quoteFrom k text) = (lexFrom k text).map (List.map Token.quote) := by
  induction k using Nat.strongRecOn generalizing text k' with
  | _ k ih =>
    cases text with
    | nil =>
      cases k <;> cases k' <;> rfl
    | cons c rest =>
      cases k with
      | zero => cases hk
      | succ k =>
        have hrest : rest.length ≤ k := Nat.le_of_succ_le_succ hk
        have hlt := Nat.lt_succ_self k
        by_cases hq : c = quotationMark
        · subst hq
          have hcopy := copyString_eq rest
          rw [quoteFrom, if_pos rfl] at hk' ⊢
          cases k' with
          | zero => cases hk'
          | succ k' =>
            cases hs : stringLiteral rest with
            | none =>
              rw [hs] at hcopy
              have hnil : quoteFrom k [] = [] := by cases k <;> rfl
              simp only [hcopy, hnil, List.append_nil]
              rw [lexFrom, if_neg (by decide), if_pos rfl, hs]
              rw [lexFrom, if_neg (by decide), if_pos rfl, hs]
              rfl
            | some r =>
              obtain ⟨raw, r⟩ := r
              rw [hs] at hcopy
              simp only [hcopy] at hk' ⊢
              have hraw : stringLiteral (raw ++ [quotationMark] ++ quoteFrom k r) =
                  some (raw, quoteFrom k r) := by
                rw [List.append_assoc]
                exact stringLiteral_resume hs _
              have hr := Nat.le_trans (stringLiteral_length hs) hrest
              rw [List.cons_append, lexFrom_string hraw, lexFrom_string hs,
                ih k hlt r hr k' ?_, Option.map_map, Option.map_map]
              · rfl
              · simp only [List.cons_append, List.length_cons, List.length_append] at hk'
                omega
        by_cases hn : c = unit '-' ∨ isDigit c = true
        · have hr := Nat.le_trans (scanNumber_length hn rest) hrest
          rw [quoteFrom, if_neg hq, if_pos hn] at hk' ⊢
          obtain ⟨j, hj, heq⟩ := lexFrom_quoteUnsafe hn rest _ k' (quoteFrom_resumes hr) hk'
          rw [heq, ih k hlt _ hr j hj, lexFrom_number hn, Option.map_map, Option.map_map]
          rfl
        rw [quoteFrom_plain hq hn] at hk' ⊢
        cases k' with
        | zero => cases hk'
        | succ k' =>
          have hquote : (quoteFrom k rest).length ≤ k' := Nat.le_of_succ_le_succ hk'
          rw [lexFrom, lexFrom]
          by_cases hb : isBlank c = true
          · rw [if_pos hb, if_pos hb]
            exact ih k hlt rest hrest k' hquote
          rw [if_neg hb, if_neg hb, if_neg hq, if_neg hq, if_neg hn, if_neg hn]
          by_cases hl : isLetter c = true
          · rw [if_pos hl, if_pos hl]
            obtain ⟨j, hj, hr, htake, hdrop, hlen⟩ := quoteFrom_word hrest
            rw [htake, hdrop, lexFrom_fuel (Nat.le_trans hr hj) hr,
              ih j (Nat.lt_succ_of_le hj) _ hr k' (Nat.le_trans hlen hquote), Option.map_map,
              Option.map_map]
            rfl
          rw [if_neg hl, if_neg hl]
          split
          · rw [ih k hlt rest hrest k' hquote, Option.map_map, Option.map_map]
            rfl
          · rfl

end Json
end Sdk
end Skyext
