import Mathlib.Data.List.TakeWhile
import Skyext.Config.Source

namespace Skyext
set_option autoImplicit true

namespace Config

open LuaNumber (maxInteger)

theorem forall_byte {P : UInt8 → Prop} (h : ∀ n : Fin 256, P (UInt8.ofFin n)) (c : UInt8) : P c :=
  h c.toFin

def isNumeral (c : UInt8) : Bool :=
  isDigit c || c = byte '.' || c = byte 'e' || c = byte '+' || c = byte '-'

theorem isNumeral_plain (c : UInt8) :
    isNumeral c = true → isBlank c = false ∧ isHexMark c = false := by
  revert c
  refine forall_byte ?_
  decide +kernel

theorem isDigit_plain (c : UInt8) : isDigit c = true → isNumeral c = true ∧ isHexDigit c = true ∧
    isExp c = false ∧ c ≠ byte '-' ∧ c ≠ byte '+' ∧ c ≠ byte '.' := by
  revert c
  refine forall_byte ?_
  decide +kernel

theorem isDigit_start (c : UInt8) : isDigit c = true → c ≠ byte '{' ∧ c ≠ quotationMark ∧
    c ≠ reverseSolidus ∧ c ≠ newline ∧ isControl c = false := by
  revert c
  refine forall_byte ?_
  decide +kernel

theorem byte_digit {c : Char} (h : c.isDigit = true) :
    (byte c).toNat = c.toNat ∧ isDigit (byte c) = true := by
  simp only [Char.isDigit, Bool.and_eq_true, decide_eq_true_eq] at h
  have hlo : 48 ≤ c.toNat := by simpa [UInt32.le_iff_toNat_le] using h.1
  have hhi : c.toNat ≤ 57 := by simpa [UInt32.le_iff_toNat_le] using h.2
  have hnat : (byte c).toNat = c.toNat := by
    rw [byte, UInt8.toNat_ofNat']
    omega
  refine ⟨hnat, ?_⟩
  simp only [isDigit, Bool.and_eq_true, decide_eq_true_eq, UInt8.le_iff_toNat_le, hnat]
  exact ⟨hlo, hhi⟩

theorem decimal_digits (n : Nat) : ∀ c ∈ decimal n, isDigit c = true := by
  intro c hc
  obtain ⟨d, hd, rfl⟩ := List.mem_map.mp hc
  exact (byte_digit (Nat.isDigit_of_mem_toDigits (by decide) (by decide) hd)).2

theorem decimal_ne_nil (n : Nat) : decimal n ≠ [] := by
  rw [decimal, Ne, List.map_eq_nil_iff]
  exact Nat.toDigits_ne_nil

theorem digitsValue_decimal (n : Nat) : digitsValue (decimal n) = n := by
  have hread : ∀ (cs : List Char) (v : Nat), (∀ c ∈ cs, c.isDigit = true) →
      (cs.map byte).foldl (fun v c => v * 10 + (c.toNat - (byte '0').toNat)) v =
        Nat.ofDigitChars 10 cs v := by
    intro cs
    induction cs with
    | nil =>
      intro v _
      rfl
    | cons c cs ih =>
      intro v hcs
      rw [List.map_cons, List.foldl_cons, ih _ fun d hd => hcs d (List.mem_cons_of_mem _ hd),
        Nat.ofDigitChars_cons, (byte_digit (hcs c List.mem_cons_self)).1, Nat.mul_comm]
      rfl
  rw [digitsValue, decimal, hread _ _ fun c hc =>
    Nat.isDigit_of_mem_toDigits (by decide) (by decide) hc]
  exact Nat.ofDigitChars_ten_toDigits

section Runs

variable {p : UInt8 → Bool} {d x : Text}

theorem takeWhile_run (hd : ∀ c ∈ d, p c = true) (hx : ∀ c ∈ x.head?, p c = false) :
    (d ++ x).takeWhile p = d ∧ (d ++ x).dropWhile p = x := by
  rw [List.takeWhile_append_of_pos hd, List.dropWhile_append_of_pos hd]
  cases x with
  | nil => exact ⟨by rw [List.takeWhile_nil, List.append_nil], rfl⟩
  | cons c x =>
    have hc : ¬ p c = true := by
      rw [hx c rfl]
      decide
    rw [List.takeWhile_cons_of_neg hc, List.dropWhile_cons_of_neg hc, List.append_nil]
    exact ⟨rfl, rfl⟩

theorem trim_eq (h : ∀ c ∈ d, isBlank c = false) : trim d = d := by
  have hdrop : ∀ t : Text, (∀ c ∈ t, isBlank c = false) → t.dropWhile isBlank = t := by
    intro t ht
    cases t with
    | nil => rfl
    | cons c t =>
      exact List.dropWhile_cons_of_neg (by rw [ht c List.mem_cons_self]; decide)
  rw [trim, hdrop d h, hdrop d.reverse fun c hc => h c (List.mem_reverse.mp hc),
    List.reverse_reverse]

end Runs

/-- Digits after a sign, and what may follow them in a numeral. -/
structure Numeral (text : Text) : Prop where
  chars : ∀ c ∈ text, isNumeral c = true
  head : ∃ c rest, text = c :: rest ∧ isDigit c = true

theorem Numeral.of_decimal (n : Nat) : Numeral (decimal n) := by
  refine ⟨fun c hc => (isDigit_plain c (decimal_digits n c hc)).1, ?_⟩
  cases h : decimal n with
  | nil => exact absurd h (decimal_ne_nil n)
  | cons c rest =>
    have hmem : c ∈ decimal n := by
      rw [h]
      exact List.mem_cons_self
    exact ⟨c, rest, rfl, decimal_digits n c hmem⟩

theorem scanSign_sign (minus : Bool) {text : Text} (h : Numeral text) :
    scanSign (sign minus ++ text) = (minus, text) := by
  obtain ⟨c, rest, rfl, hc⟩ := h.head
  obtain ⟨-, -, -, hminus, hplus, -⟩ := isDigit_plain c hc
  cases minus with
  | true => rfl
  | false => simp [sign, scanSign, hminus, hplus]

theorem tonumber_numeral (minus : Bool) {text : Text} (h : Numeral text) :
    tonumber (sign minus ++ text) = decimalNumeral minus text := by
  have hblank : ∀ c ∈ sign minus ++ text, isBlank c = false := by
    intro c hc
    rcases List.mem_append.mp hc with hc | hc
    · unfold sign at hc
      split at hc
      · cases List.mem_singleton.mp hc
        decide
      · cases hc
    · exact (isNumeral_plain c (h.chars c hc)).1
  unfold tonumber
  rw [trim_eq hblank, scanSign_sign minus h]
  obtain ⟨c, rest, rfl, -⟩ := h.head
  cases rest with
  | nil => rfl
  | cons mark rest =>
    have hmark := (isNumeral_plain mark (h.chars mark (by simp))).2
    simp [hmark]

theorem tonumber_integer (minus : Bool) (n : Nat)
    (h : (n : Int) ≤ maxInteger + (if minus then 1 else 0)) :
    tonumber (sign minus ++ decimal n) = some (.integer (if minus then -n else n)) := by
  obtain ⟨htake, hdrop⟩ := takeWhile_run (x := []) (decimal_digits n) (by simp)
  rw [List.append_nil] at htake hdrop
  rw [tonumber_numeral minus (.of_decimal n), decimalNumeral]
  simp only [htake, hdrop, if_true, if_neg (decimal_ne_nil n), digitsValue_decimal]
  exact if_pos h

namespace Printed

/-- Digits in each part, and a part that integers lack. -/
structure Ok (p : Printed) : Prop where
  int : p.int ≠ [] ∧ ∀ c ∈ p.int, isDigit c = true
  frac : ∀ c ∈ p.frac, isDigit c = true
  exp : ∀ minus digits, p.exp = some (minus, digits) →
    digits ≠ [] ∧ ∀ c ∈ digits, isDigit c = true
  float : p.frac ≠ [] ∨ p.exp ≠ none

def expValue : Option (Bool × Text) → Int
  | none => 0
  | some (minus, digits) => if minus then -digitsValue digits else digitsValue digits

def value (p : Printed) : Float :=
  ofDecimal (digitsValue (p.int ++ p.frac)) (expValue p.exp - p.frac.length)

variable {p : Printed}

theorem fracText_chars (h : ∀ c ∈ p.frac, isDigit c = true) :
    ∀ c ∈ fracText p.frac, isNumeral c = true := by
  intro c hc
  rw [fracText] at hc
  split at hc
  · cases hc
  · rcases List.mem_cons.mp hc with rfl | hc
    · decide
    · exact (isDigit_plain c (h c hc)).1

theorem expText_chars (h : ∀ minus digits, p.exp = some (minus, digits) →
    digits ≠ [] ∧ ∀ c ∈ digits, isDigit c = true) : ∀ c ∈ expText p.exp, isNumeral c = true := by
  intro c hc
  cases he : p.exp with
  | none =>
    rw [he] at hc
    cases hc
  | some e =>
    obtain ⟨minus, digits⟩ := e
    rw [he] at hc
    rcases List.mem_cons.mp hc with rfl | hc
    · decide
    rcases List.mem_cons.mp hc with rfl | hc
    · cases minus <;> decide
    · exact (isDigit_plain c ((h minus digits he).2 c hc)).1

theorem Ok.numeral (h : p.Ok) : Numeral p.text := by
  refine ⟨fun c hc => ?_, ?_⟩
  · rcases List.mem_append.mp hc with hc | hc
    · rcases List.mem_append.mp hc with hc | hc
      · exact (isDigit_plain c (h.int.2 c hc)).1
      · exact fracText_chars h.frac c hc
    · exact expText_chars h.exp c hc
  · cases hi : p.int with
    | nil => exact absurd hi h.int.1
    | cons c rest =>
      refine ⟨c, rest ++ fracText p.frac ++ expText p.exp, ?_, h.int.2 c (hi ▸ List.mem_cons_self)⟩
      rw [text, hi, List.cons_append, List.cons_append]

theorem scanExp_expText (h : p.Ok) : scanExp 'e' 'E' (expText p.exp) = some (expValue p.exp) := by
  cases he : p.exp with
  | none => rfl
  | some e =>
    obtain ⟨minus, digits⟩ := e
    obtain ⟨hne, hdigits⟩ := h.exp minus digits he
    have hall : digits.all isDigit = true := List.all_eq_true.mpr hdigits
    cases minus with
    | true => simp [expText, scanExp, scanSign, hne, hall, expValue]
    | false =>
      have hsign : scanSign (byte '+' :: digits) = (false, digits) := rfl
      simp [expText, scanExp, hsign, hne, hall, expValue]

theorem expText_head (exp : Option (Bool × Text)) :
    ∀ c ∈ (expText exp).head?, isDigit c = false ∧ c ≠ byte '.' := by
  intro c hc
  cases exp with
  | none => cases hc
  | some e =>
    cases hc
    decide

theorem scanFrac_text (h : p.Ok) :
    scanFrac isDigit (fracText p.frac ++ expText p.exp) = (p.frac, expText p.exp) := by
  have hhead := expText_head p.exp
  rw [fracText]
  split
  · next hfrac =>
    rw [hfrac, List.nil_append]
    cases ht : expText p.exp with
    | nil => rfl
    | cons c rest =>
      rw [ht] at hhead
      rw [scanFrac, if_neg (hhead c rfl).2]
  · obtain ⟨htake, hdrop⟩ := takeWhile_run h.frac fun c hc => (hhead c hc).1
    rw [List.cons_append, scanFrac, if_pos rfl, htake, hdrop]

theorem Ok.tail_ne_nil (h : p.Ok) : fracText p.frac ++ expText p.exp ≠ [] := by
  intro hnil
  obtain ⟨hf, he⟩ := List.append_eq_nil_iff.mp hnil
  rcases h.float with hfrac | hexp
  · rw [fracText, if_neg hfrac] at hf
    cases hf
  · cases hx : p.exp with
    | none => exact hexp hx
    | some e =>
      rw [hx] at he
      cases he

theorem tail_head (p : Printed) :
    ∀ c ∈ (fracText p.frac ++ expText p.exp).head?, isDigit c = false := by
  intro c hc
  rw [fracText] at hc
  split at hc
  · exact (expText_head p.exp c hc).1
  · cases hc
    decide

/-- A printed float is read as the float nearest to it. -/
theorem Ok.tonumber (h : p.Ok) (minus : Bool) :
    tonumber (sign minus ++ p.text) = some (.float (signed minus p.value)) := by
  obtain ⟨htake, hdrop⟩ := takeWhile_run h.int.2 (tail_head p)
  have htext : p.text = p.int ++ (fracText p.frac ++ expText p.exp) := by
    rw [text, List.append_assoc]
  have hdigits : p.int ++ p.frac ≠ [] := by simp [h.int.1]
  rw [tonumber_numeral minus h.numeral, decimalNumeral, htext]
  simp only [htake, hdrop, if_neg h.tail_ne_nil, scanFrac_text h, if_neg hdigits,
    scanExp_expText h, Option.map_some]
  rfl

end Printed

end Config
end Skyext
