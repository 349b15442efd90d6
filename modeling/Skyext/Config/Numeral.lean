import Mathlib.Algebra.Ring.Int.Defs
import Mathlib.Algebra.Ring.Nat
import Mathlib.Data.Nat.Log
import Skyext.Lib.LuaNumber

namespace Skyext
set_option autoImplicit true

namespace Config

open LuaNumber (minInteger maxInteger)

/-- A string of Lua, as its bytes. -/
abbrev Text := List UInt8

def byte (c : Char) : UInt8 := UInt8.ofNat c.toNat

def word (s : String) : Text := s.toList.map byte

def isDigit (c : UInt8) : Bool := byte '0' ≤ c && c ≤ byte '9'

def isLetter (c : UInt8) : Bool :=
  (byte 'a' ≤ c && c ≤ byte 'z') || (byte 'A' ≤ c && c ≤ byte 'Z')

def isHexDigit (c : UInt8) : Bool :=
  isDigit c || (byte 'a' ≤ c && c ≤ byte 'f') || (byte 'A' ≤ c && c ≤ byte 'F')

def isBlank (c : UInt8) : Bool := c = 32 || (9 ≤ c && c ≤ 13)

def decimal (n : Nat) : Text := (Nat.toDigits 10 n).map byte

def digitsValue (digits : Text) : Nat :=
  digits.foldl (fun v c => v * 10 + (c.toNat - (byte '0').toNat)) 0

/-- A value of Lua other than a table. -/
inductive Scalar
  | string (s : Text)
  | boolean (b : Bool)
  | integer (i : Int)
  | float (f : Float)
  deriving DecidableEq

structure Printed where
  int : Text
  frac : Text
  exp : Option (Bool × Text)

namespace Printed

def fracText (frac : Text) : Text := if frac = [] then [] else byte '.' :: frac

def expText : Option (Bool × Text) → Text
  | none => []
  | some (minus, digits) => byte 'e' :: byte (if minus then '-' else '+') :: digits

def text (p : Printed) : Text := p.int ++ fracText p.frac ++ expText p.exp

end Printed

/-- The quotient, rounded to the nearest, of two equally near to the even one. -/
def roundHalfEven (n d : Nat) : Nat :=
  let q := n / d
  if 2 * (n % d) < d then q else if d < 2 * (n % d) then q + 1 else q + q % 2

/-- The power of ten of the first digit of a positive fraction. -/
def leading (n d : Nat) : Int :=
  if d ≤ n then Nat.log 10 (n / d) else -(Nat.clog 10 ((n + d - 1) / n) : Nat)

/-- A positive fraction by its first 14 digits, and the power of ten of the first one. -/
def significant (n d : Nat) : Nat × Int :=
  let x := leading n d
  let q := roundHalfEven (n * 10 ^ (13 - x).toNat) (d * 10 ^ (x - 13).toNat)
  if q = 10 ^ 14 then (10 ^ 13, x + 1) else (q, x)

def stripZeros (digits : Text) : Text := (digits.reverse.dropWhile (· = byte '0')).reverse

def twoDigits (n : Nat) : Text := if n < 10 then byte '0' :: decimal n else decimal n

def general (n d : Nat) : Printed :=
  let (q, x) := significant n d
  let digits := decimal q
  if -4 ≤ x ∧ x < 14 then
    if 0 ≤ x then ⟨digits.take (x + 1).toNat, stripZeros (digits.drop (x + 1).toNat), none⟩
    else ⟨[byte '0'], List.replicate (-x - 1).toNat (byte '0') ++ stripZeros digits, none⟩
  else ⟨digits.take 1, stripZeros (digits.drop 1), some (decide (x < 0), twoDigits x.natAbs)⟩

/-- `.0` after what looks like an integer. -/
def looksFloat (p : Printed) : Printed :=
  if p.frac = [] ∧ p.exp = none then { p with frac := [byte '0'] } else p

def sign (negative : Bool) : Text := if negative then [byte '-'] else []

def isNegative (s : Float.Model.UnpackedFloat.Sign) : Bool :=
  match s with
  | .negative => true
  | .positive => false

def floatText (f : Float) : Text :=
  match f.toModel.unpack with
  | .infinity s => sign (isNegative s) ++ word "inf"
  | .notANumber => word "-nan"
  | .zero s => sign (isNegative s) ++ word "0.0"
  | .finite s m e _ =>
    sign (isNegative s) ++ (looksFloat (general (m * 2 ^ e.toNat) (2 ^ (-e).toNat))).text

def integerText (i : Int) : Text := sign (i < 0) ++ decimal i.natAbs

def tostring : Scalar → Text
  | .string s => s
  | .boolean b => word (if b then "true" else "false")
  | .integer i => integerText i
  | .float f => floatText f

def trim (text : Text) : Text :=
  ((text.dropWhile isBlank).reverse.dropWhile isBlank).reverse

def scanSign : Text → Bool × Text
  | [] => (false, [])
  | c :: rest =>
    if c = byte '-' then (true, rest)
    else if c = byte '+' then (false, rest)
    else (false, c :: rest)

/-- The digits after a point; `none` without a point. -/
def scanFrac (digit : UInt8 → Bool) : Text → Text × Text
  | [] => ([], [])
  | c :: rest =>
    if c = byte '.' then (rest.takeWhile digit, rest.dropWhile digit) else ([], c :: rest)

/-- The exponent that ends a numeral, with the mark in lower or upper case. -/
def scanExp (lower upper : Char) : Text → Option Int
  | [] => some 0
  | c :: rest =>
    if c = byte lower ∨ c = byte upper then
      let (minus, digits) := scanSign rest
      if digits ≠ [] ∧ digits.all isDigit then
        some (if minus then -digitsValue digits else digitsValue digits)
      else none
    else none

def signed (minus : Bool) (f : Float) : Float := if minus then -f else f

def ofDecimal (m : Nat) (e : Int) : Float := Float.ofScientific m (e < 0) e.natAbs

def ofBinary (m : Nat) (e : Int) : Float :=
  .ofModel (.pack (.normalize Float.Model.Format.binary64 m e .positive))

def decimalNumeral (minus : Bool) (text : Text) : Option Scalar :=
  let int := text.takeWhile isDigit
  let rest := text.dropWhile isDigit
  if rest = [] then
    let n := digitsValue int
    if int = [] then none
    else if n ≤ maxInteger + (if minus then 1 else 0) then
      some (.integer (if minus then -n else n))
    else some (.float (signed minus (ofDecimal n 0)))
  else
    let (frac, rest) := scanFrac isDigit rest
    if int ++ frac = [] then none
    else (scanExp 'e' 'E' rest).map fun e =>
      .float (signed minus (ofDecimal (digitsValue (int ++ frac)) (e - frac.length)))

def hexDigitValue (c : UInt8) : Nat :=
  if isDigit c then c.toNat - (byte '0').toNat
  else if byte 'a' ≤ c then c.toNat - (byte 'a').toNat + 10
  else c.toNat - (byte 'A').toNat + 10

def hexValue (digits : Text) : Nat := digits.foldl (fun v c => v * 16 + hexDigitValue c) 0

/-- A numeral after `0x`; hexadecimal integers wrap around. -/
def hexNumeral (minus : Bool) (text : Text) : Option Scalar :=
  let int := text.takeWhile isHexDigit
  let rest := text.dropWhile isHexDigit
  if rest = [] then
    let n := hexValue int
    if int = [] then none else some (.integer (Int.bmod (if minus then -n else n) (2 ^ 64)))
  else
    let (frac, rest) := scanFrac isHexDigit rest
    if int ++ frac = [] then none
    else (scanExp 'p' 'P' rest).map fun e =>
      .float (signed minus (ofBinary (hexValue (int ++ frac)) (e - 4 * frac.length)))

def isHexMark (c : UInt8) : Bool := c = byte 'x' || c = byte 'X'

/-- `tonumber` of a string. -/
def tonumber (text : Text) : Option Scalar :=
  let (minus, text) := scanSign (trim text)
  match text with
  | zero :: mark :: hex =>
    if zero = byte '0' ∧ isHexMark mark then hexNumeral minus hex else decimalNumeral minus text
  | _ => decimalNumeral minus text

end Config
end Skyext
