import Mathlib.Data.List.Basic
import Skyext.Config.Numeral

namespace Skyext
set_option autoImplicit true

namespace Config

open LuaNumber (floatToInteger isNaN)

def quotationMark : UInt8 := 34

def reverseSolidus : UInt8 := 92

def newline : UInt8 := 10

def isControl (c : UInt8) : Bool := c < 32 || c = 127

def threeDigits (n : Nat) : Text :=
  [n / 100, n / 10 % 10, n % 10].map fun d => UInt8.ofNat (d + (byte '0').toNat)

/-- What `%q` makes of a string between the quotation marks. -/
def escape : Text → Text
  | [] => []
  | c :: rest =>
    (if c = quotationMark ∨ c = reverseSolidus ∨ c = newline then [reverseSolidus, c]
      else if isControl c then
        reverseSolidus ::
          if rest.head?.any isDigit then threeDigits c.toNat else decimal c.toNat
      else [c]) ++ escape rest

def quote (s : Text) : Text := quotationMark :: escape s ++ [quotationMark]

/-- A value that configurations hold; a table by its entries, in the order of `pairs`. -/
inductive Value
  | scalar (a : Scalar)
  | table (entries : List (Scalar × Value))

def serializeScalar : Scalar → Text
  | .string s => quote s
  | a => tostring a

mutual

def serialize : Value → Text
  | .scalar a => serializeScalar a
  | .table entries => byte '{' :: (serializeEntries entries ++ [byte '}'])

def serializeEntries : List (Scalar × Value) → Text
  | [] => []
  | (k, v) :: entries =>
    byte '[' :: (serializeScalar k ++ byte ']' :: byte '=' ::
      (serialize v ++ byte ',' :: serializeEntries entries))

end

/-- `t[k] = v` with a key as tables keep it. -/
def setEntry (entries : List (Scalar × Value)) (k : Scalar) (v : Value) : List (Scalar × Value) :=
  if k ∈ entries.map Prod.fst then entries.map fun e => if e.1 = k then (k, v) else e
  else entries ++ [(k, v)]

/-- A key as tables keep it; `none` for a NaN. -/
def tableKey : Scalar → Option Scalar
  | .float f =>
    if isNaN f then none
    else match floatToInteger f with
      | some i => some (.integer i)
      | none => some (.float f)
  | k => some k

/-- The characters that the lexer takes for a numeral, and the text after them. A sign belongs to it
only after the mark of an exponent. -/
def readNumeral (expo : UInt8 → Bool) (marked : Bool) : Text → Text × Text
  | [] => ([], [])
  | c :: rest =>
    if marked ∧ (c = byte '-' ∨ c = byte '+') then
      let (taken, rest) := readNumeral expo false rest
      (c :: taken, rest)
    else if expo c then
      let (taken, rest) := readNumeral expo true rest
      (c :: taken, rest)
    else if isHexDigit c ∨ c = byte '.' then
      let (taken, rest) := readNumeral expo false rest
      (c :: taken, rest)
    else ([], c :: rest)

def isExp (c : UInt8) : Bool := c = byte 'e' || c = byte 'E'

def isBinaryExp (c : UInt8) : Bool := c = byte 'p' || c = byte 'P'

def lexNumeral (text : Text) : Text × Text :=
  match text with
  | zero :: mark :: rest =>
    if zero = byte '0' ∧ isHexMark mark then
      let (taken, rest) := readNumeral isBinaryExp false rest
      (zero :: mark :: taken, rest)
    else readNumeral isExp false text
  | _ => readNumeral isExp false text

def isNameStart (c : UInt8) : Bool := isLetter c || c = byte '_'

def numeral (text : Text) : Option (Scalar × Text) :=
  let (taken, rest) := lexNumeral text
  if rest.head?.any isNameStart then none else (tonumber taken).map (·, rest)

/-- An escape after its reverse solidus, of those that `%q` writes. -/
def readEscape : Text → Option (UInt8 × Text)
  | [] => none
  | c :: rest =>
    if c = quotationMark ∨ c = reverseSolidus then some (c, rest)
    else if c = newline then if rest.head? = some 13 then none else some (c, rest)
    else if isDigit c then
      let digits := ((c :: rest).take 3).takeWhile isDigit
      if digitsValue digits ≤ 255 then
        some (UInt8.ofNat (digitsValue digits), (c :: rest).drop digits.length)
      else none
    else none

def readString : Nat → Text → Option (Text × Text)
  | 0, _ => none
  | _, [] => none
  | k + 1, c :: rest =>
    if c = quotationMark then some ([], rest)
    else if c = newline ∨ c = 13 then none
    else if c = reverseSolidus then
      (readEscape rest).bind fun (d, rest) =>
        (readString k rest).map fun (s, rest) => (d :: s, rest)
    else (readString k rest).map fun (s, rest) => (c :: s, rest)

def keyword (text : Text) : Option (Scalar × Text) :=
  let name := text.takeWhile fun c => isNameStart c || isDigit c
  let rest := text.drop name.length
  if name = word "true" then some (.boolean true, rest)
  else if name = word "false" then some (.boolean false, rest)
  else none

def negate : Value → Option Value
  | .scalar (.integer i) => some (.scalar (.integer (Int.bmod (-i) (2 ^ 64))))
  | .scalar (.float f) => some (.scalar (.float (-f)))
  | _ => none

def after (start text : Text) : Option Text :=
  if start.isPrefixOf text then some (text.drop start.length) else none

def readFields (exp : Text → Option (Value × Text)) :
    Nat → List (Scalar × Value) → Text → Option (List (Scalar × Value) × Text)
  | 0, _, _ => none
  | _, _, [] => none
  | n + 1, entries, c :: rest =>
    if c = byte '}' then some (entries, rest)
    else if c = byte '[' then do
      let (k, rest) ← exp rest
      let rest ← after (word "]=") rest
      let (v, rest) ← exp rest
      let rest ← after (word ",") rest
      match k with
      | .scalar k =>
        let k ← tableKey k
        readFields exp n (setEntry entries k v) rest
      | .table _ => none
    else none

/-- An expression at a depth the parser accepts: a constant or a table constructor. -/
def readExp : Nat → Text → Option (Value × Text)
  | 0, _ => none
  | _, [] => none
  | depth + 1, c :: rest =>
    if c = byte '{' then
      (readFields (readExp depth) rest.length [] rest).map fun (es, rest) => (.table es, rest)
    else if c = quotationMark then
      (readString rest.length rest).map fun (s, rest) => (.scalar (.string s), rest)
    else if c = byte '-' then
      if rest.head? = some (byte '-') then none
      else (readExp depth rest).bind fun (v, rest) => (negate v).map (·, rest)
    else if isDigit c then (numeral (c :: rest)).map fun (a, rest) => (.scalar a, rest)
    else (keyword (c :: rest)).map fun (a, rest) => (.scalar a, rest)

end Config
end Skyext
