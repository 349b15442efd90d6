import Mathlib.Algebra.Ring.Nat
import Mathlib.Data.List.Basic

namespace Skyext
set_option autoImplicit true

namespace Sdk

/-- A string of the language, as its UTF-16 code units. -/
abbrev Text := List UInt16

namespace Json

def unit (c : Char) : UInt16 := UInt16.ofNat c.toNat

def quotationMark : UInt16 := 34

def reverseSolidus : UInt16 := 92

def sentinel : UInt16 := 0xE000

def isDigit (c : UInt16) : Bool := unit '0' ≤ c && c ≤ unit '9'

def isLetter (c : UInt16) : Bool := unit 'a' ≤ c && c ≤ unit 'z'

def isBlank (c : UInt16) : Bool := c = 32 || c = 9 || c = 10 || c = 13

/-- A number as far as it can be scanned, by its parts. -/
structure Number where
  minus : Bool
  int : Text
  frac : Text
  exp : Text
  deriving DecidableEq

namespace Number

def text (n : Number) : Text :=
  (if n.minus then [unit '-'] else []) ++ n.int ++ n.frac ++ n.exp

def isFloat (n : Number) : Bool := n.frac ≠ [] || n.exp ≠ []

def valid (n : Number) : Bool :=
  n.int ≠ [] && n.int.all isDigit && (n.int.head? ≠ some (unit '0') || n.int.length = 1) &&
    (n.frac = [] || 2 ≤ n.frac.length) && (n.exp = [] || n.exp.getLast?.any isDigit)

end Number

def digitsValue (digits : Text) : Nat :=
  digits.foldl (fun v c => v * 10 + (c.toNat - (unit '0').toNat)) 0

def intValue (minus : Bool) (digits : Text) : Int :=
  if minus then -digitsValue digits else digitsValue digits

/-- `Number.isSafeInteger(Number(token))` of a token that is no float. No integer gets past 2^53 by
rounding; a token without digits is no number. -/
def isSafeInteger (n : Number) : Bool :=
  n.int ≠ [] && (intValue n.minus n.int).natAbs < 2 ^ 53

def scanMinus (text : Text) : Bool × Text :=
  match text with
  | c :: rest => if c = unit '-' then (true, rest) else (false, text)
  | [] => (false, [])

def scanDigits (text : Text) : Text × Text := (text.takeWhile isDigit, text.dropWhile isDigit)

def scanFrac (text : Text) : Text × Text :=
  match text with
  | c :: rest =>
    if c = unit '.' then
      let (digits, rest) := scanDigits rest
      (c :: digits, rest)
    else ([], text)
  | [] => ([], [])

def scanSign (text : Text) : Text × Text :=
  match text with
  | c :: rest => if c = unit '+' ∨ c = unit '-' then ([c], rest) else ([], text)
  | [] => ([], [])

def scanExp (text : Text) : Text × Text :=
  match text with
  | c :: rest =>
    if c = unit 'e' ∨ c = unit 'E' then
      let (sign, rest) := scanSign rest
      let (digits, rest) := scanDigits rest
      (c :: sign ++ digits, rest)
    else ([], text)
  | [] => ([], [])

def scanNumber (text : Text) : Number × Text :=
  let (minus, text) := scanMinus text
  let (int, text) := scanDigits text
  let (frac, text) := scanFrac text
  let (exp, text) := scanExp text
  (⟨minus, int, frac, exp⟩, text)

def copyString : Text → Text × Text
  | [] => ([], [])
  | c :: rest =>
    if c = reverseSolidus then
      match rest with
      | [] => ([c], [])
      | d :: rest =>
        let (copied, rest) := copyString rest
        (c :: d :: copied, rest)
    else if c = quotationMark then ([c], rest)
    else
      let (copied, rest) := copyString rest
      (c :: copied, rest)

def quoteUnsafe (n : Number) : Text :=
  if !n.isFloat && !isSafeInteger n then
    [quotationMark, sentinel] ++ n.text ++ [sentinel, quotationMark]
  else n.text

/-- `quoteUnsafeIntegers` for a number of rounds of its loop. -/
def quoteFrom : Nat → Text → Text
  | 0, _ => []
  | _ + 1, [] => []
  | k + 1, c :: rest =>
    if c = quotationMark then
      let (copied, rest) := copyString rest
      c :: copied ++ quoteFrom k rest
    else if c = unit '-' ∨ isDigit c then
      let (n, rest) := scanNumber (c :: rest)
      quoteUnsafe n ++ quoteFrom k rest
    else c :: quoteFrom k rest

def quoteUnsafeIntegers (text : Text) : Text := quoteFrom text.length text

/-- The tokens of JSON: a number as far as it can be scanned, a string by what is between its
quotation marks. -/
inductive Token
  | mark (c : UInt16)
  | word (letters : Text)
  | number (n : Number)
  | string (raw : Text)
  deriving DecidableEq

def isMark (c : UInt16) : Bool :=
  c = unit '[' || c = unit ']' || c = unit '{' || c = unit '}' || c = unit ',' || c = unit ':'

def stringLiteral : Text → Option (Text × Text)
  | [] => none
  | c :: rest =>
    if c = reverseSolidus then
      match rest with
      | [] => none
      | d :: rest => (stringLiteral rest).map fun (raw, rest) => (c :: d :: raw, rest)
    else if c = quotationMark then some ([], rest)
    else (stringLiteral rest).map fun (raw, rest) => (c :: raw, rest)

def lexFrom : Nat → Text → Option (List Token)
  | _, [] => some []
  | 0, _ :: _ => none
  | k + 1, c :: rest =>
    if isBlank c then lexFrom k rest
    else if c = quotationMark then
      (stringLiteral rest).bind fun (raw, rest) => (lexFrom k rest).map (.string raw :: ·)
    else if c = unit '-' ∨ isDigit c then
      let (n, rest) := scanNumber (c :: rest)
      (lexFrom k rest).map (.number n :: ·)
    else if isLetter c then
      (lexFrom k (rest.dropWhile isLetter)).map (.word (c :: rest.takeWhile isLetter) :: ·)
    else if isMark c then (lexFrom k rest).map (.mark c :: ·)
    else none

def lex (text : Text) : Option (List Token) := lexFrom text.length text

end Json

/-- A value of JSON with its scalars; the members of an object in the order of their first
occurrence. -/
inductive Json (α : Type)
  | scalar (a : α)
  | array (items : List (Json α))
  | object (members : List (Text × Json α))

namespace Json

def setMember (members : List (Text × Json α)) (k : Text) (v : Json α) : List (Text × Json α) :=
  if k ∈ members.map Prod.fst then members.map fun m => if m.1 = k then (k, v) else m
  else members ++ [(k, v)]

/-- A container that waits for the value of its next item or member. -/
inductive Frame (α : Type)
  | array (items : List (Json α))
  | object (members : List (Text × Json α)) (k : Text)

/-- What may come next, within the containers around it. -/
inductive State (α : Type)
  | value (stack : List (Frame α))
  | firstItem (stack : List (Frame α))
  | afterItem (items : List (Json α)) (stack : List (Frame α))
  | firstName (stack : List (Frame α))
  | name (members : List (Text × Json α)) (stack : List (Frame α))
  | colon (members : List (Text × Json α)) (k : Text) (stack : List (Frame α))
  | afterMember (members : List (Text × Json α)) (stack : List (Frame α))
  | done (v : Json α)

def complete (v : Json α) : List (Frame α) → State α
  | [] => .done v
  | .array items :: stack => .afterItem (items ++ [v]) stack
  | .object members k :: stack => .afterMember (setMember members k v) stack

section Grammar

variable (leaf : Token → Option α) (key : Token → Option Text)

def begin (stack : List (Frame α)) (t : Token) : Option (State α) :=
  match t with
  | .mark c =>
    if c = unit '[' then some (.firstItem stack)
    else if c = unit '{' then some (.firstName stack)
    else none
  | t => (leaf t).map fun a => complete (.scalar a) stack

def next : State α → Token → Option (State α)
  | .value stack, t => begin leaf stack t
  | .firstItem stack, t =>
    if t = .mark (unit ']') then some (complete (.array []) stack)
    else begin leaf (.array [] :: stack) t
  | .afterItem items stack, t =>
    if t = .mark (unit ',') then some (.value (.array items :: stack))
    else if t = .mark (unit ']') then some (complete (.array items) stack)
    else none
  | .firstName stack, t =>
    if t = .mark (unit '}') then some (complete (.object []) stack)
    else (key t).map fun k => .colon [] k stack
  | .name members stack, t => (key t).map fun k => .colon members k stack
  | .colon members k stack, t =>
    if t = .mark (unit ':') then some (.value (.object members k :: stack)) else none
  | .afterMember members stack, t =>
    if t = .mark (unit ',') then some (.name members stack)
    else if t = .mark (unit '}') then some (complete (.object members) stack)
    else none
  | .done _, _ => none

def State.result : State α → Option (Json α)
  | .done v => some v
  | _ => none

def parseTokens (ts : List Token) : Option (Json α) :=
  (ts.foldlM (next leaf key) (.value [])).bind State.result

end Grammar

/-- A scalar; a number by its literal, which says what double it is. -/
inductive Scalar
  | null
  | bool (b : Bool)
  | number (literal : Number)
  | string (s : Text)
  | bigint (v : Int)
  deriving DecidableEq

def hexValue (c : UInt16) : Option Nat :=
  if isDigit c then some (c.toNat - (unit '0').toNat)
  else if unit 'a' ≤ c ∧ c ≤ unit 'f' then some (c.toNat - (unit 'a').toNat + 10)
  else if unit 'A' ≤ c ∧ c ≤ unit 'F' then some (c.toNat - (unit 'A').toNat + 10)
  else none

def unescape (c : UInt16) : Option UInt16 :=
  if c = quotationMark ∨ c = reverseSolidus ∨ c = unit '/' then some c
  else if c = unit 'b' then some 8
  else if c = unit 'f' then some 12
  else if c = unit 'n' then some 10
  else if c = unit 'r' then some 13
  else if c = unit 't' then some 9
  else none

def decodeString : Text → Option Text
  | [] => some []
  | c :: rest =>
    if c = reverseSolidus then
      match rest with
      | [] => none
      | d :: rest =>
        if d = unit 'u' then
          match rest with
          | x₁ :: x₂ :: x₃ :: x₄ :: rest => do
            let h₁ ← hexValue x₁
            let h₂ ← hexValue x₂
            let h₃ ← hexValue x₃
            let h₄ ← hexValue x₄
            let s ← decodeString rest
            some (UInt16.ofNat (((h₁ * 16 + h₂) * 16 + h₃) * 16 + h₄) :: s)
          | _ => none
        else do
          let e ← unescape d
          let s ← decodeString rest
          some (e :: s)
    else if c < 32 then none
    else (decodeString rest).map (c :: ·)

def word (w : String) : Text := w.toList.map unit

def leafValue : Token → Option Scalar
  | .number n => if n.valid then some (.number n) else none
  | .string raw => (decodeString raw).map .string
  | .word w =>
    if w = word "null" then some .null
    else if w = word "true" then some (.bool true)
    else if w = word "false" then some (.bool false)
    else none
  | .mark _ => none

def nameOf : Token → Option Text
  | .string raw => decodeString raw
  | _ => none

/-- `JSON.parse` without a reviver; `none` where it throws. -/
def parse (text : Text) : Option (Json Scalar) := (lex text).bind (parseTokens leafValue nameOf)

mutual

def map (h : α → β) : Json α → Json β
  | .scalar a => .scalar (h a)
  | .array items => .array (mapItems h items)
  | .object members => .object (mapMembers h members)

def mapItems (h : α → β) : List (Json α) → List (Json β)
  | [] => []
  | v :: items => map h v :: mapItems h items

def mapMembers (h : α → β) : List (Text × Json α) → List (Text × Json β)
  | [] => []
  | (k, v) :: members => (k, map h v) :: mapMembers h members

end

mutual

def scalars : Json α → List α
  | .scalar a => [a]
  | .array items => itemScalars items
  | .object members => memberScalars members

def itemScalars : List (Json α) → List α
  | [] => []
  | v :: items => scalars v ++ itemScalars items

def memberScalars : List (Text × Json α) → List α
  | [] => []
  | (_, v) :: members => scalars v ++ memberScalars members

end

/-- The number between the sentinels, where `SENTINEL_RE` matches. -/
def sentinelInt (s : Text) : Option Int :=
  match s with
  | c :: rest =>
    if c = sentinel ∧ rest.getLast? = some sentinel then
      let (minus, digits) := scanMinus rest.dropLast
      if digits ≠ [] ∧ digits.all isDigit then some (intValue minus digits) else none
    else none
  | [] => none

/-- What the reviver of `parseJson` does to a scalar; it leaves arrays and objects as they are. -/
def revive : Scalar → Scalar
  | .string s =>
    match sentinelInt s with
    | some v => .bigint v
    | none => .string s
  | a => a

def parseJson (text : Text) : Option (Json Scalar) :=
  (parse (quoteUnsafeIntegers text)).map (map revive)

/-- An integer literal outside the safe range is the bigint with its value. -/
def exact : Scalar → Scalar
  | .number n =>
    if !n.isFloat && !isSafeInteger n then .bigint (intValue n.minus n.int) else .number n
  | a => a

/-- `parseJson` throws where `JSON.parse` does, and else gives its value with exact integers. -/
def Exact (text : Text) : Prop := parseJson text = (parse text).map (map exact)

/-- No string in the value looks like a quoted integer. -/
def Unmarked (v : Json Scalar) : Prop := ∀ s, .string s ∈ scalars v → sentinelInt s = none

/-- An unsafe integer as a string, also where it is a lone minus or has leading zeros. -/
def Token.quote : Token → Token
  | .number n =>
    if !n.isFloat && !isSafeInteger n then .string (sentinel :: n.text ++ [sentinel]) else .number n
  | t => t

/-- The text is JSON if unsafe integers stand for strings. -/
def Lenient (text : Text) : Prop :=
  ∃ ts, lex text = some ts ∧ (parseTokens leafValue nameOf (ts.map Token.quote)).isSome

end Json
end Sdk
end Skyext
