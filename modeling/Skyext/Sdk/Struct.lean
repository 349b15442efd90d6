import Skyext.Sdk.IntegersTrip

namespace Skyext
set_option autoImplicit true

namespace Sdk

/-- What messages are built of. -/
inductive Value
  | null
  | integer (v : Integer)
  | boolean (b : Bool)
  | string (s : List UInt16)
  | array (xs : List Value)
  | object (ms : List (String × Value))

inductive FieldType
  | integer | boolean | string | struct
  deriving DecidableEq

/-- What `Object.prototype` has, and every object therefore answers to. -/
def prototypeNames : List String :=
  ["constructor", "hasOwnProperty", "isPrototypeOf", "propertyIsEnumerable", "toLocaleString",
    "toString", "valueOf", "__proto__", "__defineGetter__", "__defineSetter__",
    "__lookupGetter__", "__lookupSetter__"]

/-- A field as `importField` reads it; it takes its tag from a word of a header. Fields that hold
decimals are left out, and names that stand for something before anything is put there. -/
structure SprotoField where
  tag : Nat
  name : String
  type : FieldType
  array : Bool := false
  st : Option Nat := none
  extra : Nat := 0
  tag_le : tag ≤ 32766 := by decide
  named : name ≠ "" ∧ name ∉ prototypeNames := by decide
  whole : type = .integer → extra = 0 := by decide

/-- One word for each field, and one more where tags are left out before it: what `importType`
counts. -/
def slots (next : Nat) : List SprotoField → Nat
  | [] => 0
  | f :: fs => (if next < f.tag then 2 else 1) + slots (f.tag + 1) fs

/-- What `importType` makes of the fields it reads; there is a base where no tag is left out. The
compiler of a schema takes no name twice. -/
structure SprotoType where
  f : List SprotoField
  base : Option Nat
  maxn : Nat
  maxn_eq : maxn = slots 0 f
  sorted : f.Pairwise fun g g' => g.tag < g'.tag
  base_eq : ∀ b ∈ base, f.map SprotoField.tag = List.range' b f.length
  distinct : (f.map SprotoField.name).Nodup

/-- The types of a schema. -/
abbrev SprotoInstance := List SprotoType

def SprotoInstance.subtype (sp : SprotoInstance) (f : SprotoField) : Option SprotoType :=
  f.st.bind fun i => sp[i]?

namespace Value

def isNull : Value → Bool
  | null => true
  | _ => false

/-- Nothing, or an object of its own members; what else has members has others too. -/
def isPlain : Value → Bool
  | null | object _ => true
  | _ => false

/-- `indata[tagname]`, where that is something. -/
def member (indata : Value) (tagname : String) : Option Value :=
  match indata with
  | object ms => (ms.lookup tagname).filter fun v => !v.isNull
  | _ => none

/-- The items that `encode` answers before there is none. -/
def items : Value → List Value
  | array xs => xs.takeWhile fun v => !v.isNull
  | object ms =>
    ((List.range ms.length).map fun i => (ms.lookup (toString i)).getD null).takeWhile
      fun v => !v.isNull
  | _ => []

/-- The integers; what else JavaScript would make a number of has no answer. -/
def integer? : Value → Option Integer
  | integer v => some v
  | _ => none

def booleanCode : Value → Nat
  | boolean true => 1
  | _ => 0

def byte? : Value → Option UInt8
  | integer (.number v) => if 0 ≤ v ∧ v < 256 then some (UInt8.ofInt v) else none
  | _ => none

/-- `utils.string2bytes`, or the bytes themselves where the field is a binary one. -/
def stringBytes (extra : Nat) : Value → Option Bytes
  | string s => if extra = 0 then some (s.map UInt16.toUInt8) else none
  | array xs => if extra = 0 then none else xs.mapM byte?
  | _ => none

end Value

def Buffer.putWord (data : Buffer) (i v : Nat) : Buffer :=
  (data.put i (some (UInt8.ofNat v))).put (i + 1) (some (UInt8.ofNat (v >>> 8)))

def Buffer.slice (b : Buffer) (start stop : Nat) : List (Option UInt8) :=
  (List.range (min stop b.length - start)).map fun k => b.get (start + k)

/-- `splice` from a place on, which takes all that is left. -/
def Buffer.truncate (b : Buffer) (n : Nat) : Buffer :=
  ⟨min b.length n, fun i => if i < n then b.get i else none⟩

def encodeInteger (v : Nat) (data : Buffer) (dataIdx : Nat) : Nat × Buffer :=
  fillSize (data.putDword (dataIdx + 4) v) dataIdx 4

def encodeUint64 (v : Integer) (data : Buffer) (dataIdx : Nat) : Nat × Buffer :=
  fillSize (data.putUint64 (dataIdx + 4) v.uint64) dataIdx 8

/-- `sprotoEncode` for what is one level deeper: how much it wrote, and where. There is no answer
where it fails or throws. -/
abbrev SubEncode := SprotoType → Value → Buffer → Nat → Option (Nat × Buffer)

/-- What there is to record of a field: its word in the header, and how many bytes it has. -/
structure FieldCode where
  value : Nat := 0
  sz : Nat := 0
  buffer : Buffer

namespace SprotoInstance

variable (sp : SprotoInstance) (sub : SubEncode)

def encodeValue (f : SprotoField) (target : Value) (buffer : Buffer) (bufferIdx : Nat) :
    Option (Nat × Buffer) :=
  match f.type with
  | .string =>
    (target.stringBytes f.extra).map fun arr =>
      (arr.length, buffer.writeAll bufferIdx (arr.map some))
  | .struct => (sp.subtype f).bind fun st => sub st target buffer bufferIdx
  | _ => none

def encodeObject (f : SprotoField) (target : Value) (data : Buffer) (dataIdx : Nat) :
    Option (Nat × Buffer) :=
  (sp.encodeValue sub f target data (dataIdx + 4)).map fun r => fillSize r.2 dataIdx r.1

def encodeItem (f : SprotoField) (s : Nat × Buffer) (target : Value) : Option (Nat × Buffer) :=
  (sp.encodeValue sub f target s.2 (s.1 + 4)).map fun r =>
    (s.1 + 4 + r.1, (fillSize r.2 s.1 r.1).2)

def encodeBoolean (s : Nat × Buffer) (target : Value) : Nat × Buffer :=
  (s.1 + 1, s.2.put s.1 (some (UInt8.ofNat target.booleanCode)))

def encodeItems (f : SprotoField) (items : List Value) (data : Buffer) (dataIdx : Nat) :
    Option (Nat × Buffer) :=
  match f.type with
  | .integer => (items.mapM Value.integer?).map fun items => encodeArray items data dataIdx
  | .boolean =>
    let s := items.foldl encodeBoolean (dataIdx + 4, data)
    some (fillSize s.2 dataIdx (s.1 - (dataIdx + 4)))
  | _ =>
    (items.foldlM (sp.encodeItem sub f) (dataIdx + 4, data)).map fun s =>
      fillSize s.2 dataIdx (s.1 - (dataIdx + 4))

def encodeScalar (code : IntegerCode) (buffer : Buffer) (dataIdx : Nat) : FieldCode :=
  match code with
  | .four v =>
    if v < 0x7fff then ⟨(v + 1) * 2, 2, buffer⟩
    else ⟨0, (encodeInteger v buffer dataIdx).1, (encodeInteger v buffer dataIdx).2⟩
  | .eight v => ⟨0, (encodeUint64 v buffer dataIdx).1, (encodeUint64 v buffer dataIdx).2⟩

def encodeField (indata : Value) (f : SprotoField) (buffer : Buffer) (dataIdx : Nat) :
    Option FieldCode :=
  if indata.isPlain = false then none
  else if f.array then
    -- an array that is not there is written as one without items
    let items := (indata.member f.name).elim [] Value.items
    (sp.encodeItems sub f items buffer dataIdx).map fun r => ⟨0, r.1, r.2⟩
  else
    match indata.member f.name with
    | none => some ⟨0, 0, buffer⟩
    | some target =>
      match f.type with
      | .integer => target.integer?.map fun v => encodeScalar v.code buffer dataIdx
      | .boolean => some (encodeScalar (.four target.booleanCode) buffer dataIdx)
      | _ => (sp.encodeObject sub f target buffer dataIdx).map fun r => ⟨0, r.1, r.2⟩

end SprotoInstance

/-- The variables of the loop of `sprotoEncode`; `next` is the tag behind `lasttag`. -/
structure Encode where
  buffer : Buffer
  dataIdx : Nat
  index : Nat := 0
  next : Nat := 0

namespace Encode

def record (headerIdx : Nat) (f : SprotoField) (s : Encode) (code : FieldCode) : Option Encode :=
  if 0 < code.sz then
    let dataIdx := if code.value = 0 then s.dataIdx + code.sz else s.dataIdx
    let recordIdx := headerIdx + 2 + 2 * s.index
    let tag := f.tag - s.next
    if 0 < tag then
      let tag := (tag - 1) * 2 + 1
      if 0xffff < tag then none
      else
        let buffer := code.buffer.putWord recordIdx tag
        some ⟨buffer.putWord (recordIdx + 2) code.value, dataIdx, s.index + 2, f.tag + 1⟩
    else some ⟨code.buffer.putWord recordIdx code.value, dataIdx, s.index + 1, f.tag + 1⟩
  else some { s with buffer := code.buffer }

/-- The end of `sprotoEncode`: the data moves to where the header ends. -/
def finish (headerIdx maxn : Nat) (s : Encode) : Nat × Buffer :=
  let buffer := s.buffer.putWord headerIdx s.index
  let dataIdx := headerIdx + 2 + 2 * maxn
  let datasz := s.dataIdx - dataIdx
  (2 + 2 * s.index + datasz,
    if s.index ≠ maxn then
      let v := buffer.slice dataIdx (dataIdx + datasz)
      (buffer.writeAll (headerIdx + 2 + 2 * s.index) v).truncate
        (headerIdx + 2 + 2 * s.index + v.length)
    else buffer)

end Encode

namespace SprotoInstance

def encodeFields (st : SprotoType) (field : SprotoField → Buffer → Nat → Option FieldCode)
    (buffer : Buffer) (headerIdx : Nat) : Option (Nat × Buffer) :=
  (st.f.foldlM
    (fun s f => (field f s.buffer s.dataIdx).bind (Encode.record headerIdx f s))
    ⟨buffer, headerIdx + 2 + 2 * st.maxn, 0, 0⟩).map (Encode.finish headerIdx st.maxn)

/-- With so many levels left of the 64; where none is left, `encode` says so for any field. -/
def sprotoEncode (sp : SprotoInstance) : Nat → SubEncode
  | 0, st, _, buffer, headerIdx => encodeFields st (fun _ _ _ => none) buffer headerIdx
  | level + 1, st, indata, buffer, headerIdx =>
    encodeFields st (sp.encodeField (sp.sprotoEncode level) indata) buffer headerIdx

def encode (sp : SprotoInstance) (st : SprotoType) (indata : Value) :
    Option (List (Option UInt8)) :=
  (sp.sprotoEncode 64 st indata {} 0).map fun r => r.2.toList

end SprotoInstance

end Sdk

end Skyext
