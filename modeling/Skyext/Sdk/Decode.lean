import Skyext.Sdk.Struct

namespace Skyext
set_option autoImplicit true

namespace Sdk

def toWord (stream : Bytes) : Nat := (byteAt stream 0).toNat ||| (byteAt stream 1).toNat <<< 8

def searchTag (fs : List SprotoField) (tag : Nat) (first last : Nat) : Option SprotoField :=
  if first < last then
    let mid := (first + last) / 2
    (fs[mid]?).bind fun f =>
      if f.tag = tag then some f
      else if f.tag < tag then searchTag fs tag (mid + 1) last
      else searchTag fs tag first mid
  else none
termination_by last - first

/-- `findTag`; there is no answer for the tag behind the last one of a type with a base, with which
the caller throws. -/
def findTag (st : SprotoType) (tag : Nat) : Option (Option SprotoField) :=
  match st.base with
  | some base =>
    if tag < base ∨ st.f.length < tag - base then some none else (st.f[tag - base]?).map some
  | none => some (searchTag st.f tag 0 st.f.length)

namespace Value

def ofByte (b : UInt8) : Value := .integer (.number b.toNat)

/-- `utils.bytes2string`, or the bytes themselves where the field is a binary one. -/
def ofBytes (extra : Nat) (arr : Bytes) : Value :=
  if extra = 0 then .string (arr.map UInt8.toUInt16) else .array (arr.map ofByte)

def ofBoolean (value : Nat) : Value :=
  if value = 1 then .boolean true else if value = 0 then .boolean false else .null

def assign (tagname : String) (value : Value) : List (String × Value) → List (String × Value)
  | [] => [(tagname, value)]
  | m :: ms => if m.1 = tagname then (tagname, value) :: ms else m :: assign tagname value ms

end Value

abbrev SubDecode := SprotoType → Bytes → Nat → Option (Nat × Value)

namespace SprotoInstance

variable (sp : SprotoInstance) (sub : SubDecode)

def decodeValue (f : SprotoField) (value : Bytes) (length : Nat) : Option Value :=
  match f.type with
  | .string => some (Value.ofBytes f.extra (value.take length))
  | .struct => (sp.subtype f).bind fun st => (sub st value length).bind fun r =>
    if r.1 = length then some r.2 else none
  | _ => none

def decodeArrayObject (f : SprotoField) (stream : Bytes) (sz : Nat) : Option (List Value) :=
  if 0 < sz then
    if sz < 4 then none
    else
      let hsz := toDword stream
      if sz - 4 < hsz then none
      else (sp.decodeValue sub f (stream.drop 4) hsz).bind fun v =>
        (decodeArrayObject f ((stream.drop 4).drop hsz) (sz - 4 - hsz)).map fun vs => v :: vs
  else some []
termination_by sz

def decodeItems (f : SprotoField) (stream : Bytes) : Option (List Value) :=
  match f.type with
  | .integer => (decodeArray stream).map fun items => items.map Value.integer
  | .boolean =>
    some ((List.range (toDword stream)).map fun i =>
      Value.ofBoolean (byteAt (stream.drop 4) i).toNat)
  | _ => sp.decodeArrayObject sub f (stream.drop 4) (toDword stream)

/-- An array is set with its first item, or where its size is zero. -/
def setItems (stream : Bytes) (items : List Value) : Option Value :=
  if items = [] ∧ toDword stream ≠ 0 then none else some (.array items)

def decodeInteger (currentdata : Bytes) : Option Integer :=
  let sz := toDword currentdata
  if sz = 4 then some (.number (expand64 (toDword (currentdata.drop 4))))
  else if sz = 8 then some (int64 (toDword (currentdata.drop 4)) (toDword (currentdata.drop 8)))
  else none

def decodeScalar (f : SprotoField) (word : Nat) (currentdata : Bytes) : Option Value :=
  if word = 0 then
    match f.type with
    | .integer => (decodeInteger currentdata).map Value.integer
    | .boolean => none
    | _ => sp.decodeValue sub f (currentdata.drop 4) (toDword currentdata)
  else
    match f.type with
    | .integer => some (.integer (.number (word / 2 - 1 : Nat)))
    | .boolean => some (Value.ofBoolean (word / 2 - 1))
    | _ => none

def decodeField (f : SprotoField) (word : Nat) (currentdata : Bytes) : Option (Option Value) :=
  if f.array then
    if word = 0 then (sp.decodeItems sub f currentdata).map (setItems currentdata) else none
  else (sp.decodeScalar sub f word currentdata).map some

end SprotoInstance

/-- The variables of the loop of `sprotoDecode`; `next` is the tag behind `tag`. -/
structure Decode where
  stream : Bytes
  datastream : Bytes
  size : Nat
  next : Nat := 0
  result : List (String × Value) := []

namespace Decode

def cut (s : Decode) : Option Decode :=
  let sz := toDword s.datastream
  if s.size < 4 then none
  else if s.size < sz + 4 then none
  else some { s with datastream := s.datastream.drop (sz + 4), size := s.size - (sz + 4) }

def word (st : SprotoType) (field : SprotoField → Nat → Bytes → Option (Option Value))
    (s : Decode) : Option Decode :=
  let value := toWord s.stream
  let currentdata := s.datastream
  let s := { s with stream := s.stream.drop 2 }
  if value % 2 = 1 then some { s with next := s.next + 1 + value / 2 }
  else
    (if value = 0 then s.cut else some s).bind fun s' =>
      (findTag st s.next).bind fun f =>
        match f with
        | none => some { s' with next := s.next + 1 }
        | some f => (field f value currentdata).map fun v =>
          { s' with
            next := s.next + 1
            result := v.elim s.result fun v => Value.assign f.name v s.result }

def words (st : SprotoType) (field : SprotoField → Nat → Bytes → Option (Option Value)) :
    Nat → Decode → Option Decode
  | 0, s => some s
  | fn + 1, s => (s.word st field).bind (words st field fn)

end Decode

namespace SprotoInstance

def decodeFields (st : SprotoType) (field : SprotoField → Nat → Bytes → Option (Option Value))
    (data : Bytes) (size : Nat) : Option (Nat × Value) :=
  if size < 2 then none
  else
    let fn := toWord data
    if size - 2 < fn * 2 then none
    else
      (Decode.words st field fn
        ⟨data.drop 2, (data.drop 2).drop (fn * 2), size - 2 - fn * 2, 0, []⟩).map fun s =>
          (size - s.size, .object s.result)

/-- What is inside a message is shorter than it, so that its length bounds how deep it goes. -/
def sprotoDecode (sp : SprotoInstance) : Nat → SubDecode
  | 0, _, _, _ => none
  | depth + 1, st, data, size =>
    decodeFields st (sp.decodeField (sp.sprotoDecode depth)) data size

def decode (sp : SprotoInstance) (st : SprotoType) (inbuf : Bytes) : Option Value :=
  (sp.sprotoDecode (inbuf.length + 1) st inbuf inbuf.length).map Prod.snd

def objlen (sp : SprotoInstance) (st : SprotoType) (inbuf : Bytes) : Option Nat :=
  (sp.sprotoDecode (inbuf.length + 1) st inbuf inbuf.length).map Prod.fst

def pencode (sp : SprotoInstance) (st : SprotoType) (indata : Value) :
    Option (List (Option UInt8)) :=
  (sp.encode st indata).map fun obuf => pack (toBytes obuf)

def pdecode (sp : SprotoInstance) (st : SprotoType) (inbuf : Bytes) : Option Value :=
  sp.decode st (toBytes (unpack inbuf))

end SprotoInstance

end Sdk

end Skyext
