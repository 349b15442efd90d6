import Skyext.Sdk.PackTrip

namespace Skyext
set_option autoImplicit true

namespace Sdk

/-- An integer of a message: a number that is whole, or a big integer. -/
inductive Integer
  | number (v : Int)
  | bigint (v : Int)
  deriving DecidableEq

inductive IntegerCode
  | four (v : Nat)
  | eight (v : Integer)

namespace Integer

def value : Integer → Int
  | number v => v
  | bigint v => v

def code : Integer → IntegerCode
  | bigint v =>
    if 0x7FFFFFFF < v ∨ v < -0x80000000 then .eight (bigint v)
    else .four (v % 4294967296).toNat
  | number v =>
    let vh := v / 2147483648
    if vh = 0 ∨ vh = -1 then .four (v % 4294967296).toNat else .eight (number v)

/-- The integer of which `encodeUint64` writes the lowest eight bytes. -/
def uint64 : Integer → Int
  | bigint v => if v < 0 then v + 18446744073709551616 else v
  | number v => v

end Integer

def int64 (low hi : Nat) : Integer :=
  let u := hi <<< 32 ||| low
  if hi &&& 0x80000000 ≠ 0 then .bigint ((u : Int) - 18446744073709551616)
  else if u ≤ 9007199254740991 then .number u
  else .bigint u

def toDword (stream : Bytes) : Nat :=
  (byteAt stream 0).toNat ||| (byteAt stream 1).toNat <<< 8 ||| (byteAt stream 2).toNat <<< 16 |||
    (byteAt stream 3).toNat <<< 24

def expand64 (v : Nat) : Int := if v < 2147483648 then v else (v : Int) - 4294967296

/-- A place is given the lowest byte of a number, and those behind it the next three. -/
def Buffer.putDword (data : Buffer) (i v : Nat) : Buffer :=
  let data := data.put i (some (UInt8.ofNat v))
  let data := data.put (i + 1) (some (UInt8.ofNat (v >>> 8)))
  let data := data.put (i + 2) (some (UInt8.ofNat (v >>> 16)))
  data.put (i + 3) (some (UInt8.ofNat (v >>> 24)))

/-- The eight lowest bytes of an integer, a negative one in two's complement. -/
def Buffer.putUint64 (data : Buffer) (i : Nat) (v : Int) : Buffer :=
  (List.range 8).foldl (fun data k => data.put (i + k) (some (UInt8.ofInt (v >>> (8 * k))))) data

def fillSize (data : Buffer) (dataIdx sz : Nat) : Nat × Buffer :=
  (sz + 4, data.putDword dataIdx sz)

def uint32ToUint64 (negative : Bool) (buffer : Buffer) (bufferIdx : Nat) : Buffer :=
  (List.range 4).foldl
    (fun buffer k => buffer.put (bufferIdx + 4 + k) (some (if negative then 0xff else 0))) buffer

structure IntegerArray where
  buffer : Buffer
  bufferIdx : Nat
  intlen : Nat := 4
  index : Nat := 1

/-- An item of four bytes becomes one of eight, further behind. -/
def widenItem (buffer : Buffer) (headerIdx i : Nat) : Buffer :=
  let buffer := (List.range 4).foldl
    (fun buffer k =>
      buffer.put (headerIdx + 1 + i * 8 + k) (buffer.get (headerIdx + 1 + i * 8 + k - i * 4)))
    buffer
  let negative := ((buffer.get (headerIdx + 1 + i * 8 + 3)).getD 0).toNat &&& 0x80 ≠ 0
  uint32ToUint64 negative buffer (headerIdx + 1 + i * 8)

/-- The loop over the items that there are so far, from the last to the first. -/
def widen (buffer : Buffer) (headerIdx : Nat) : Nat → Buffer
  | 0 => buffer
  | i + 1 => widen (widenItem buffer headerIdx i) headerIdx i

namespace IntegerArray

def toEight (headerIdx : Nat) (s : IntegerArray) : IntegerArray :=
  if s.intlen = 4 then
    { s with
      bufferIdx := s.bufferIdx + (s.index - 1) * 4
      buffer := widen s.buffer headerIdx (s.index - 1)
      intlen := 8 }
  else s

def next (s : IntegerArray) : IntegerArray :=
  { s with bufferIdx := s.bufferIdx + s.intlen, index := s.index + 1 }

def step (headerIdx : Nat) (s : IntegerArray) (target : Integer) : IntegerArray :=
  match target.code with
  | .four v =>
    let buffer := s.buffer.putDword s.bufferIdx v
    let negative := v &&& 0x80000000 ≠ 0
    let buffer := if s.intlen = 8 then uint32ToUint64 negative buffer s.bufferIdx else buffer
    { s with buffer := buffer }.next
  | .eight v =>
    let s := s.toEight headerIdx
    { s with buffer := s.buffer.putUint64 s.bufferIdx v.uint64 }.next

end IntegerArray

/-- Where the items end, and the buffer. -/
def encodeIntegerArray (items : List Integer) (buffer : Buffer) (headerIdx : Nat) : Nat × Buffer :=
  let s := items.foldl (IntegerArray.step headerIdx) ⟨buffer, headerIdx + 1, 4, 1⟩
  if s.bufferIdx = headerIdx + 1 then (headerIdx, s.buffer)
  else (s.bufferIdx, s.buffer.put headerIdx (some (UInt8.ofNat s.intlen)))

def encodeArray (items : List Integer) (data : Buffer) (dataIdx : Nat) : Nat × Buffer :=
  let (bufferIdx, buffer) := encodeIntegerArray items data (dataIdx + 4)
  fillSize buffer dataIdx (bufferIdx - (dataIdx + 4))

/-- `decodeArray` for integers: the values it calls back with, or its error. -/
def decodeArray (stream : Bytes) : Option (List Integer) :=
  let sz := toDword stream
  if sz = 0 then some []
  else
    let stream := stream.drop 4
    let len := byteAt stream 0
    let stream := stream.drop 1
    let remainingSz := sz - 1
    if len = 4 then
      if remainingSz % 4 ≠ 0 then none
      else some ((List.range (remainingSz / 4)).map fun i =>
        .number (expand64 (toDword (stream.drop (i * 4)))))
    else if len = 8 then
      if remainingSz % 8 ≠ 0 then none
      else some ((List.range (remainingSz / 8)).map fun i =>
        int64 (toDword (stream.drop (i * 8))) (toDword (stream.drop (i * 8 + 4))))
    else none

end Sdk

end Skyext
