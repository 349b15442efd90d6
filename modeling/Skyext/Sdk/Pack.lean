import Mathlib.Logic.Function.Basic
import Skyext.Sdk.Frames

namespace Skyext
set_option autoImplicit true

namespace Sdk

/-- An array that grows where it is written; a place that was never written is `undefined`. -/
structure Buffer where
  length : Nat := 0
  get : Nat → Option UInt8 := fun _ => none

def Buffer.put (b : Buffer) (i : Nat) (v : Option UInt8) : Buffer :=
  ⟨max b.length (i + 1), Function.update b.get i v⟩

def Buffer.toList (b : Buffer) : List (Option UInt8) := (List.range b.length).map b.get

def toBytes (xs : List (Option UInt8)) : Bytes := xs.map fun x => x.getD 0

abbrev Src := Nat → Option UInt8

structure Seg where
  buffer : Buffer
  bufferIdx : Nat
  sz : Int
  header : Nat := 0
  notzero : Nat := 0

def packByte (src : Src) (srcIdx : Nat) (s : Seg) (i : Nat) : Seg :=
  if src (srcIdx + i) ≠ some 0 then
    let s := { s with notzero := s.notzero + 1, header := s.header ||| 1 <<< i }
    if 0 < s.sz then
      { s with
        buffer := s.buffer.put s.bufferIdx (src (srcIdx + i))
        bufferIdx := s.bufferIdx + 1
        sz := s.sz - 1 }
    else s
  else s

def packSeg (src : Src) (srcIdx : Nat) (buffer : Buffer) (bufferIdx : Nat) (sz : Int) (n : Nat) :
    Nat × Buffer :=
  if sz - 1 < 0 then (10, buffer)
  else
    let s := (List.range 8).foldl (packByte src srcIdx) ⟨buffer, bufferIdx + 1, sz - 1, 0, 0⟩
    let notzero := if (s.notzero = 7 ∨ s.notzero = 6) ∧ 0 < n then 8 else s.notzero
    if notzero = 8 then (if 0 < n then 8 else 10, s.buffer)
    else (notzero + 1, s.buffer.put bufferIdx (some (UInt8.ofNat s.header)))

def writeFf (src : Src) (srcIdx : Nat) (des : Buffer) (destIdx n : Nat) : Buffer :=
  let align8N := (n + 7) / 8 * 8
  let des := des.put destIdx (some 0xff)
  let des := des.put (destIdx + 1) (some (UInt8.ofNat (align8N / 8 - 1)))
  let des := (List.range n).foldl (fun des i => des.put (destIdx + 2 + i) (src (srcIdx + i))) des
  (List.range (align8N - n)).foldl (fun des i => des.put (destIdx + 2 + n + i) (some 0)) des

/-- The variables of the loop of `sprotoPack`; `ffDesstart` is `buffer`, and `bufsz` begins at
`1 << 30`. -/
structure Pack where
  src : Src
  srcIdx : Nat := 0
  buffer : Buffer := {}
  bufferIdx : Nat := 0
  ffSrcstart : Src := fun _ => none
  ffSrcstartIdx : Nat := 0
  ffDesstartIdx : Nat := 0
  ffN : Nat := 0
  size : Nat := 0
  bufsz : Int := 1073741824

namespace Pack

/-- The last bytes are copied to `tmp`, which zeros fill up. -/
def pad (srcv : Bytes) (p : Pack) (i : Nat) : Pack :=
  if srcv.length < i + 8 then
    let padding := i + 8 - srcv.length
    { p with
      src := fun j => if j < 8 - padding then p.src (p.srcIdx + j) else some 0
      srcIdx := 0 }
  else p

/-- `writeFf` for a run of so many bytes, which is then over. -/
def flush (p : Pack) (n : Nat) : Pack :=
  { p with
    buffer := if 0 ≤ p.bufsz then writeFf p.ffSrcstart p.ffSrcstartIdx p.buffer p.ffDesstartIdx n
      else p.buffer
    ffN := 0 }

/-- What becomes of a run after `packSeg` returned `n`. -/
def follow (p : Pack) (n : Nat) : Pack :=
  if n = 10 then
    { p with
      ffSrcstart := p.src
      ffSrcstartIdx := p.srcIdx
      ffDesstartIdx := p.bufferIdx
      ffN := 1 }
  else if n = 8 ∧ 0 < p.ffN then
    if p.ffN + 1 = 256 then { p with ffN := p.ffN + 1 }.flush (256 * 8)
    else { p with ffN := p.ffN + 1 }
  else if 0 < p.ffN then p.flush (p.ffN * 8)
  else p

def step (srcv : Bytes) (p : Pack) (i : Nat) : Pack :=
  let p := p.pad srcv i
  let (n, buffer) := packSeg p.src p.srcIdx p.buffer p.bufferIdx p.bufsz p.ffN
  let p := { p with buffer := buffer, bufsz := p.bufsz - n }.follow n
  { p with srcIdx := p.srcIdx + 8, bufferIdx := p.bufferIdx + n, size := p.size + n }

def loop (srcv : Bytes) (k : Nat) : Pack :=
  (List.range k).foldl (fun p i => p.step srcv (8 * i)) { src := fun j => srcv[j]? }

/-- What follows the loop of `sprotoPack` -/
def finish (srcv : Bytes) (p : Pack) : Buffer :=
  if 0 ≤ p.bufsz then
    let p := if p.ffN = 1 then p.flush 8
      else if 1 < p.ffN then p.flush (srcv.length - p.ffSrcstartIdx)
      else p
    (List.range (p.buffer.length - p.size)).foldl
      (fun buffer i => buffer.put (p.size + i) (some 0)) p.buffer
  else p.buffer

end Pack

/-- `api.pack`, which returns the whole array and not only the `size` that `sprotoPack` counts. -/
def pack (inbuf : Bytes) : List (Option UInt8) :=
  ((Pack.loop inbuf ((inbuf.length + 7) / 8)).finish inbuf).toList

/-- The variables of the loop of `sprotoUnpack`; `src` is what is left of it. -/
structure Unpack where
  src : Bytes
  srcsz : Int
  bufsz : Int := 1073741824
  buffer : List (Option UInt8) := []

namespace Unpack

def write (u : Unpack) (v : Option UInt8) : Unpack :=
  if 0 < u.bufsz then { u with buffer := u.buffer ++ [v], bufsz := u.bufsz - 1 } else u

/-- One pass of the loop over the bits of a header; the error is the early return. -/
def bit (header : Nat) (u : Unpack) (i : Nat) : Except Unpack Unpack :=
  if (header >>> i) &&& 1 ≠ 0 then
    if u.srcsz < 0 then .error u
    else .ok { u.write u.src.head? with src := u.src.tail, srcsz := u.srcsz - 1 }
  else .ok (u.write (some 0))

def loop : Nat → Unpack → Unpack
  | 0, u => u
  | fuel + 1, u =>
    if 0 < u.srcsz then
      match u.src with
      | [] => u
      | header :: src =>
        let u := { u with src := src, srcsz := u.srcsz - 1 }
        if header = 0xff then
          match src with
          | [] => u
          | k :: src =>
            let n := (k.toNat + 1) * 8
            if u.srcsz < n + 1 then u
            else
              loop fuel
                { src := src.drop n
                  srcsz := u.srcsz - (n + 1)
                  bufsz := u.bufsz - n
                  buffer := if n ≤ u.bufsz then u.buffer ++ (src.take n).map some else u.buffer }
        else
          match (List.range 8).foldlM (bit header.toNat) u with
          | .ok u => loop fuel u
          | .error u => u
    else u

end Unpack

/-- `api.unpack`, which does not look at what `sprotoUnpack` returns. -/
def unpack (inbuf : Bytes) : List (Option UInt8) :=
  (Unpack.loop inbuf.length { src := inbuf, srcsz := inbuf.length }).buffer

end Sdk

end Skyext
