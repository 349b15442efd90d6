import Mathlib.Data.Nat.Bitwise
import Mathlib.Data.List.Induction
import Skyext.Sdk.Integers

namespace Skyext
set_option autoImplicit true

namespace Sdk

/-- So many bytes of an integer, the lowest first. -/
def littleEndian : Nat → Int → Bytes
  | 0, _ => []
  | w + 1, x => UInt8.ofInt x :: littleEndian w (x / 256)

@[simp]
theorem littleEndian_length (w : Nat) (x : Int) : (littleEndian w x).length = w := by
  induction w generalizing x with
  | zero => rfl
  | succ w ih => rw [littleEndian, List.length_cons, ih]

theorem ofInt_toNat (x : Int) : (UInt8.ofInt x).toNat = (x % 256).toNat := by
  rw [UInt8.ofInt, UInt8.toNat_ofNat']
  omega

theorem ofInt_congr {x y : Int} (h : x % 256 = y % 256) : UInt8.ofInt x = UInt8.ofInt y := by
  rw [← UInt8.toNat_inj, ofInt_toNat, ofInt_toNat, h]

theorem ofNat_eq (n : Nat) (x : Int) (h : (n : Int) % 256 = x % 256) :
    UInt8.ofNat n = UInt8.ofInt x := by
  rw [← UInt8.toNat_inj, ofInt_toNat, UInt8.toNat_ofNat']
  omega

theorem littleEndian_four (x y : Int) (h : x % 4294967296 = y % 4294967296) :
    littleEndian 4 x = littleEndian 4 y := by
  simp only [littleEndian, List.cons.injEq, and_true]
  exact ⟨ofInt_congr (by omega), ofInt_congr (by omega), ofInt_congr (by omega),
    ofInt_congr (by omega)⟩

theorem littleEndian_eight (x y : Int)
    (h : x % 18446744073709551616 = y % 18446744073709551616) :
    littleEndian 8 x = littleEndian 8 y := by
  simp only [littleEndian, List.cons.injEq, and_true]
  exact ⟨ofInt_congr (by omega), ofInt_congr (by omega), ofInt_congr (by omega),
    ofInt_congr (by omega), ofInt_congr (by omega), ofInt_congr (by omega), ofInt_congr (by omega),
    ofInt_congr (by omega)⟩

theorem littleEndian_halves (x : Int) :
    littleEndian 8 x = littleEndian 4 x ++ littleEndian 4 (x / 4294967296) := by
  simp only [littleEndian, List.cons_append, List.nil_append, List.cons.injEq, and_true, true_and]
  exact ⟨ofInt_congr (by omega), ofInt_congr (by omega), ofInt_congr (by omega),
    ofInt_congr (by omega)⟩

theorem or_shift (h : x < 1 <<< k) (y : Nat) : x ||| y <<< k = x + y <<< k := by
  rw [Nat.one_shiftLeft] at h
  have hor := Nat.two_pow_add_eq_or_of_lt h y
  rw [Nat.shiftLeft_eq, Nat.mul_comm y, Nat.or_comm, ← hor, Nat.add_comm]

theorem toDword_eq (s : Bytes) :
    toDword s = (byteAt s 0).toNat + 256 * (byteAt s 1).toNat + 65536 * (byteAt s 2).toNat +
      16777216 * (byteAt s 3).toNat := by
  have h0 := (byteAt s 0).toNat_lt
  have h1 := (byteAt s 1).toNat_lt
  have h2 := (byteAt s 2).toNat_lt
  have hlow := or_shift (k := 8) (by simpa using h0) (byteAt s 1).toNat
  rw [toDword, hlow, or_shift (k := 16), or_shift (k := 24)]
  · simp only [Nat.shiftLeft_eq]
    omega
  · simp only [Nat.shiftLeft_eq]
    omega
  · simp only [Nat.shiftLeft_eq]
    omega

theorem toDword_littleEndian (x : Int) (rest : Bytes) :
    toDword (littleEndian 4 x ++ rest) = (x % 4294967296).toNat := by
  rw [toDword_eq]
  simp only [littleEndian, byteAt, List.cons_append, List.getElem?_cons_zero,
    List.getElem?_cons_succ, Option.getD_some, ofInt_toNat]
  omega

theorem expand64_eq (x : Int) (hlow : -2147483648 ≤ x) (hhigh : x < 2147483648) :
    expand64 (x % 4294967296).toNat = x := by
  unfold expand64
  split <;> omega

namespace Buffer

theorem putDword_eq (b : Buffer) (i v : Nat) :
    b.putDword i v = b.writeAll i ((littleEndian 4 v).map some) := by
  simp only [putDword, littleEndian, List.map_cons, List.map_nil, writeAll,
    Nat.shiftRight_eq_div_pow]
  rw [ofNat_eq v v rfl, ofNat_eq (v / 2 ^ 8) ((v : Int) / 256) (by omega),
    ofNat_eq (v / 2 ^ 16) ((v : Int) / 256 / 256) (by omega),
    ofNat_eq (v / 2 ^ 24) ((v : Int) / 256 / 256 / 256) (by omega)]

theorem putUint64_eq (b : Buffer) (i : Nat) (v : Int) :
    b.putUint64 i v = b.writeAll i ((littleEndian 8 v).map some) := by
  rw [putUint64, foldl_put]
  congr 1
  simp only [List.range, List.range.loop, List.map_cons, List.map_nil, littleEndian,
    Int.shiftRight_eq_div_pow, List.cons.injEq, Option.some.injEq, and_true]
  refine ⟨?_, ?_, ?_, ?_, ?_, ?_, ?_, ?_⟩ <;> apply ofInt_congr <;> simp <;> omega

end Buffer

theorem uint32ToUint64_eq (negative : Bool) (b : Buffer) (i : Nat) :
    uint32ToUint64 negative b i =
      b.writeAll (i + 4) ((littleEndian 4 (if negative then -1 else 0)).map some) := by
  rw [uint32ToUint64, Buffer.foldl_put]
  cases negative with
  | true => rfl
  | false => rfl

def small (x : Int) : Bool := decide (-2147483648 ≤ x ∧ x < 2147483648)

def width (xs : List Int) : Nat := if xs.all small then 4 else 8

def content (xs : List Int) : Bytes := xs.flatMap (littleEndian (width xs))

def arrayBytes (xs : List Int) : Bytes :=
  let items := if xs = [] then [] else UInt8.ofNat (width xs) :: content xs
  littleEndian 4 items.length ++ items

/-- An item of eight bytes as it is read; a negative one is always a big integer. -/
def readWide (x : Int) : Integer :=
  let u := x % 18446744073709551616
  if 9223372036854775808 ≤ u then .bigint (u - 18446744073709551616)
  else if u ≤ 9007199254740991 then .number u
  else .bigint u

def readItem (xs : List Int) (x : Int) : Integer :=
  if xs.all small then .number x else readWide x

theorem small_iff : small x = true ↔ -2147483648 ≤ x ∧ x < 2147483648 := decide_eq_true_iff

theorem width_snoc_small (xs : List Int) (h : small x = true) : width (xs ++ [x]) = width xs := by
  simp only [width, List.all_append, List.all_cons, List.all_nil, h, Bool.and_true]

theorem width_snoc_wide (xs : List Int) (h : small x = false) : width (xs ++ [x]) = 8 := by
  simp only [width, List.all_append, List.all_cons, List.all_nil, h, Bool.false_and,
    Bool.and_false, Bool.false_eq_true, if_false]

theorem width_cases (xs : List Int) : xs.all small = true ∧ width xs = 4 ∨ width xs = 8 := by
  unfold width
  split
  · next h => exact .inl ⟨h, rfl⟩
  · exact .inr rfl

theorem flatMap_length (w : Nat) (xs : List Int) :
    (xs.flatMap (littleEndian w)).length = w * xs.length := by
  induction xs with
  | nil => rfl
  | cons x xs ih =>
    rw [List.flatMap_cons, List.length_append, littleEndian_length, ih, List.length_cons,
      Nat.mul_succ, Nat.add_comm]

theorem content_length (xs : List Int) : (content xs).length = width xs * xs.length :=
  flatMap_length ..

theorem code_cases (x : Integer) :
    small x.value = true ∧ x.code = .four (x.value % 4294967296).toNat ∨
      small x.value = false ∧ x.code = .eight x := by
  cases x with
  | number v =>
    by_cases h : small v = true
    · have hv := small_iff.mp h
      exact .inl ⟨h, if_pos (by omega)⟩
    · have hv := mt small_iff.mpr h
      exact .inr ⟨Bool.eq_false_iff.mpr h, if_neg (by omega)⟩
  | bigint v =>
    by_cases h : small v = true
    · have hv := small_iff.mp h
      exact .inl ⟨h, if_neg (by omega)⟩
    · have hv := mt small_iff.mpr h
      exact .inr ⟨Bool.eq_false_iff.mpr h, if_pos (by omega)⟩

theorem uint64_bytes (x : Integer) : littleEndian 8 x.uint64 = littleEndian 8 x.value := by
  cases x with
  | number v => rfl
  | bigint v =>
    apply littleEndian_eight
    simp only [Integer.uint64, Integer.value]
    split <;> omega

/-- The four bytes of a small item and its sign make its eight bytes. -/
theorem littleEndian_sign (h : small x = true) :
    littleEndian 8 x = littleEndian 4 x ++ littleEndian 4 (if x < 0 then -1 else 0) := by
  have hx := small_iff.mp h
  rw [littleEndian_halves]
  congr 1
  apply littleEndian_four
  split <;> omega

theorem and_bit (n i : Nat) : n &&& 1 <<< i ≠ 0 ↔ n / 1 <<< i % 2 = 1 := by
  rw [Nat.one_shiftLeft, Nat.and_two_pow, Nat.testBit_eq_decide_div_mod_eq]
  by_cases h : n / 2 ^ i % 2 = 1
  · simp [h]
  · simp [h]

namespace Buffer

theorem put_put (b : Buffer) (i : Nat) (v w : Option UInt8) : (b.put i v).put i w = b.put i w := by
  simp only [put, Buffer.mk.injEq]
  exact ⟨by omega, Function.update_idem ..⟩

theorem writeAll_over (b : Buffer) (vs ws : List (Option UInt8)) (h : vs.length ≤ ws.length) :
    (b.writeAll i vs).writeAll i ws = b.writeAll i ws := by
  induction vs generalizing b i ws with
  | nil => rfl
  | cons v vs ih =>
    cases ws with
    | nil => cases h
    | cons w ws =>
      rw [writeAll, writeAll, writeAll_put _ (by omega), put_put, ih _ _ (Nat.le_of_succ_le_succ h),
        writeAll]

/-- Bytes that are copied to where they do not overlap, or to where they are. -/
theorem copy_eq (b : Buffer) (n d : Nat) (hd : d = 0 ∨ n ≤ d) (hi : d ≤ i) :
    (List.range n).foldl (fun b k => b.put (i + k) (b.get (i + k - d))) b =
      b.writeAll i ((List.range n).map fun k => b.get (i + k - d)) := by
  induction n with
  | zero => rfl
  | succ n ih =>
    rw [List.range_succ, List.foldl_append, ih (by omega), List.map_append, List.map_singleton,
      writeAll_snoc, List.length_map, List.length_range]
    simp only [List.foldl_cons, List.foldl_nil]
    congr 1
    by_cases hz : d = 0
    · rw [writeAll_get_ge (by rw [List.length_map, List.length_range]; omega)]
    · rw [writeAll_get_lt (by omega)]

end Buffer

/-- The sign that `widenItem` finds in the highest of four bytes. -/
theorem sign_byte (h : small x = true) :
    decide ((UInt8.ofInt (x / 256 / 256 / 256)).toNat &&& 0x80 ≠ 0) = decide (x < 0) := by
  have hx := small_iff.mp h
  rw [decide_eq_decide]
  have hbit := and_bit (UInt8.ofInt (x / 256 / 256 / 256)).toNat 7
  rw [ofInt_toNat] at hbit ⊢
  exact hbit.trans (by simp only [Nat.reduceShiftLeft]; omega)

theorem sign_word (h : small x = true) :
    decide ((x % 4294967296).toNat &&& 0x80000000 ≠ 0) = decide (x < 0) := by
  have hx := small_iff.mp h
  rw [decide_eq_decide]
  have hbit := and_bit (x % 4294967296).toNat 31
  exact hbit.trans (by simp only [Nat.reduceShiftLeft]; omega)

theorem widenItem_eq (b : Buffer) (h i : Nat) (hx : small x = true)
    (hread : ∀ k y, (littleEndian 4 x)[k]? = some y → b.get (h + 1 + i * 4 + k) = some y) :
    widenItem b h i = b.writeAll (h + 1 + i * 8) ((littleEndian 8 x).map some) := by
  have hcopy : (List.range 4).map (fun k => b.get (h + 1 + i * 8 + k - i * 4)) =
      (littleEndian 4 x).map some := by
    apply List.ext_getElem
    · simp
    · intro k hk hk'
      rw [List.length_map, littleEndian_length] at hk'
      rw [List.getElem_map, List.getElem_range, List.getElem_map,
        show h + 1 + i * 8 + k - i * 4 = h + 1 + i * 4 + k by omega]
      exact hread k _ (List.getElem?_eq_getElem _)
  rw [widenItem, Buffer.copy_eq _ _ _ (by omega) (by omega), hcopy]
  have htop : ((b.writeAll (h + 1 + i * 8) ((littleEndian 4 x).map some)).get
      (h + 1 + i * 8 + 3)).getD 0 = UInt8.ofInt (x / 256 / 256 / 256) := by
    rw [Buffer.writeAll_get (v := some (UInt8.ofInt (x / 256 / 256 / 256))) rfl]
    rfl
  simp only [htop, uint32ToUint64_eq, sign_byte hx, decide_eq_true_eq]
  rw [littleEndian_sign hx, List.map_append, Buffer.writeAll_append, List.length_map,
    littleEndian_length]

/-- The items that are there become items of eight bytes, in their places. -/
theorem widen_eq (b : Buffer) (h : Nat) (xs : List Int) (hsmall : ∀ x ∈ xs, small x = true)
    (hread : ∀ k y, (xs.flatMap (littleEndian 4))[k]? = some y → b.get (h + 1 + k) = some y) :
    widen b h xs.length = b.writeAll (h + 1) ((xs.flatMap (littleEndian 8)).map some) := by
  induction xs using List.reverseRecOn generalizing b with
  | nil => rfl
  | append_singleton xs x ih =>
    have hlen := flatMap_length 4 xs
    have hitem : widenItem b h xs.length =
        b.writeAll (h + 1 + xs.length * 8) ((littleEndian 8 x).map some) := by
      apply widenItem_eq b h xs.length (hsmall x (by simp))
      intro k y hk
      rw [← hread (4 * xs.length + k) y]
      · congr 1
        omega
      · rw [List.flatMap_append, List.getElem?_append_right (by omega), hlen,
          Nat.add_sub_cancel_left]
        simpa using hk
    rw [List.length_append, List.length_singleton, widen, hitem, ih]
    · rw [Buffer.writeAll_comm _ _ _ (by rw [List.length_map, flatMap_length]; omega),
        List.flatMap_append, List.map_append, Buffer.writeAll_append, List.length_map,
        flatMap_length, Nat.mul_comm]
      simp
    · exact fun y hy => hsmall y (List.mem_append_left _ hy)
    · intro k y hk
      have hklt := (List.getElem?_eq_some_iff.mp hk).1
      rw [Buffer.writeAll_get_lt (by omega)]
      apply hread
      rw [List.flatMap_append, List.getElem?_append_left hklt]
      exact hk

namespace IntegerArray

structure Inv (b : Buffer) (h : Nat) (xs : List Int) (s : IntegerArray) : Prop where
  intlen : s.intlen = width xs
  index : s.index = xs.length + 1
  bufferIdx : s.bufferIdx = h + 1 + width xs * xs.length
  buffer : s.buffer = b.writeAll (h + 1) ((content xs).map some)

variable {b : Buffer} {h : Nat} {xs : List Int} {s : IntegerArray}

theorem Inv.toEight (hi : Inv b h xs s) (hidx : xs.length = s.index - 1) :
    (s.toEight h).bufferIdx = h + 1 + 8 * xs.length ∧ (s.toEight h).intlen = 8 ∧
      (s.toEight h).index = s.index ∧
      (s.toEight h).buffer =
        b.writeAll (h + 1) ((xs.flatMap (littleEndian 8)).map some) := by
  have hbidx := hi.bufferIdx
  obtain ⟨hall, hw⟩ | hw := width_cases xs
  · have hint := hi.intlen
    rw [hw] at hint hbidx
    rw [IntegerArray.toEight, if_pos hint]
    refine ⟨by simp only; omega, rfl, rfl, ?_⟩
    have hsmall := List.all_eq_true.mp hall
    have hbuf := hi.buffer
    simp only [content, hw] at hbuf
    simp only [← hidx, hbuf]
    rw [widen_eq _ h xs hsmall]
    · apply Buffer.writeAll_over
      simp only [List.length_map, flatMap_length]
      omega
    · intro k y hk
      rw [Buffer.writeAll_get (v := some y)]
      rw [List.getElem?_map, hk]
      rfl
  · have hint := hi.intlen
    rw [hw] at hint hbidx
    rw [IntegerArray.toEight, if_neg (by omega)]
    refine ⟨hbidx, hint, rfl, ?_⟩
    have hbuf := hi.buffer
    simpa only [content, hw] using hbuf

theorem snoc_bytes (xs : List Int) (x : Int) (hw : width (xs ++ [x]) = w) (b : Buffer) (h : Nat) :
    (b.writeAll (h + 1) ((xs.flatMap (littleEndian w)).map some)).writeAll (h + 1 + w * xs.length)
        ((littleEndian w x).map some) =
      b.writeAll (h + 1) ((content (xs ++ [x])).map some) := by
  rw [content, hw, List.flatMap_append, List.map_append, Buffer.writeAll_append, List.length_map,
    flatMap_length]
  simp

theorem Inv.step (hi : Inv b h xs s) (x : Integer) :
    Inv b h (xs ++ [x.value]) (s.step h x) := by
  have hint := hi.intlen
  have hidx := hi.index
  have hbidx := hi.bufferIdx
  have hbuf := hi.buffer
  obtain ⟨hx, hcode⟩ | ⟨hx, hcode⟩ := code_cases x
  · have hw := width_snoc_small xs hx
    have hword : littleEndian 4 ((x.value % 4294967296).toNat : Int) = littleEndian 4 x.value :=
      littleEndian_four _ _ (by omega)
    rw [IntegerArray.step, hcode]
    constructor
    · simp only [next, hint, hw]
    · simp only [next, hidx, List.length_append, List.length_singleton]
    · simp only [next, hint, hbidx, hw, List.length_append, List.length_singleton, Nat.mul_succ,
        Nat.add_assoc]
    · simp only [next, Buffer.putDword_eq, hword, uint32ToUint64_eq, sign_word hx,
        decide_eq_true_eq, hint, hbidx, hbuf]
      obtain ⟨-, hfour⟩ | height := width_cases xs
      · rw [← snoc_bytes xs x.value hw, if_neg (by omega), hfour, content, hfour]
      · rw [← snoc_bytes xs x.value hw, if_pos height, height, content, height,
          littleEndian_sign hx, List.map_append, Buffer.writeAll_append, List.length_map,
          littleEndian_length]
  · have hw := width_snoc_wide xs hx
    obtain ⟨hbidx', hint', hidx', hbuf'⟩ := hi.toEight (by omega)
    have hstep : s.step h x = IntegerArray.next { s.toEight h with
        buffer := (s.toEight h).buffer.putUint64 (s.toEight h).bufferIdx x.uint64 } := by
      rw [IntegerArray.step, hcode]
    rw [hstep]
    generalize s.toEight h = t at hbidx' hint' hidx' hbuf'
    constructor
    · simp only [next, hint', hw]
    · simp only [next, hidx', hidx, List.length_append, List.length_singleton]
    · simp only [next, hint', hbidx', hw, List.length_append, List.length_singleton, Nat.mul_succ,
        Nat.add_assoc]
    · simp only [next, Buffer.putUint64_eq, uint64_bytes, hbidx', hbuf']
      exact snoc_bytes xs x.value hw b h

theorem Inv.run (hi : Inv b h xs s) (items : List Integer) :
    Inv b h (xs ++ items.map Integer.value) (items.foldl (IntegerArray.step h) s) := by
  induction items generalizing xs s with
  | nil => simpa using hi
  | cons x items ih =>
    have hnext := ih (hi.step x)
    rw [List.append_assoc] at hnext
    exact hnext

end IntegerArray

theorem encodeArray_eq (items : List Integer) (b : Buffer) (start : Nat) :
    encodeArray items b start =
      ((arrayBytes (items.map Integer.value)).length,
        b.writeAll start ((arrayBytes (items.map Integer.value)).map some)) := by
  have hi : IntegerArray.Inv b (start + 4) [] ⟨b, start + 4 + 1, 4, 1⟩ := ⟨rfl, rfl, rfl, rfl⟩
  have hrun := hi.run items
  rw [List.nil_append] at hrun
  generalize hxs : items.map Integer.value = xs at hrun
  have hint := hrun.intlen
  have hbidx := hrun.bufferIdx
  have hbuf := hrun.buffer
  have hpos : 0 < width xs := by
    obtain ⟨-, hw⟩ | hw := width_cases xs <;> omega
  rw [encodeArray, encodeIntegerArray]
  by_cases hnil : xs = []
  · subst hnil
    simp only [List.length_nil, Nat.mul_zero, Nat.add_zero] at hbidx
    simp only [hbidx, if_true, hbuf, fillSize, Buffer.putDword_eq, arrayBytes]
    simp [content, Buffer.writeAll]
  · have hne : 0 < xs.length := List.length_pos_iff.mpr hnil
    have hmul := Nat.mul_pos hpos hne
    simp only [hbidx, hint, hbuf, arrayBytes, if_neg hnil]
    rw [if_neg (by omega)]
    simp only [fillSize, Buffer.putDword_eq, List.length_append, List.length_cons,
      littleEndian_length, content_length]
    rw [show start + 4 + 1 + width xs * xs.length - (start + 4) = width xs * xs.length + 1 by omega,
      Buffer.writeAll_put _ (by omega), Nat.add_comm 4]
    congr 1
    rw [List.map_append, Buffer.writeAll_append, List.length_map, littleEndian_length]
    exact Buffer.writeAll_comm b (some (UInt8.ofNat (width xs)) :: (content xs).map some) _
      (by rw [List.length_map, littleEndian_length])

theorem toDword_drop (xs : List Int) (rest : Bytes) (i : Nat) (hi : i < xs.length) :
    toDword ((xs.flatMap (littleEndian 4) ++ rest).drop (i * 4)) =
      (xs[i] % 4294967296).toNat := by
  induction xs generalizing i with
  | nil => cases hi
  | cons x xs ih =>
    rw [List.flatMap_cons, List.append_assoc]
    cases i with
    | zero => exact toDword_littleEndian x _
    | succ i =>
      rw [Nat.succ_mul, Nat.add_comm, ← List.drop_drop, List.drop_left' (littleEndian_length 4 x)]
      exact ih i (Nat.lt_of_succ_lt_succ hi)

theorem halves_drop (xs : List Int) (rest : Bytes) (i : Nat) (hi : i < xs.length) :
    toDword ((xs.flatMap (littleEndian 8) ++ rest).drop (i * 8)) = (xs[i] % 4294967296).toNat ∧
      toDword ((xs.flatMap (littleEndian 8) ++ rest).drop (i * 8 + 4)) =
        (xs[i] / 4294967296 % 4294967296).toNat := by
  induction xs generalizing i with
  | nil => cases hi
  | cons x xs ih =>
    rw [List.flatMap_cons, List.append_assoc]
    cases i with
    | zero =>
      rw [littleEndian_halves, List.append_assoc]
      constructor
      · exact toDword_littleEndian x _
      · rw [List.drop_left' (littleEndian_length 4 x)]
        exact toDword_littleEndian _ _
    | succ i =>
      rw [Nat.succ_mul, Nat.add_comm (i * 8) 8, Nat.add_assoc, ← List.drop_drop,
        List.drop_left' (littleEndian_length 8 x), ← List.drop_drop,
        List.drop_left' (littleEndian_length 8 x)]
      exact ih i (Nat.lt_of_succ_lt_succ hi)

theorem int64_eq (x : Int) :
    int64 (x % 4294967296).toNat (x / 4294967296 % 4294967296).toNat = readWide x := by
  have hsign := and_bit (x / 4294967296 % 4294967296).toNat 31
  simp only [Nat.reduceShiftLeft] at hsign
  have hu : (x / 4294967296 % 4294967296).toNat <<< 32 ||| (x % 4294967296).toNat =
      (x % 18446744073709551616).toNat := by
    rw [Nat.or_comm, or_shift (by simp; omega), Nat.shiftLeft_eq]
    omega
  simp only [int64, readWide, hu]
  by_cases h : 9223372036854775808 ≤ x % 18446744073709551616
  · rw [if_pos h, if_pos (hsign.mpr (by omega))]
    congr 1
    omega
  · rw [if_neg h, if_neg (mt hsign.mp (by omega))]
    split
    · rw [if_pos (by omega)]
      congr 1
      omega
    · rw [if_neg (by omega)]
      congr 1
      omega

theorem readWide_value (x : Int) : (readWide x).value = x.bmod 18446744073709551616 := by
  rw [Int.bmod_def]
  simp only [readWide]
  split
  · simp only [Integer.value]
    omega
  · split
    · simp only [Integer.value]
      omega
    · simp only [Integer.value]
      omega

theorem decodeArray_bytes (xs : List Int) (rest : Bytes) (h : 8 * xs.length + 1 < 4294967296) :
    decodeArray (arrayBytes xs ++ rest) = some (xs.map (readItem xs)) := by
  have hw : width xs ≤ 8 := by
    obtain ⟨-, hw⟩ | hw := width_cases xs <;> omega
  have hmul := Nat.mul_le_mul_right xs.length hw
  by_cases hnil : xs = []
  · subst hnil
    rw [decodeArray, arrayBytes, List.append_assoc, toDword_littleEndian]
    rfl
  · have hsz : toDword (arrayBytes xs ++ rest) = width xs * xs.length + 1 := by
      rw [arrayBytes, List.append_assoc, toDword_littleEndian, if_neg hnil, List.length_cons,
        content_length]
      omega
    have hdrop : (arrayBytes xs ++ rest).drop 4 =
        UInt8.ofNat (width xs) :: (content xs ++ rest) := by
      rw [arrayBytes, List.append_assoc, List.drop_left' (littleEndian_length 4 _), if_neg hnil]
      rfl
    rw [decodeArray, hsz, if_neg (by omega), hdrop]
    simp only [List.drop_succ_cons, List.drop_zero, Nat.add_sub_cancel]
    obtain ⟨hall, hw⟩ | hw := width_cases xs
    · have hlen : byteAt (UInt8.ofNat 4 :: (content xs ++ rest)) 0 = 4 := rfl
      rw [hw, if_pos hlen, if_neg (by omega), Nat.mul_div_cancel_left _ (by decide)]
      congr 1
      apply List.ext_getElem
      · simp
      · intro i hi _
        rw [List.length_map, List.length_range] at hi
        have hx := small_iff.mp (List.all_eq_true.mp hall xs[i] (List.getElem_mem hi))
        rw [List.getElem_map, List.getElem_range, content, hw, toDword_drop xs rest i hi,
          expand64_eq _ hx.1 hx.2, List.getElem_map, readItem, if_pos hall]
    · have hlen : byteAt (UInt8.ofNat 8 :: (content xs ++ rest)) 0 = 8 := rfl
      have hall : ¬ xs.all small = true := by
        intro hall
        rw [width, if_pos hall] at hw
        omega
      rw [hw, hlen, if_neg (by decide), if_pos rfl, if_neg (by omega),
        Nat.mul_div_cancel_left _ (by decide)]
      congr 1
      apply List.ext_getElem
      · simp
      · intro i hi _
        rw [List.length_map, List.length_range] at hi
        obtain ⟨hlow, hhigh⟩ := halves_drop xs rest i hi
        rw [List.getElem_map, List.getElem_range, content, hw, hlow, hhigh, int64_eq,
          List.getElem_map, readItem, if_neg hall]

/-- Whatever the mixture of small and large integers, and wherever the array is written: the bytes
are written without a gap, nothing else is touched, and reading them gives the same integers, those
beyond 64 bits cut to them. -/
theorem decodeArray_encodeArray (items : List Integer) (b : Buffer) (start : Nat) (rest : Bytes)
    (h : 8 * items.length + 1 < 4294967296) :
    ∃ (e : Bytes) (back : List Integer),
      encodeArray items b start = (e.length, b.writeAll start (e.map some)) ∧
      decodeArray (e ++ rest) = some back ∧
      back.map Integer.value = items.map fun x => x.value.bmod 18446744073709551616 := by
  refine ⟨_, _, encodeArray_eq items b start, decodeArray_bytes _ rest ?_, ?_⟩
  · rwa [List.length_map]
  · rw [List.map_map, List.map_map]
    apply List.map_congr_left
    intro x hx
    simp only [Function.comp_apply, readItem]
    split
    · next hall =>
      have hsmall := small_iff.mp (List.all_eq_true.mp hall _ (List.mem_map_of_mem hx))
      show x.value = x.value.bmod 18446744073709551616
      rw [Int.bmod_def]
      omega
    · exact readWide_value _

theorem decodeArray_encodeArray_widened : ∃ (e : Bytes) (back : List Integer),
    encodeArray [.number (-5), .bigint 70067467908940524] {} 0 =
      (e.length, Buffer.writeAll {} 0 (e.map some)) ∧
    decodeArray (e ++ [7]) = some back ∧
    back.map Integer.value = [.number (-5), .bigint 70067467908940524].map fun x : Integer =>
      x.value.bmod 18446744073709551616 :=
  decodeArray_encodeArray [.number (-5), .bigint 70067467908940524] {} 0 [7] (by decide)

end Sdk

end Skyext
