import Skyext.Sdk.Pack

namespace Skyext
set_option autoImplicit true

namespace Sdk

/-- One bit for each byte that is not zero, the first the lowest. -/
def headerOf : Bytes → Nat
  | [] => 0
  | x :: xs => (if x ≠ 0 then 1 else 0) + 2 * headerOf xs

def nonzero (s : Bytes) : Bytes := s.filter fun x => x ≠ 0

/-- What a packed message consists of: eight bytes by their header and those that are not zero, or
a run of up to 256 times eight bytes as they are. -/
inductive Block
  | seg (s : Bytes) (eight : s.length = 8) (zero : 0 ∈ s)
  | run (s : Bytes) (n : Nat) (pos : 1 ≤ n) (le : n ≤ 256) (eight : s.length = 8 * n)

namespace Block

def plain : Block → Bytes
  | seg s _ _ => s
  | run s _ _ _ _ => s

def encode : Block → Bytes
  | seg s _ _ => UInt8.ofNat (headerOf s) :: nonzero s
  | run s n _ _ _ => 0xff :: UInt8.ofNat (n - 1) :: s

def plainAll (bs : List Block) : Bytes := bs.flatMap plain

def encodeAll (bs : List Block) : Bytes := bs.flatMap encode

@[simp]
theorem plainAll_append (bs cs : List Block) : plainAll (bs ++ cs) = plainAll bs ++ plainAll cs :=
  List.flatMap_append

@[simp]
theorem encodeAll_append (bs cs : List Block) :
    encodeAll (bs ++ cs) = encodeAll bs ++ encodeAll cs :=
  List.flatMap_append

@[simp]
theorem plainAll_singleton (b : Block) : plainAll [b] = b.plain := List.append_nil _

@[simp]
theorem encodeAll_singleton (b : Block) : encodeAll [b] = b.encode := List.append_nil _

end Block

theorem headerOf_lt (s : Bytes) : headerOf s < 1 <<< s.length := by
  rw [Nat.one_shiftLeft]
  induction s with
  | nil => exact Nat.one_pos
  | cons x xs ih =>
    rw [headerOf, List.length_cons, Nat.pow_succ]
    split <;> omega

theorem headerOf_zero (h : 0 ∈ s) : headerOf s + 1 < 1 <<< s.length := by
  rw [Nat.one_shiftLeft]
  induction s with
  | nil => cases h
  | cons x xs ih =>
    have hlt := headerOf_lt xs
    rw [Nat.one_shiftLeft] at hlt
    rw [headerOf, List.length_cons, Nat.pow_succ]
    by_cases hx : x = 0
    · rw [if_neg (not_not_intro hx)]
      omega
    · have := ih (List.mem_of_ne_of_mem (Ne.symm hx) h)
      rw [if_pos hx]
      omega

theorem headerOf_append (s : Bytes) (x : UInt8) :
    headerOf (s ++ [x]) = headerOf s + if x ≠ 0 then 1 <<< s.length else 0 := by
  rw [Nat.one_shiftLeft]
  induction s with
  | nil => by_cases hx : x = 0 <;> simp [headerOf, hx]
  | cons y ys ih =>
    rw [List.cons_append, headerOf, ih, headerOf, List.length_cons, Nat.pow_succ]
    split <;> split <;> omega

theorem headerOf_or (s : Bytes) (x : UInt8) (hx : x ≠ 0) :
    headerOf s ||| 1 <<< s.length = headerOf (s ++ [x]) := by
  have hlt := headerOf_lt s
  rw [headerOf_append, if_pos hx]
  rw [Nat.one_shiftLeft] at hlt ⊢
  have h := Nat.two_pow_add_eq_or_of_lt hlt 1
  rw [Nat.mul_one] at h
  rw [Nat.or_comm, ← h, Nat.add_comm]

theorem headerOf_shift (s : Bytes) (i : Nat) : headerOf s >>> i = headerOf (s.drop i) := by
  induction i generalizing s with
  | zero => rfl
  | succ i ih =>
    cases s with
    | nil => simp [headerOf]
    | cons x xs =>
      rw [List.drop_succ_cons, ← ih, Nat.add_comm, Nat.shiftRight_add, headerOf]
      congr 1
      rw [Nat.shiftRight_eq_div_pow]
      split <;> omega

theorem nonzero_append (s t : Bytes) : nonzero (s ++ t) = nonzero s ++ nonzero t :=
  List.filter_append ..

theorem nonzero_cons (x : UInt8) (s : Bytes) :
    nonzero (x :: s) = if x ≠ 0 then x :: nonzero s else nonzero s := by
  by_cases hx : x = 0
  · rw [if_neg (not_not_intro hx), nonzero, List.filter_cons_of_neg (by simp [hx])]
    rfl
  · rw [if_pos hx, nonzero, List.filter_cons_of_pos (by simp [hx])]
    rfl

namespace Unpack

theorem headerOf_cons_odd (x : UInt8) (s : Bytes) :
    headerOf (x :: s) &&& 1 ≠ 0 ↔ x ≠ 0 := by
  rw [Nat.and_one_is_mod, headerOf]
  by_cases hx : x = 0
  · rw [if_neg (not_not_intro hx)]
    exact iff_of_false (by omega) (not_not_intro hx)
  · rw [if_pos hx]
    exact iff_of_true (by omega) hx

theorem headerOf_tail {header i : Nat} (h : header >>> i = headerOf (x :: s)) :
    header >>> (i + 1) = headerOf s := by
  rw [Nat.shiftRight_add, h]
  exact headerOf_shift (x :: s) 1

theorem bit_zero {bufsz : Int} (hh : header >>> i = headerOf (0 :: s)) (src : Bytes) (srcsz : Int)
    (hroom : 0 < bufsz) (buffer : List (Option UInt8)) :
    bit header ⟨src, srcsz, bufsz, buffer⟩ i =
      .ok ⟨src, srcsz, bufsz - 1, buffer ++ [some 0]⟩ := by
  have hbit : ¬ (header >>> i) &&& 1 ≠ 0 := by
    rw [hh, headerOf_cons_odd]
    exact not_not_intro rfl
  rw [bit, if_neg hbit]
  exact congrArg Except.ok (if_pos hroom)

theorem bit_one {bufsz : Int} (hh : header >>> i = headerOf (x :: s)) (hx : x ≠ 0) (src : Bytes)
    (hroom : 0 < bufsz) (buffer : List (Option UInt8)) :
    bit header ⟨x :: src, (x :: src).length, bufsz, buffer⟩ i =
      .ok ⟨src, src.length, bufsz - 1, buffer ++ [some x]⟩ := by
  have hbit : (header >>> i) &&& 1 ≠ 0 := by
    rw [hh, headerOf_cons_odd]
    exact hx
  have hlen : ((x :: src).length : Int) - 1 = src.length := by
    rw [List.length_cons]
    omega
  rw [bit, if_pos hbit, if_neg (by simp only; omega), hlen, write, if_pos hroom]
  rfl

theorem bits (s rest : Bytes) (header i : Nat) (bufsz : Int) (buffer : List (Option UInt8))
    (hh : header >>> i = headerOf s) (hbuf : s.length ≤ bufsz) :
    (List.range' i s.length).foldlM (bit header)
      ⟨nonzero s ++ rest, (nonzero s ++ rest).length, bufsz, buffer⟩ =
      .ok ⟨rest, rest.length, bufsz - s.length, buffer ++ s.map some⟩ := by
  induction s generalizing i bufsz buffer with
  | nil =>
    simp only [List.length_nil, List.range'_zero, List.foldlM_nil, List.map_nil, List.append_nil,
      Int.ofNat_zero, Int.sub_zero]
    rfl
  | cons x s ih =>
    rw [List.length_cons] at hbuf
    have hroom : 0 < bufsz := by omega
    have hsub : bufsz - 1 - s.length = bufsz - (x :: s).length := by
      rw [List.length_cons]
      omega
    have hih := ih (i + 1) (bufsz - 1) (buffer ++ [some x]) (headerOf_tail hh) (by omega)
    rw [List.append_assoc, hsub] at hih
    rw [List.length_cons, List.range'_succ, List.foldlM_cons, nonzero_cons]
    by_cases hx : x = 0
    · subst hx
      rw [if_neg (not_not_intro rfl), bit_zero hh _ _ hroom]
      exact hih
    · rw [if_pos hx, List.cons_append, bit_one hh hx _ hroom]
      exact hih

theorem loop_run (s : Bytes) (n : Nat) (hpos : 1 ≤ n) (hle : n ≤ 256) (hs : s.length = 8 * n)
    (rest : Bytes) (fuel : Nat) (bufsz : Int) (buffer : List (Option UInt8))
    (hbuf : s.length ≤ bufsz) :
    loop (fuel + 1) ⟨0xff :: UInt8.ofNat (n - 1) :: s ++ rest,
      (0xff :: UInt8.ofNat (n - 1) :: s ++ rest : Bytes).length, bufsz, buffer⟩ =
      loop fuel ⟨rest, rest.length, bufsz - s.length, buffer ++ s.map some⟩ := by
  have hn : ((UInt8.ofNat (n - 1)).toNat + 1) * 8 = s.length := by
    rw [UInt8.toNat_ofNat']
    omega
  simp only [loop, List.cons_append, List.length_cons, List.length_append, hn,
    List.take_left, List.drop_left]
  rw [if_pos (by omega), if_pos trivial, if_neg (by omega), if_pos hbuf]
  congr 2
  omega

theorem loop_seg (s : Bytes) (hs : s.length = 8) (hz : 0 ∈ s) (rest : Bytes) (fuel : Nat)
    (bufsz : Int) (buffer : List (Option UInt8)) (hbuf : s.length ≤ bufsz) :
    loop (fuel + 1) ⟨UInt8.ofNat (headerOf s) :: nonzero s ++ rest,
      (UInt8.ofNat (headerOf s) :: nonzero s ++ rest : Bytes).length, bufsz, buffer⟩ =
      loop fuel ⟨rest, rest.length, bufsz - s.length, buffer ++ s.map some⟩ := by
  have hlt := headerOf_zero hz
  rw [hs] at hlt
  have hn : (UInt8.ofNat (headerOf s)).toNat = headerOf s := by
    rw [UInt8.toNat_ofNat']
    omega
  have hne : UInt8.ofNat (headerOf s) ≠ 0xff := by
    intro he
    have := congrArg UInt8.toNat he
    rw [hn] at this
    simp at this
    omega
  have hsz : ((nonzero s ++ rest).length + 1 : Nat) - (1 : Int) = (nonzero s ++ rest).length := by
    omega
  have hbits := bits s rest (headerOf s) 0 bufsz buffer rfl hbuf
  rw [hs] at hbits
  simp only [loop, List.cons_append, List.length_cons, hsz, hn]
  rw [if_pos (by omega), if_neg hne, List.range_eq_range', hbits, hs]

/-- Blocks unpack to the bytes they were made for. -/
theorem loop_blocks (bs : List Block) (fuel : Nat) (hfuel : bs.length ≤ fuel) (bufsz : Int)
    (buffer : List (Option UInt8)) (hbuf : (Block.plainAll bs).length ≤ bufsz) :
    (loop fuel ⟨Block.encodeAll bs, (Block.encodeAll bs).length, bufsz, buffer⟩).buffer =
      buffer ++ (Block.plainAll bs).map some := by
  induction bs generalizing fuel bufsz buffer with
  | nil =>
    cases fuel with
    | zero => exact (List.append_nil _).symm
    | succ fuel => exact (List.append_nil _).symm
  | cons b bs ih =>
    obtain ⟨fuel, rfl⟩ : ∃ f, fuel = f + 1 := ⟨fuel - 1, by rw [List.length_cons] at hfuel; omega⟩
    have hplain : Block.plainAll (b :: bs) = b.plain ++ Block.plainAll bs := rfl
    have hencode : Block.encodeAll (b :: bs) = b.encode ++ Block.encodeAll bs := rfl
    rw [hplain, List.length_append] at hbuf
    have hfirst : (b.plain.length : Int) ≤ bufsz := by omega
    have hih := ih fuel (Nat.le_of_succ_le_succ hfuel) (bufsz - b.plain.length)
      (buffer ++ b.plain.map some) (by omega)
    rw [hplain, hencode, List.map_append, ← List.append_assoc, ← hih]
    cases b with
    | seg s hs hz => exact congrArg _ (loop_seg s hs hz _ fuel bufsz buffer hfirst)
    | run s n hpos hle hs => exact congrArg _ (loop_run s n hpos hle hs _ fuel bufsz buffer hfirst)

end Unpack

theorem Block.length_le (bs : List Block) : bs.length ≤ (Block.encodeAll bs).length := by
  induction bs with
  | nil => exact Nat.le_refl _
  | cons b bs ih =>
    have hencode : Block.encodeAll (b :: bs) = b.encode ++ Block.encodeAll bs := rfl
    have hb : 1 ≤ b.encode.length := by cases b <;> simp [Block.encode]
    rw [hencode, List.length_append, List.length_cons]
    omega

theorem unpack_encodeAll (bs : List Block) (h : (Block.plainAll bs).length ≤ 1073741824) :
    unpack (Block.encodeAll bs) = (Block.plainAll bs).map some :=
  Unpack.loop_blocks bs _ (Block.length_le bs) _ [] (by omega)

end Sdk

end Skyext
