import Skyext.Lib.Binary64
import Skyext.Lib.LuaNumber

namespace LuaNumber
open Binary64 (Representable value_add value_ofInt)

def toFloat : LuaNumber → Float
  | integer i => .ofModel (.ofInt i)
  | float f => f

/-- `+`, where integers wrap around -/
def add : LuaNumber → LuaNumber → LuaNumber
  | integer i, integer j => integer ((i + j).bmod (2 ^ 64))
  | x, y => float (x.toFloat + y.toFloat)

instance : Zero LuaNumber := ⟨integer 0⟩

instance : Add LuaNumber := ⟨add⟩

def value : LuaNumber → WithTop ℚ
  | integer i => ((i : ℚ) : WithTop ℚ)
  | float f => Binary64.value f

variable {S T : Multiset LuaNumber} {x y : LuaNumber}

def IsInteger (x : LuaNumber) : Prop := ∃ i, x = integer i

def whole : LuaNumber → Nat
  | integer i => i.natAbs
  | float _ => 0

/-- What numbers may add up to, in any order and grouping. -/
inductive Sums : Multiset LuaNumber → LuaNumber → Prop
  | zero : Sums 0 0
  | single (x : LuaNumber) : Sums {x} x
  | add {S T : Multiset LuaNumber} {x y : LuaNumber} : Sums S x → Sums T y → Sums (S + T) (x + y)

/-- The integers do not overflow; with a float, all are multiples of one power of two and together
fewer than `2 ^ 53` of them. -/
structure Addable (S : Multiset LuaNumber) : Prop where
  wholes : (S.map whole).sum < 2 ^ 63
  units : (∀ x ∈ S, x.IsInteger) ∨ ∃ (e : ℤ) (units : LuaNumber → ℤ), -1074 ≤ e ∧ e ≤ 971 ∧
    (∀ x ∈ S, x.value = ((units x * 2 ^ e : ℚ) : WithTop ℚ)) ∧
    (S.map fun x => (units x).natAbs).sum < 2 ^ 53

theorem integer_add (i j : ℤ) : integer i + integer j = integer ((i + j).bmod (2 ^ 64)) := rfl

theorem add_float {x y : LuaNumber} (h : ¬ (x.IsInteger ∧ y.IsInteger)) :
    x + y = float (x.toFloat + y.toFloat) := by
  cases x with
  | float f => rfl
  | integer i =>
    cases y with
    | float g => rfl
    | integer j => exact absurd ⟨⟨i, rfl⟩, j, rfl⟩ h

theorem Addable.mono (h : Addable S) (hle : T ≤ S) : Addable T := by
  obtain ⟨U, rfl⟩ := Multiset.le_iff_exists_add.mp hle
  obtain ⟨hw, hu⟩ := h
  rw [Multiset.map_add, Multiset.sum_add] at hw
  refine ⟨by omega, ?_⟩
  rcases hu with hall | ⟨e, units, he, he', hvalue, hsum⟩
  · exact .inl fun x hx => hall x (Multiset.mem_add.mpr (.inl hx))
  · rw [Multiset.map_add, Multiset.sum_add] at hsum
    exact .inr ⟨e, units, he, he', fun x hx => hvalue x (Multiset.mem_add.mpr (.inl hx)), by omega⟩

theorem Sums.isInteger (h : Sums S x) (hx : x.IsInteger) : ∀ y ∈ S, y.IsInteger := by
  induction h with
  | zero => simp
  | single x =>
    intro y hy
    rwa [Multiset.mem_singleton.mp hy]
  | @add S T x y _ _ ihx ihy =>
    by_cases hboth : x.IsInteger ∧ y.IsInteger
    · intro z hz
      rcases Multiset.mem_add.mp hz with hz | hz
      · exact ihx hboth.1 z hz
      · exact ihy hboth.2 z hz
    · rw [add_float hboth] at hx
      obtain ⟨i, hi⟩ := hx
      cases hi

theorem Sums.integers (h : Sums S x) (hall : ∀ y ∈ S, y.IsInteger)
    (hw : (S.map whole).sum < 2 ^ 63) :
    ∃ n : ℤ, x = integer n ∧ n.natAbs ≤ (S.map whole).sum ∧
      (S.map value).sum = ((n : ℚ) : WithTop ℚ) := by
  induction h with
  | zero => exact ⟨0, rfl, by simp, by simp⟩
  | single x =>
    obtain ⟨i, rfl⟩ := hall x (Multiset.mem_singleton_self x)
    exact ⟨i, rfl, by simp [whole], by simp [value]⟩
  | @add S T x y _ _ ihx ihy =>
    rw [Multiset.map_add, Multiset.sum_add] at hw
    obtain ⟨i, rfl, hi, hsi⟩ := ihx (fun z hz => hall z (Multiset.mem_add.mpr (.inl hz))) (by omega)
    obtain ⟨j, rfl, hj, hsj⟩ := ihy (fun z hz => hall z (Multiset.mem_add.mpr (.inr hz))) (by omega)
    have hmod : (i + j).bmod (2 ^ 64) = i + j := Int.bmod_eq_of_le (by omega) (by omega)
    refine ⟨i + j, ?_, ?_, ?_⟩
    · rw [integer_add, hmod]
    · rw [Multiset.map_add, Multiset.sum_add]
      omega
    · rw [Multiset.map_add, Multiset.sum_add, hsi, hsj]
      push_cast
      rfl

theorem sum_value {units : LuaNumber → ℤ} {e : ℤ}
    (h : ∀ x ∈ S, x.value = ((units x * 2 ^ e : ℚ) : WithTop ℚ)) :
    (S.map value).sum = (((S.map units).sum * 2 ^ e : ℚ) : WithTop ℚ) := by
  induction S using Multiset.induction_on with
  | empty => simp
  | cons x S ih =>
    have hx := h x (Multiset.mem_cons_self x S)
    have hs := ih fun y hy => h y (Multiset.mem_cons_of_mem hy)
    rw [Multiset.map_cons, Multiset.sum_cons, hx, hs, Multiset.map_cons, Multiset.sum_cons,
      ← WithTop.coe_add, ← add_mul]
    push_cast
    rfl

theorem natAbs_sum_le (S : Multiset LuaNumber) (units : LuaNumber → ℤ) :
    (S.map units).sum.natAbs ≤ (S.map fun x => (units x).natAbs).sum := by
  induction S using Multiset.induction_on with
  | empty => simp
  | cons x S ih =>
    simp only [Multiset.map_cons, Multiset.sum_cons]
    omega

theorem value_toFloat {x : LuaNumber} {q : ℚ} (h : x.value = q) (hq : Representable q) :
    Binary64.value x.toFloat = q := by
  cases x with
  | float f => exact h
  | integer i =>
    obtain rfl : (i : ℚ) = q := WithTop.coe_injective h
    exact value_ofInt hq

/-- No sum of multiples of a power of two is rounded while there are fewer than `2 ^ 53`. -/
theorem Sums.unrounded {units : LuaNumber → ℤ} {e : ℤ} (h : Sums S x) (he : -1074 ≤ e)
    (he' : e ≤ 971) (hw : (S.map whole).sum < 2 ^ 63)
    (hvalue : ∀ y ∈ S, y.value = ((units y * 2 ^ e : ℚ) : WithTop ℚ))
    (hsum : (S.map fun y => (units y).natAbs).sum < 2 ^ 53) :
    x.value = (((S.map units).sum * 2 ^ e : ℚ) : WithTop ℚ) := by
  induction h with
  | zero =>
    change (((0 : ℤ) : ℚ) : WithTop ℚ) = _
    simp
  | single x => simpa using hvalue x (Multiset.mem_singleton_self x)
  | @add S T x y hx hy ihx ihy =>
    by_cases hboth : x.IsInteger ∧ y.IsInteger
    · have hxy : (x + y).IsInteger := by
        obtain ⟨⟨i, rfl⟩, j, rfl⟩ := hboth
        exact ⟨_, integer_add i j⟩
      obtain ⟨n, hn, _, hs⟩ := (hx.add hy).integers ((hx.add hy).isInteger hxy) hw
      rw [← sum_value hvalue, hs, hn]
      rfl
    · have hfew := (natAbs_sum_le (S + T) units).trans_lt hsum
      have hsx := natAbs_sum_le S units
      have hsy := natAbs_sum_le T units
      simp only [Multiset.map_add, Multiset.sum_add] at hw hsum hfew ⊢
      have hvx := ihx (by omega) (fun z hz => hvalue z (Multiset.mem_add.mpr (.inl hz))) (by omega)
      have hvy := ihy (by omega) (fun z hz => hvalue z (Multiset.mem_add.mpr (.inr hz))) (by omega)
      have hrep : ∀ n : ℤ, n.natAbs < 2 ^ 53 → Representable (n * 2 ^ e) :=
        fun n hn => ⟨n, e, by rw [Int.abs_eq_natAbs]; omega, he, he', rfl⟩
      have hsplit : ((((S.map units).sum + (T.map units).sum : ℤ) : ℚ) * 2 ^ e) =
          (S.map units).sum * 2 ^ e + (T.map units).sum * 2 ^ e := by
        rw [Int.cast_add, add_mul]
      rw [add_float hboth, hsplit]
      refine value_add (value_toFloat hvx (hrep _ (by omega)))
        (value_toFloat hvy (hrep _ (by omega))) ?_
      rw [← hsplit]
      exact hrep _ hfew

theorem Sums.value (h : Sums S x) (ha : Addable S) : x.value = (S.map LuaNumber.value).sum := by
  obtain ⟨hw, hall | ⟨e, units, he, he', hvalue, hsum⟩⟩ := ha
  · obtain ⟨n, rfl, _, hs⟩ := h.integers hall hw
    exact hs.symm
  · rw [sum_value hvalue]
    exact h.unrounded he he' hw hvalue hsum

/-- A number with those it is a sum of. -/
structure Traced where
  number : LuaNumber
  parts : Multiset LuaNumber
  sums : Sums parts number

namespace Traced

def one (x : LuaNumber) : Traced := ⟨x, {x}, .single x⟩

instance : Zero Traced := ⟨⟨0, 0, .zero⟩⟩

instance : Add Traced := ⟨fun s t => ⟨s.number + t.number, s.parts + t.parts, s.sums.add t.sums⟩⟩

theorem number_add (s t : Traced) : (s + t).number = s.number + t.number := rfl

theorem parts_add (s t : Traced) : (s + t).parts = s.parts + t.parts := rfl

end Traced
end LuaNumber
