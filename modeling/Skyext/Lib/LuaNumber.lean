import Mathlib

/-- A number of Lua: an integer of 64 bits or a float. -/
inductive LuaNumber
  | integer (i : Int)
  | float (f : Float)
  deriving DecidableEq

namespace LuaNumber

open Float.Model

def minInteger : Int := -2 ^ 63

def maxInteger : Int := 2 ^ 63 - 1

/-- The integer a float is equal to, in the range of integers. -/
def floatToInteger (f : Float) : Option Int :=
  match f.toModel.unpack with
  | .zero _ => some 0
  | .finite sign m e _ =>
    let d := 2 ^ (-e).toNat
    let i := sign.apply (m * 2 ^ e.toNat / d : Nat)
    if m * 2 ^ e.toNat % d = 0 ∧ minInteger ≤ i ∧ i ≤ maxInteger then some i else none
  | _ => none

def isNaN (f : Float) : Bool := f.toModel.isNaN

/-- `math.tointeger` of a number -/
def toInteger : LuaNumber → Option Int
  | integer i => some i
  | float f => floatToInteger f

/-- `==` of numbers -/
def equals : LuaNumber → LuaNumber → Bool
  | integer i, integer j => i = j
  | integer i, float f => floatToInteger f = some i
  | float f, integer i => floatToInteger f = some i
  | float f, float g => f == g

/-- Floats that compare equal are the same float or two zeros. -/
theorem unpack_of_beq {a b : UnpackedFloat} (h : a.beq b = true) :
    a = b ∨ ∃ s s', a = .zero s ∧ b = .zero s' := by
  obtain ⟨_, _, he | ⟨ha, hb⟩ | ⟨ha, hb⟩⟩ :=
    (UnpackedFloat.beq_iff_ne_notANumber_and_eq a b).mp h
  · exact .inl he
  · exact .inr ⟨_, _, ha, hb⟩
  · exact .inr ⟨_, _, ha, hb⟩

theorem equals_comm (x y : LuaNumber) : x.equals y = y.equals x := by
  cases x with
  | integer i =>
    cases y with
    | integer j => exact decide_eq_decide.mpr eq_comm
    | float f => rfl
  | float f =>
    cases y with
    | integer j => rfl
    | float g => exact BEq.comm

theorem equals_integer (x : LuaNumber) (i : Int) :
    x.equals (integer i) = decide (x.toInteger = some i) := by
  cases x with
  | integer j => simp only [equals, toInteger, Option.some.injEq]
  | float f => rfl

theorem equals_toInteger {x y : LuaNumber} (h : x.equals y = true) :
    x.toInteger = y.toInteger := by
  cases x with
  | integer i =>
    cases y with
    | integer j => rw [of_decide_eq_true h]
    | float f => exact (of_decide_eq_true h).symm
  | float f =>
    cases y with
    | integer j => exact of_decide_eq_true h
    | float g =>
      have hb : f.toModel.unpack.beq g.toModel.unpack = true := h
      simp only [toInteger, floatToInteger]
      rcases unpack_of_beq hb with he | ⟨s, s', hf, hg⟩
      · rw [he]
      · rw [hf, hg]

end LuaNumber
