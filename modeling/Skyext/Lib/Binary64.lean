import Mathlib

namespace Binary64
set_option autoImplicit true

open Float.Model (Format totalExponent UnpackedFloat)
open Float.Model.UnpackedFloat

def amount : UnpackedFloat → WithTop ℚ
  | .zero _ => 0
  | .finite sign m e _ => ((sign.apply m * 2 ^ e : ℚ) : WithTop ℚ)
  | _ => ⊤

def value (f : Float) : WithTop ℚ := amount f.toModel.unpack

/-- At most 53 bits, with an exponent in range. -/
def Representable (q : ℚ) : Prop :=
  ∃ j e : ℤ, |j| < 2 ^ 53 ∧ -1074 ≤ e ∧ e ≤ 971 ∧ q = j * 2 ^ e

/-- The form that packing keeps. -/
def Rounded : UnpackedFloat → Prop
  | .finite _ m e _ => e = Format.binary64.targetExponent (totalExponent m e) ∧ e ≤ 971
  | _ => True

theorem targetExponent_eq (n : ℤ) :
    Format.binary64.targetExponent n = max (n - 53) (-1074) := rfl

theorem shiftRight_exact (m k : Nat) :
    (⟨m * 2 ^ k, false, false⟩ : ExtendedMantissa) >>> k = ⟨m, false, false⟩ := by
  change Nat.repeat ExtendedMantissa.shiftRightOne k ⟨m * 2 ^ k, false, false⟩ = _
  induction k generalizing m with
  | zero => simp [Nat.repeat]
  | succ k ih =>
    rw [Nat.repeat, Nat.pow_succ', ← Nat.mul_assoc, ih (m * 2)]
    simp [ExtendedMantissa.shiftRightOne]

theorem log2_mul_two_pow {m : Nat} (hm : 0 < m) (k : Nat) : (m * 2 ^ k).log2 = m.log2 + k := by
  induction k with
  | zero => simp
  | succ k ih =>
    have hne : m * 2 ^ k ≠ 0 := Nat.mul_ne_zero hm.ne' (Nat.two_pow_pos k).ne'
    rw [Nat.pow_succ', Nat.mul_left_comm, Nat.log2_two_mul hne, ih, Nat.add_assoc]

/-- Bits that are zero are shifted out without rounding. -/
theorem roundWithAccuracy_exact (s : Sign) {m : Nat} (hm : 0 < m) {t : ℤ}
    (ht : t = Format.binary64.targetExponent (totalExponent m t)) (k : Nat) :
    roundWithAccuracy Format.binary64 s (m * 2 ^ k) (t - k) .exact = .finite s m t hm := by
  have htotal : totalExponent (m * 2 ^ k) (t - k) = totalExponent m t := by
    rw [totalExponent, totalExponent, log2_mul_two_pow hm]
    push_cast
    omega
  have hk : (t - (t - k)).toNat = k := by omega
  have hzero : (t - t).toNat = 0 := by omega
  have hshift := shiftRight_exact m 0
  rw [Nat.pow_zero, Nat.mul_one] at hshift
  simp only [roundWithAccuracy, shiftToTargetExponent, shiftToExponent, htotal, ← ht, hk,
    ExtendedMantissa.ofMantissaAndAccuracy, shiftRight_exact, ExtendedMantissa.roundedMantissa,
    ExtendedMantissa.accuracy, Accuracy.roundToNearestEven, Int.sub_add_cancel, hzero, hshift,
    hm.ne', dite_false]
  simp

theorem mantissa_eq {n m d : Nat} {t : ℤ} (h : (n * 2 ^ (t + d) : ℚ) = m * 2 ^ t) :
    n * 2 ^ d = m := by
  have hpos : (2 : ℚ) ^ t ≠ 0 := by positivity
  rw [zpow_add₀ two_ne_zero, zpow_natCast, mul_comm ((2 : ℚ) ^ t), ← mul_assoc] at h
  exact_mod_cast mul_right_cancel₀ hpos h

theorem round_exact (s : Sign) {n m : Nat} (hm : 0 < m) {e t : ℤ}
    (ht : t = Format.binary64.targetExponent (totalExponent m t))
    (h : (n * 2 ^ e : ℚ) = m * 2 ^ t) :
    UnpackedFloat.round Format.binary64 s n e = .finite s m t hm := by
  rcases le_total t e with hle | hle
  · obtain ⟨d, rfl⟩ := Int.le.dest hle
    have hn := mantissa_eq h
    have hpos : 0 < n := Nat.pos_of_mul_pos_right (hn ▸ hm)
    have htotal : totalExponent n (t + d) = totalExponent m t := by
      rw [← hn, totalExponent, totalExponent, log2_mul_two_pow hpos]
      push_cast
      omega
    have hd : (t + d - t).toNat = d := by omega
    have hround := roundWithAccuracy_exact s hm ht 0
    simp only [UnpackedFloat.round, htotal, ← ht, decreaseExponent, hd, Nat.shiftLeft_eq, hn]
    simpa using hround
  · obtain ⟨d, rfl⟩ := Int.le.dest hle
    have hn := mantissa_eq h.symm
    have htotal : totalExponent n e = totalExponent m (e + d) := by
      rw [← hn, totalExponent, totalExponent, log2_mul_two_pow hm]
      push_cast
      omega
    have hd : (e - (e + d)).toNat = 0 := by omega
    have hround := roundWithAccuracy_exact s hm ht d
    rw [hn, Int.add_sub_cancel] at hround
    simp only [UnpackedFloat.round, htotal, ← ht, decreaseExponent, hd, Nat.shiftLeft_zero]
    simpa using hround

theorem Representable.neg (h : Representable q) : Representable (-q) := by
  obtain ⟨j, e, hj, he, he', rfl⟩ := h
  exact ⟨-j, e, by rwa [abs_neg], he, he', by push_cast; ring⟩

theorem Representable.rounded (h : Representable q) (hpos : 0 < q) :
    ∃ (m : Nat) (t : ℤ), 0 < m ∧ t = Format.binary64.targetExponent (totalExponent m t) ∧
      t ≤ 971 ∧ q = m * 2 ^ t := by
  obtain ⟨j, e, hj, he, he', rfl⟩ := h
  have hj0 : 0 < j := by
    have htwo : (0 : ℚ) < 2 ^ e := by positivity
    exact_mod_cast (mul_pos_iff_of_pos_right htwo).mp hpos
  obtain ⟨n, rfl⟩ := Int.eq_ofNat_of_zero_le hj0.le
  have hn : 0 < n := by omega
  have hlt : n < 2 ^ 53 := by
    rw [abs_of_pos hj0] at hj
    exact_mod_cast hj
  have hlog : n.log2 < 53 := (Nat.log2_lt hn.ne').mpr hlt
  obtain ⟨d, hd⟩ : ∃ d : Nat, Format.binary64.targetExponent (totalExponent n e) + d = e := by
    refine Int.le.dest ?_
    rw [targetExponent_eq, totalExponent]
    omega
  refine ⟨n * 2 ^ d, Format.binary64.targetExponent (totalExponent n e), by positivity,
    ?_, ?_, ?_⟩
  · have htotal : totalExponent (n * 2 ^ d)
        (Format.binary64.targetExponent (totalExponent n e)) = totalExponent n e := by
      rw [totalExponent, totalExponent, log2_mul_two_pow hn]
      rw [totalExponent] at hd
      push_cast
      omega
    rw [htotal]
  · omega
  · conv_lhs => rw [← hd, zpow_add₀ two_ne_zero, zpow_natCast]
    push_cast
    ring

theorem normalize_exact {m e : ℤ} (h : Representable (m * 2 ^ e)) :
    amount (UnpackedFloat.normalize Format.binary64 m e .positive) =
        ((m * 2 ^ e : ℚ) : WithTop ℚ) ∧
      Rounded (UnpackedFloat.normalize Format.binary64 m e .positive) := by
  have htwo : (0 : ℚ) < 2 ^ e := by positivity
  rcases Int.lt_trichotomy m 0 with hneg | rfl | hpos
  · obtain ⟨n, hn⟩ := Int.eq_ofNat_of_zero_le (Int.neg_nonneg.mpr hneg.le)
    obtain rfl : m = -n := by omega
    have hn0 : (0 : ℚ) < n * 2 ^ e := mul_pos (by exact_mod_cast (by omega : (0 : ℤ) < n)) htwo
    have hrep : Representable (n * 2 ^ e) := by simpa using h.neg
    obtain ⟨k, t, hk, ht, ht', heq⟩ := hrep.rounded hn0
    have hcompare : compare (-n : ℤ) 0 = .lt := Int.compare_eq_lt.mpr hneg
    have hround := round_exact .negative hk ht heq
    simp only [UnpackedFloat.normalize, hcompare, neg_neg, Int.toNat_natCast, hround, amount,
      Rounded]
    refine ⟨?_, ht, ht'⟩
    simp [Sign.apply, ← heq]
  · simp [UnpackedFloat.normalize, amount, Rounded]
  · obtain ⟨n, rfl⟩ := Int.eq_ofNat_of_zero_le hpos.le
    have hn0 : (0 : ℚ) < n * 2 ^ e := mul_pos (by exact_mod_cast hpos) htwo
    obtain ⟨k, t, hk, ht, ht', heq⟩ := Representable.rounded (by exact_mod_cast h) hn0
    have hcompare : compare (n : ℤ) 0 = .gt := Int.compare_eq_gt.mpr hpos
    have hround := round_exact .positive hk ht heq
    simp only [UnpackedFloat.normalize, hcompare, Int.toNat_natCast, hround, amount, Rounded]
    refine ⟨?_, ht, ht'⟩
    simp [Sign.apply, ← heq]

theorem normal_mantissa (m : BitVec 52) : (1#1 ++ m).toNat = 2 ^ 52 + m.toNat := by
  rw [BitVec.toNat_append, ← Nat.shiftLeft_add_eq_or_of_lt m.isLt]
  rfl

theorem unpack_normal (s : Sign) {m : Nat} (hm : 0 < m) (hlog : m.log2 = 52) {e : ℤ}
    (he : -1074 ≤ e) (he' : e ≤ 971) :
    unpack Format.binary64 (packComponents Format.binary64 s (BitVec.ofNat 11 (e + 1075).toNat)
      (BitVec.ofNat 52 m)) = .finite s m e hm := by
  have hge : 2 ^ 52 ≤ m := by
    rw [← hlog]
    exact Nat.log2_self_le hm.ne'
  have hlt : m < 2 ^ 53 := (Nat.log2_lt hm.ne').mp (by omega)
  have hexp : (BitVec.ofNat 11 (e + 1075).toNat).toNat = (e + 1075).toNat :=
    Nat.mod_eq_of_lt (by omega)
  have hmant : (BitVec.ofNat 52 m).toNat = m - 2 ^ 52 := by
    rw [BitVec.toNat_ofNat]
    omega
  have hinf : BitVec.ofNat 11 (e + 1075).toNat ≠ -1#_ := by
    intro heq
    have hnat : _ = 2047 := congrArg BitVec.toNat heq
    omega
  have hzero : BitVec.ofNat 11 (e + 1075).toNat ≠ 0#_ := by
    intro heq
    have hnat : _ = 0 := congrArg BitVec.toNat heq
    omega
  simp only [unpack, unpackMantissa_packComponents, unpackExponent_packComponents,
    unpackSign_packComponents, Sign.ofBitVec_toBitVec, if_neg hinf, if_neg hzero, finite.injEq,
    true_and]
  constructor
  · rw [normal_mantissa, hmant]
    omega
  · rw [hexp]
    change _ - (1023 + 52 : ℤ) = _
    omega

theorem unpack_subnormal (s : Sign) {m : Nat} (hm : 0 < m) (hlt : m < 2 ^ 52) :
    unpack Format.binary64 (packComponents Format.binary64 s 0#11 (BitVec.ofNat 52 m)) =
      .finite s m (-1074) hm := by
  have hmant : (BitVec.ofNat 52 m).toNat = m := Nat.mod_eq_of_lt hlt
  have hne : BitVec.ofNat 52 m ≠ 0#_ := by
    intro heq
    exact hm.ne' (hmant.symm.trans (congrArg BitVec.toNat heq))
  have hinf : 0#11 ≠ -1#_ := by decide
  simp only [unpack, unpackMantissa_packComponents, unpackExponent_packComponents,
    unpackSign_packComponents, Sign.ofBitVec_toBitVec, if_neg hinf, dif_neg hne, if_true,
    finite.injEq, true_and]
  exact ⟨hmant, rfl⟩

theorem unpack_pack_rounded {x : UnpackedFloat} (h : Rounded x) :
    unpack Format.binary64 (pack Format.binary64 x) = x := by
  cases x with
  | notANumber => rfl
  | infinity s => cases s <;> rfl
  | zero s => cases s <;> rfl
  | finite s m e hm =>
    obtain ⟨he, he'⟩ := h
    rw [targetExponent_eq, totalExponent] at he
    have hbias : e + Format.binary64.exponentBias + Format.binary64.mantissaBitsWithoutImplicit =
        e + 1075 := by
      change e + 1023 + 52 = _
      omega
    have hfits : ¬ 2 ^ Format.binary64.exponentBits ≤ (e + 1075).toNat + 1 := by
      change ¬ 2 ^ 11 ≤ _
      omega
    simp only [pack, hbias, if_neg hfits]
    split
    · next hnormal =>
      exact unpack_normal s hm (Nat.add_right_cancel hnormal) (by omega) he'
    · next hsub =>
      have hne : m.log2 ≠ 52 := fun h => hsub (congrArg (· + 1) h)
      obtain rfl : e = -1074 := by omega
      exact unpack_subnormal s hm ((Nat.log2_lt hm.ne').mp (by omega))

theorem rounded_unpack (b : BitVec Format.binary64.numBits) :
    Rounded (unpack Format.binary64 b) := by
  have hm := (@unpackMantissa Format.binary64 b).isLt
  have he := (@unpackExponent Format.binary64 b).isLt
  have hbias : Format.binary64.exponentBias = 1023 := rfl
  change _ < 2 ^ 52 at hm
  change _ < 2 ^ 11 at he
  simp only [unpack]
  split
  · split <;> trivial
  · next hinf =>
    split
    · next hzero =>
      split
      · trivial
      · next hne =>
        have hpos : @unpackMantissa Format.binary64 b ≠ 0#52 := hne
        have hm0 : (@unpackMantissa Format.binary64 b).toNat ≠ 0 := by
          intro h0
          exact hpos (BitVec.eq_of_toNat_eq h0)
        have hlog := (Nat.log2_lt hm0).mpr hm
        have hexp : (@unpackExponent Format.binary64 b).toNat = 0 :=
          congrArg BitVec.toNat hzero
        rw [Rounded, targetExponent_eq, totalExponent, hexp, hbias]
        omega
    · next hzero =>
      have hlog : (1#1 ++ @unpackMantissa Format.binary64 b).toNat.log2 = 52 := by
        rw [normal_mantissa, Nat.log2_eq_iff (by omega)]
        omega
      have hinf' : (@unpackExponent Format.binary64 b).toNat ≠ 2047 := by
        intro h
        exact hinf (BitVec.eq_of_toNat_eq h)
      have hzero' : (@unpackExponent Format.binary64 b).toNat ≠ 0 := by
        intro h
        exact hzero (BitVec.eq_of_toNat_eq h)
      rw [Rounded, targetExponent_eq, totalExponent, hlog, hbias]
      omega

theorem shifted_apply (s : Sign) (m : Nat) {c e : ℤ} (hle : c ≤ e) :
    (s.apply (decreaseExponent m e c).1 * 2 ^ c : ℚ) = s.apply m * 2 ^ e := by
  obtain ⟨d, rfl⟩ := Int.le.dest hle
  have hd : (c + d - c).toNat = d := by omega
  have hshift : (s.apply (m <<< d : Nat) : ℚ) = s.apply m * 2 ^ d := by
    rw [Nat.shiftLeft_eq]
    cases s <;> simp [Sign.apply]
  rw [decreaseExponent, hd, hshift, zpow_add₀ two_ne_zero, zpow_natCast]
  ring

theorem amount_add {x y : UnpackedFloat} {q r : ℚ} (hx : Rounded x) (hy : Rounded y)
    (hq : amount x = q) (hr : amount y = r) (h : Representable (q + r)) :
    amount (UnpackedFloat.add Format.binary64 x y) = ((q + r : ℚ) : WithTop ℚ) ∧
      Rounded (UnpackedFloat.add Format.binary64 x y) := by
  cases x with
  | notANumber => cases hq
  | infinity s => cases hq
  | zero s =>
    obtain rfl : (0 : ℚ) = q := WithTop.coe_injective hq
    cases y with
    | notANumber => cases hr
    | infinity s => cases hr
    | zero s' =>
      obtain rfl : (0 : ℚ) = r := WithTop.coe_injective hr
      rw [UnpackedFloat.add]
      split <;> simp [amount, Rounded]
    | finite s' m e hm =>
      simp only [UnpackedFloat.add, zero_add]
      exact ⟨hr, hy⟩
  | finite s m e hm =>
    cases y with
    | notANumber => cases hr
    | infinity s => cases hr
    | zero s' =>
      obtain rfl : (0 : ℚ) = r := WithTop.coe_injective hr
      simp only [UnpackedFloat.add, add_zero]
      exact ⟨hq, hx⟩
    | finite s' m' e' hm' =>
      obtain rfl : (s.apply m * 2 ^ e : ℚ) = q := WithTop.coe_injective hq
      obtain rfl : (s'.apply m' * 2 ^ e' : ℚ) = r := WithTop.coe_injective hr
      rw [← shifted_apply s m (min_le_left e e'), ← shifted_apply s' m' (min_le_right e e'),
        ← add_mul, ← Int.cast_add] at h ⊢
      exact normalize_exact h

theorem value_pack {x : UnpackedFloat} (h : Rounded x) :
    value (.ofModel (.pack x)) = amount x := congrArg amount (unpack_pack_rounded h)

/-- A sum that is representable is not rounded. -/
theorem value_add {f g : Float} {q r : ℚ} (hf : value f = q) (hg : value g = r)
    (h : Representable (q + r)) : value (f + g) = ((q + r : ℚ) : WithTop ℚ) := by
  obtain ⟨hadd, hrounded⟩ := amount_add (rounded_unpack f.toModel.toBits.toBitVec)
    (rounded_unpack g.toModel.toBits.toBitVec) hf hg h
  exact (value_pack hrounded).trans hadd

theorem value_ofInt {n : ℤ} (h : Representable n) :
    value (.ofModel (.ofInt n)) = ((n : ℚ) : WithTop ℚ) := by
  have hn : (n * 2 ^ (0 : ℤ) : ℚ) = n := by simp
  obtain ⟨hamount, hrounded⟩ := normalize_exact (hn.symm ▸ h)
  rw [hn] at hamount
  exact (value_pack hrounded).trans hamount

end Binary64
