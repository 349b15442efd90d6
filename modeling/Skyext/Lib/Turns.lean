import Mathlib.Data.Int.CardIntervalMod

namespace Turns
set_option autoImplicit true

/-- How often a hand that goes round `n` places, numbered from one, stands at place `j` during
the next `k` turns. -/
def visits (n hand j k : Nat) : Nat := Nat.count (fun i => (hand + i) % n + 1 = j) k

theorem visits_succ :
    visits n hand j (k + 1) = visits n hand j k + if (hand + k) % n + 1 = j then 1 else 0 :=
  Nat.count_succ ..

theorem place_succ (n hand k : Nat) :
    ((hand + k) % n + 1) % n + 1 = (hand + (k + 1)) % n + 1 := by
  rw [Nat.mod_add_mod, Nat.add_assoc]

theorem place_iff (hj : 1 ≤ j) (hjn : j ≤ n) (i : Nat) :
    (hand + i) % n + 1 = j ↔ i ≡ j - 1 + (n - hand % n) [MOD n] := by
  have hlt : hand % n < n := Nat.mod_lt _ (by omega)
  have hsplit := Nat.div_add_mod hand n
  have hsum : hand + (j - 1 + (n - hand % n)) = j - 1 + n * (hand / n + 1) := by
    rw [Nat.mul_add, Nat.mul_one]
    omega
  have hplace : (hand + i) % n + 1 = j ↔ hand + i ≡ j - 1 [MOD n] := by
    rw [Nat.ModEq, Nat.mod_eq_of_lt (a := j - 1) (by omega)]
    omega
  rw [hplace]
  constructor
  · intro h
    refine Nat.ModEq.add_left_cancel' hand (h.trans ?_)
    rw [hsum, Nat.ModEq, Nat.add_mul_mod_self_left]
  · intro h
    refine (h.add_left hand).trans ?_
    rw [hsum, Nat.ModEq, Nat.add_mul_mod_self_left]

/-- A whole round visits each place once. -/
theorem visits_round (hj : 1 ≤ j) (hjn : j ≤ n) : visits n hand j n = 1 := by
  have hn : 0 < n := by omega
  have hcount := Nat.count_modEq_card n hn (j - 1 + (n - hand % n))
  have hvisits : visits n hand j n = Nat.count (· ≡ j - 1 + (n - hand % n) [MOD n]) n := by
    simp only [visits, Nat.count_eq_card_filter_range, place_iff hj hjn]
  rw [hvisits, hcount, Nat.div_self hn, Nat.mod_self, if_neg (Nat.not_lt_zero _)]

end Turns
