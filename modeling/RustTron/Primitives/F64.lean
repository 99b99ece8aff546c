import Mathlib

/-!
# Rounding to the significand of an `f64`

A natural number becomes an `f64` by rounding it to 53 significant bits, to the nearest one and to
the even one of two. The product of two numbers that are far from the limits of the exponent is
rounded in the same way.

## Main definitions

* `roundSignificand m`: the number `m` rounded to 53 significant bits

## Main results

* `roundSignificand_le`: rounding up adds at most one part in `2 ^ 53`
* `roundSignificand_of_lt`: a number of at most 53 bits is exact
-/

namespace RustTron

/-- The number rounded to 53 significant bits, ties to even. -/
def roundSignificand (m : Nat) : Nat :=
  let scale := 2 ^ (m.log2 - 52)
  let floor := m / scale
  let rest := m % scale
  (if scale < 2 * rest ∨ (2 * rest = scale ∧ floor % 2 = 1) then floor + 1 else floor) * scale

theorem roundSignificand_of_lt {m : Nat} (h : m < 2 ^ 53) : roundSignificand m = m := by
  have hl : m.log2 - 52 = 0 := by
    rcases Nat.eq_zero_or_pos m with rfl | hm
    · rfl
    · have hlt : m.log2 < 53 := (Nat.log2_lt hm.ne').mpr h
      omega
  unfold roundSignificand
  dsimp only
  rw [hl, Nat.pow_zero, Nat.mod_one, Nat.div_one, Nat.mul_one, if_neg (by omega)]

/-- The rounded number is at most half a unit of the last place above. -/
theorem two_mul_roundSignificand_le (m : Nat) :
    2 * roundSignificand m ≤ 2 * m + 2 ^ (m.log2 - 52) := by
  unfold roundSignificand
  dsimp only
  generalize hs : 2 ^ (m.log2 - 52) = scale
  have hd : m / scale * scale + m % scale = m := Nat.div_add_mod' m scale
  generalize m / scale = floor at hd ⊢
  generalize m % scale = rest at hd ⊢
  split
  · next hup =>
    rw [Nat.succ_mul floor]
    omega
  · omega

/-- **Rounding up** adds at most one part in `2 ^ 53`. -/
theorem roundSignificand_le (m : Nat) : 2 ^ 53 * roundSignificand m ≤ (2 ^ 53 + 1) * m := by
  by_cases hm : m < 2 ^ 53
  · rw [roundSignificand_of_lt hm]
    omega
  · have hp : m ≠ 0 := by omega
    have hl : 53 ≤ m.log2 := (Nat.le_log2 hp).mpr (not_lt.mp hm)
    -- the unit of the last place is at most one part in `2 ^ 52` of the number
    have hu : 2 ^ 52 * 2 ^ (m.log2 - 52) ≤ m := by
      rw [← Nat.pow_add, Nat.add_sub_cancel' (by omega)]
      exact Nat.log2_self_le hp
    have hh := two_mul_roundSignificand_le m
    omega

end RustTron
