import Mathlib

/-!
# Rounded quotients

Quotients of integers by a positive one, rounded up or to the nearest integer, and averages with
weights that are not negative.

## Main definitions

* `Rounding.up x d`: the quotient rounded up
* `Rounding.half x d`: the quotient rounded to the nearest integer, a half up

## Main results

* `le_up_mul`, `up_mul_lt`: the quotient rounded up is the least integer that is not below it
* `sub_share_le`: what a share that is rounded down leaves
* `half_mono`, `half_mul`: rounding to the nearest integer is monotone, and exact on multiples
* `le_average`: an average is not below its values
-/

namespace Rounding

variable {x y d k : Int}

/-- The quotient rounded up. -/
def up (x d : Int) : Int := x / d + if 0 < x % d then 1 else 0

/-- The quotient rounded to the nearest integer, a half up. -/
def half (x d : Int) : Int := x / d + if d ≤ x % d * 2 then 1 else 0

theorem up_mul_lt (hd : 0 < d) : up x d * d < x + d := by
  have hdi := Int.mul_ediv_add_emod x d
  have hr := Int.emod_lt_of_pos x hd
  have hn := Int.emod_nonneg x hd.ne'
  unfold up
  split
  · rw [add_mul, mul_comm (x / d) d]
    omega
  · rw [add_zero, mul_comm (x / d) d]
    omega

theorem le_up_mul (hd : 0 < d) : x ≤ up x d * d := by
  have hdi := Int.mul_ediv_add_emod x d
  have hr := Int.emod_lt_of_pos x hd
  have hn := Int.emod_nonneg x hd.ne'
  unfold up
  split
  · rw [add_mul, mul_comm (x / d) d]
    omega
  · rw [add_zero, mul_comm (x / d) d]
    omega

theorem le_up (hd : 0 < d) (h : k * d ≤ x) : k ≤ up x d :=
  le_of_mul_le_mul_right (h.trans (le_up_mul hd)) hd

/-- A share of `k` parts of `d`, rounded down, leaves no more than the other parts are worth. -/
theorem sub_share_le {c : Int} (hd : 0 < d) (h : x * (d - k) ≤ c * d) : x - x * k / d ≤ c := by
  have hdi := Int.mul_ediv_add_emod (x * k) d
  have hr := Int.emod_lt_of_pos (x * k) hd
  rw [mul_sub] at h
  have hlt : (x - x * k / d) * d < (c + 1) * d := by
    rw [sub_mul, add_mul, one_mul, mul_comm (x * k / d) d]
    omega
  exact Int.lt_add_one_iff.mp (lt_of_mul_lt_mul_right hlt hd.le)

theorem half_eq (hd : 0 < d) : half x d = (2 * x + d) / (2 * d) := by
  have hdi := Int.mul_ediv_add_emod x d
  have hr := Int.emod_lt_of_pos x hd
  have hn := Int.emod_nonneg x hd.ne'
  have hs : 2 * x + d = (2 * (x % d) + d) + x / d * (2 * d) := by
    have ht : x / d * (2 * d) = 2 * (d * (x / d)) := by ring
    omega
  rw [hs, Int.add_mul_ediv_right _ _ (by omega), half, add_comm]
  congr 1
  split
  · exact (Int.ediv_eq_iff_of_pos (by omega)).mpr ⟨by omega, by omega⟩ |>.symm
  · exact (Int.ediv_eq_zero_of_lt (by omega) (by omega)).symm

theorem half_mono (hd : 0 < d) (h : x ≤ y) : half x d ≤ half y d := by
  rw [half_eq hd, half_eq hd]
  exact Int.ediv_le_ediv (by omega) (by omega)

theorem half_mul (hd : 0 < d) (k : Int) : half (k * d) d = k := by
  rw [half, Int.mul_ediv_cancel _ hd.ne', Int.mul_emod_left, if_neg (by omega), add_zero]

theorem half_nonneg (hd : 0 < d) (h : 0 ≤ x) : 0 ≤ half x d := by
  have hz := half_mul hd 0
  rw [zero_mul] at hz
  exact hz ▸ half_mono hd h

section Averages

variable {a b low : Int} (ha : 0 ≤ a) (hb : 0 ≤ b)
include ha hb

/-- An average with weights that are not negative is not below its values. -/
theorem le_average (hx : 0 < a → low ≤ x) (hy : low ≤ y) : low * (a + b) ≤ a * x + b * y := by
  have hs := mul_le_mul_of_nonneg_left hy hb
  rcases ha.eq_or_lt with rfl | hp
  · linarith
  · have hf := mul_le_mul_of_nonneg_left (hx hp) ha
    linarith

end Averages

end Rounding
