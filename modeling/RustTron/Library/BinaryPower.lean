import Mathlib

/-!
# Powers by squaring

A power is computed one binary digit of the exponent at a time: the base is squared at every digit,
and multiplied into the result at every digit that is one. The multiplication may be one that means
a product on some values only; the result then means the power.

## Main definitions

* `BinaryPower.loop`: the loop, on a bound for the number of digits
* `BinaryPower.Means`: a multiplication that means a product on the values of a set

## Main results

* `BinaryPower.loop_mem_and_means`: the loop gives the power
-/

namespace BinaryPower

variable {α M : Type*}

/-- Squaring and multiplying, from the last digit of the exponent. -/
def loop (mul : α → α → α) : ℕ → α → α → ℕ → α
  | 0, out, _, _ => out
  | n + 1, out, a, p =>
    if p = 0 then out else loop mul n (if p % 2 = 1 then mul out a else out) (mul a a) (p / 2)

/-- On the values of a set, `mul` means the product of a monoid. -/
structure Means [Monoid M] (mul : α → α → α) (valid : α → Prop) (meaning : α → M) : Prop where
  mem : ∀ {x y}, valid x → valid y → valid (mul x y)
  map_mul : ∀ {x y}, valid x → valid y → meaning (mul x y) = meaning x * meaning y

/-- The digits of an exponent, in the power: the last one, and the others over the square. -/
theorem pow_eq_pow_digit_mul [Monoid M] (a : M) (p : ℕ) :
    a ^ p = a ^ (p % 2) * (a * a) ^ (p / 2) := by
  rw [← pow_two, ← pow_mul, ← pow_add, Nat.mod_add_div]

/-- The loop gives the power, multiplied to what it started with. -/
theorem loop_mem_and_means [Monoid M] {mul : α → α → α} {valid : α → Prop} {meaning : α → M}
    (h : Means mul valid meaning) {n p : ℕ} (hp : p < 2 ^ n) {out a : α} (ho : valid out)
    (ha : valid a) :
    valid (loop mul n out a p) ∧ meaning (loop mul n out a p) = meaning out * meaning a ^ p := by
  induction n generalizing p out a with
  | zero =>
    have hz : p = 0 := by
      rw [pow_zero] at hp
      omega
    subst hz
    exact ⟨ho, by rw [pow_zero, mul_one]; rfl⟩
  | succ n ih =>
    have hh : p / 2 < 2 ^ n := by
      rw [pow_succ] at hp
      omega
    simp only [loop]
    split
    · next hz =>
      subst hz
      exact ⟨ho, by rw [pow_zero, mul_one]⟩
    · have hd := pow_eq_pow_digit_mul (meaning a) p
      rcases Nat.mod_two_eq_zero_or_one p with hz | hon
      · rw [if_neg (by omega)]
        obtain ⟨hv, hm⟩ := ih hh ho (h.mem ha ha)
        refine ⟨hv, ?_⟩
        rw [hm, h.map_mul ha ha, hd, hz, pow_zero, one_mul]
      · rw [if_pos hon]
        obtain ⟨hv, hm⟩ := ih hh (h.mem ho ha) (h.mem ha ha)
        refine ⟨hv, ?_⟩
        rw [hm, h.map_mul ho ha, h.map_mul ha ha, hd, hon, pow_one, mul_assoc]

end BinaryPower
