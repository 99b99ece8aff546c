import Mathlib

/-!
# Signed 64-bit integers

The source computes in `i64`. The model computes in `Int` and says where a result must be an
`i64`: a checked operation is `none` outside the range, and a checked sum is `none` as soon as
one of its partial sums leaves it.

## Main definitions

* `InI64 x`: the integer `x` is a value of the type `i64`
* `wrapI64`, `saturateI64`: the results of the `wrapping_*` and the `saturating_*` operations
* `checkedAdd`, `checkedSub`, `checkedMul`: Rust's `checked_*` operations
* `checkedSum`: a running sum in `i64`, `none` where one of its additions overflows

## Main results

* `checkedSum_eq_some_iff`: a checked sum is defined where every partial sum is an `i64`, and is
  then the sum
-/

namespace RustTron

/-- `i64::MIN`. -/
def i64Min : Int := -9223372036854775808

/-- `i64::MAX`. -/
def i64Max : Int := 9223372036854775807

/-- The integer `x` is a value of the type `i64`. -/
def InI64 (x : Int) : Prop := i64Min ≤ x ∧ x ≤ i64Max

instance (x : Int) : Decidable (InI64 x) := inferInstanceAs (Decidable (_ ∧ _))

theorem inI64_zero : InI64 0 := by decide

/-- An exact result as an `i64`, if it is one. -/
def toI64 (x : Int) : Option Int := if InI64 x then some x else none

@[simp] theorem toI64_eq_some_iff {x y : Int} : toI64 x = some y ↔ InI64 x ∧ x = y := by
  unfold toI64
  split <;> simp_all

/-- An exact result reduced to an `i64`, as the `wrapping_*` operations do. -/
def wrapI64 (x : Int) : Int := (x + 2 ^ 63) % 2 ^ 64 - 2 ^ 63

theorem wrapI64_of_inI64 {x : Int} (h : InI64 x) : wrapI64 x = x := by
  unfold InI64 i64Min i64Max at h
  unfold wrapI64
  omega

/-- An exact result cut to the range of an `i64`, as the `saturating_*` operations do. -/
def saturateI64 (x : Int) : Int := max i64Min (min i64Max x)

theorem saturateI64_of_inI64 {x : Int} (h : InI64 x) : saturateI64 x = x := by
  unfold InI64 at h
  unfold saturateI64
  omega

def checkedAdd (x y : Int) : Option Int := toI64 (x + y)

def checkedMul (x y : Int) : Option Int := toI64 (x * y)

/-- The running sum of `xs` from `start`: `none` where one of its additions overflows. -/
def checkedSum (start : Int) (xs : List Int) : Option Int := xs.foldlM checkedAdd start

/-- Every partial sum of `xs` from `start`, the empty one aside, is an `i64`. -/
def SumFits (start : Int) (xs : List Int) : Prop :=
  ∀ k, 1 ≤ k → k ≤ xs.length → InI64 (start + (xs.take k).sum)

theorem sumFits_nil (start : Int) : SumFits start [] := by
  intro k h₁ h₂
  simp only [List.length_nil] at h₂
  omega

theorem sumFits_cons {start x : Int} {xs : List Int} :
    SumFits start (x :: xs) ↔ InI64 (start + x) ∧ SumFits (start + x) xs := by
  constructor
  · intro h
    refine ⟨by simpa using h 1 (by omega) (by simp), fun k h₁ h₂ => ?_⟩
    have := h (k + 1) (by omega) (by simpa using h₂)
    simpa [add_assoc] using this
  · rintro ⟨hx, h⟩ k h₁ h₂
    rcases k with _ | _ | k
    · omega
    · simpa using hx
    · have := h (k + 1) (by omega) (by simpa using h₂)
      simpa [add_assoc] using this

theorem sumFits_append {start : Int} {xs ys : List Int} :
    SumFits start (xs ++ ys) ↔ SumFits start xs ∧ SumFits (start + xs.sum) ys := by
  induction xs generalizing start with
  | nil => simp [sumFits_nil]
  | cons x xs ih => simp [sumFits_cons, ih, and_assoc, add_assoc]

/-- **A checked sum** is defined where every partial sum is an `i64`, and is then the sum. -/
theorem checkedSum_eq_some_iff {start z : Int} {xs : List Int} :
    checkedSum start xs = some z ↔ SumFits start xs ∧ z = start + xs.sum := by
  induction xs generalizing start with
  | nil => simp [checkedSum, sumFits_nil, eq_comm]
  | cons x xs ih =>
    have hs : checkedSum start (x :: xs) = some z ↔
        InI64 (start + x) ∧ checkedSum (start + x) xs = some z := by
      simp only [checkedSum, List.foldlM_cons, checkedAdd, toI64]
      split <;> simp_all
    rw [hs, ih, sumFits_cons]
    simp [and_assoc, add_assoc]

end RustTron
