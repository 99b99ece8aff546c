import Mathlib

/-!
# Big numbers in bytes, and their conversion between bases

A number is a list of bytes below a base, most significant first.  It is divided by a small number
in one pass, from the most significant digit on, and it is converted to another base by division
after division: each remainder is a digit, the least significant first, and leading zeros of the
quotient are dropped.

## Main definitions

* `Radix.Digits`: the digits of a base
* `Radix.divide`: one pass of a division
* `Radix.convert`, `Radix.Digits.toBase`: the digits of a number in another base

## Main results

* `Radix.divide_spec`: quotient and remainder
* `Radix.convert_eq_digits`: the digits of a conversion are those of the number
* `Radix.Digits.toBase_toBase`: a number without leading zeros is converted there and back
-/

namespace Radix

/-- Digits of a base, most significant first. -/
structure Digits (base : Nat) where
  digits : List UInt8
  lt : ∀ d ∈ digits, d.toNat < base

/-- The number that some digits stand for. -/
def value (base : Nat) (digits : List UInt8) : Nat :=
  Nat.ofDigits base (digits.map UInt8.toNat).reverse

/-- One pass of a division by `radix`, after a remainder: the digits of the quotient, and the
remainder. -/
def divide (base radix : Nat) : Nat → List UInt8 → List UInt8 × Nat
  | remainder, [] => ([], remainder)
  | remainder, digit :: digits =>
    let number := remainder * base + digit.toNat
    let (quotient, remainder) := divide base radix (number % radix) digits
    (UInt8.ofNat (number / radix) :: quotient, remainder)

section Value

variable {base radix remainder : Nat} {digits : List UInt8} {d : UInt8}

@[simp] theorem value_nil : value base [] = 0 := rfl

theorem value_cons (d : UInt8) (digits : List UInt8) :
    value base (d :: digits) = d.toNat * base ^ digits.length + value base digits := by
  rw [value, value, List.map_cons, List.reverse_cons, Nat.ofDigits_append, List.length_reverse,
    List.length_map, Nat.ofDigits_singleton, Nat.mul_comm, Nat.add_comm]

theorem value_eq_zero (hbase : base ≠ 0) (h : value base digits = 0) : ∀ d ∈ digits, d = 0 := by
  intro d hd
  refine UInt8.toNat_inj.mp (Nat.digits_zero_of_eq_zero hbase h _ ?_)
  exact List.mem_reverse.mpr (List.mem_map.mpr ⟨d, hd, rfl⟩)

/-- Leading zeros do not count. -/
theorem value_dropWhile (digits : List UInt8) :
    value base (digits.dropWhile (· == 0)) = value base digits := by
  induction digits with
  | nil => rfl
  | cons d digits ih =>
    rw [List.dropWhile_cons]
    split
    next h =>
      rw [beq_iff_eq] at h
      rw [ih, value_cons, h]
      simp
    next => rfl

@[simp] theorem length_divide (remainder : Nat) (digits : List UInt8) :
    (divide base radix remainder digits).1.length = digits.length := by
  induction digits generalizing remainder with
  | nil => rfl
  | cons d digits ih => simp [divide, ih]

/-- The digit of a quotient is a digit. -/
theorem quotient_lt (hr : remainder < radix) (hd : d.toNat < base) :
    (remainder * base + d.toNat) / radix < base := by
  refine Nat.div_lt_of_lt_mul ?_
  calc remainder * base + d.toNat < remainder * base + base := Nat.add_lt_add_left hd _
    _ = (remainder + 1) * base := by rw [Nat.add_mul, Nat.one_mul]
    _ ≤ radix * base := Nat.mul_le_mul_right _ hr

theorem divide_lt (hbase : base ≤ 256) (hr : remainder < radix)
    (h : ∀ d ∈ digits, d.toNat < base) :
    (divide base radix remainder digits).2 < radix ∧
      ∀ d ∈ (divide base radix remainder digits).1, d.toNat < base := by
  induction digits generalizing remainder with
  | nil => exact ⟨hr, fun d hd => absurd hd List.not_mem_nil⟩
  | cons d digits ih =>
    have hp : 0 < radix := Nat.zero_lt_of_lt hr
    have hq := quotient_lt hr (h d List.mem_cons_self)
    obtain ⟨hre, hdi⟩ := ih (Nat.mod_lt (remainder * base + d.toNat) hp)
      (fun x hx => h x (List.mem_cons_of_mem d hx))
    refine ⟨hre, fun x hx => ?_⟩
    rcases List.mem_cons.mp hx with rfl | hx
    · rw [UInt8.toNat_ofNat', Nat.mod_eq_of_lt (hq.trans_le hbase)]
      exact hq
    · exact hdi x hx

/-- Quotient and remainder. -/
theorem divide_spec (hbase : base ≤ 256) (hr : remainder < radix)
    (h : ∀ d ∈ digits, d.toNat < base) :
    value base (divide base radix remainder digits).1 * radix +
        (divide base radix remainder digits).2 =
      remainder * base ^ digits.length + value base digits := by
  induction digits generalizing remainder with
  | nil => simp [divide]
  | cons d digits ih =>
    have hp : 0 < radix := Nat.zero_lt_of_lt hr
    have hq := quotient_lt hr (h d List.mem_cons_self)
    have hre := ih (Nat.mod_lt (remainder * base + d.toNat) hp)
      (fun x hx => h x (List.mem_cons_of_mem d hx))
    have hd : divide base radix remainder (d :: digits) =
        (UInt8.ofNat ((remainder * base + d.toNat) / radix) ::
          (divide base radix ((remainder * base + d.toNat) % radix) digits).1,
          (divide base radix ((remainder * base + d.toNat) % radix) digits).2) := rfl
    rw [hd, value_cons, value_cons, length_divide, UInt8.toNat_ofNat',
      Nat.mod_eq_of_lt (hq.trans_le hbase), Nat.add_mul, Nat.add_assoc, hre, List.length_cons]
    have hs := Nat.div_add_mod (remainder * base + d.toNat) radix
    generalize (remainder * base + d.toNat) / radix = q at *
    generalize (remainder * base + d.toNat) % radix = r at *
    calc q * base ^ digits.length * radix + (r * base ^ digits.length + value base digits)
        = (radix * q + r) * base ^ digits.length + value base digits := by ring
      _ = (remainder * base + d.toNat) * base ^ digits.length + value base digits := by rw [hs]
      _ = _ := by ring

end Value

namespace Digits

variable {base radix : Nat}

/-- The quotient of a division, without leading zeros. -/
def next (l : Digits base) (radix : Nat) (hbase : base ≤ 256) (hradix : 1 < radix) :
    Digits base where
  digits := (divide base radix 0 l.digits).1.dropWhile (· == 0)
  lt := fun d hd =>
    (divide_lt hbase (Nat.zero_lt_of_lt hradix) l.lt).2 d ((List.dropWhile_sublist _).subset hd)

/-- The quotient is the number without its remainder. -/
theorem value_next (l : Digits base) (hbase : base ≤ 256) (hradix : 1 < radix) :
    value base (l.next radix hbase hradix).digits = value base l.digits / radix ∧
      (divide base radix 0 l.digits).2 = value base l.digits % radix := by
  have hs := divide_spec hbase (Nat.zero_lt_of_lt hradix) l.lt
  have hlt := (divide_lt hbase (Nat.zero_lt_of_lt hradix) l.lt).1
  rw [Nat.zero_mul, Nat.zero_add] at hs
  rw [next, value_dropWhile, ← hs]
  constructor
  · rw [Nat.mul_comm, Nat.mul_add_div (Nat.zero_lt_of_lt hradix), Nat.div_eq_of_lt hlt, Nat.add_zero]
  · rw [Nat.mul_comm, Nat.mul_add_mod, Nat.mod_eq_of_lt hlt]

/-- The quotient of zero has no digits. -/
theorem next_eq_nil (l : Digits base) (hbase : base ≤ 256) (hradix : 1 < radix)
    (h : l.digits ≠ []) (hz : value base l.digits = 0) :
    (l.next radix hbase hradix).digits = [] := by
  have hv := (l.value_next hbase hradix).1
  rw [hz, Nat.zero_div, next, value_dropWhile] at hv
  have hp : base ≠ 0 := by
    obtain ⟨d, digits, hd⟩ := List.exists_cons_of_ne_nil h
    have := l.lt d (hd ▸ List.mem_cons_self)
    omega
  refine List.dropWhile_eq_nil_iff.mpr fun d hd => ?_
  rw [value_eq_zero hp hv d hd]
  rfl

/-- A quotient is smaller, or it has fewer digits. -/
theorem measure_next (l : Digits base) (hbase : base ≤ 256) (hradix : 1 < radix)
    (h : l.digits ≠ []) :
    value base (l.next radix hbase hradix).digits + (l.next radix hbase hradix).digits.length <
      value base l.digits + l.digits.length := by
  by_cases hz : value base l.digits = 0
  · rw [l.next_eq_nil hbase hradix h hz, hz]
    exact Nat.add_lt_add_left (List.length_pos_of_ne_nil h) 0
  · have hl : (l.next radix hbase hradix).digits.length ≤ l.digits.length := by
      have := (List.dropWhile_sublist (l := (divide base radix 0 l.digits).1) (· == 0)).length_le
      rwa [length_divide] at this
    have hv := (l.value_next hbase hradix).1
    have := Nat.div_lt_self (Nat.pos_of_ne_zero hz) hradix
    omega

end Digits

/-- The remainders of division after division, as long as there are digits. -/
def convert {base : Nat} (radix : Nat) (hbase : base ≤ 256) (hradix : 1 < radix)
    (l : Digits base) : List Nat :=
  if _h : l.digits = [] then []
  else (divide base radix 0 l.digits).2 :: convert radix hbase hradix (l.next radix hbase hradix)
termination_by value base l.digits + l.digits.length
decreasing_by exact l.measure_next hbase hradix _h

namespace Digits

variable {base radix : Nat}

/-- There are no leading zeros. -/
def Leading (l : Digits base) : Prop := ∀ d ∈ l.digits.head?, d ≠ 0

theorem leading_next (l : Digits base) (hbase : base ≤ 256) (hradix : 1 < radix) :
    (l.next radix hbase hradix).Leading := by
  intro d hd
  have := List.head?_dropWhile_not (· == 0) (divide base radix 0 l.digits).1
  rw [next, Option.mem_def] at hd
  rw [hd] at this
  simpa using this

/-- A number without leading zeros is not zero. -/
theorem value_ne_zero {l : Digits base} (h : l.Leading) (hne : l.digits ≠ []) :
    value base l.digits ≠ 0 := by
  obtain ⟨d, digits, hd⟩ := List.exists_cons_of_ne_nil hne
  have hp : base ≠ 0 := by
    have := l.lt d (hd ▸ List.mem_cons_self)
    omega
  intro hz
  refine h d ?_ (value_eq_zero hp hz d (hd ▸ List.mem_cons_self))
  rw [hd]
  rfl

/-- The digits of a conversion are those of the number. -/
theorem convert_eq_digits (hbase : base ≤ 256) (hradix : 1 < radix) (l : Digits base)
    (h : l.Leading) : convert radix hbase hradix l = Nat.digits radix (value base l.digits) := by
  induction l using convert.induct radix hbase hradix with
  | case1 l hn =>
    rw [convert, dif_pos hn, hn, value_nil, Nat.digits_zero]
  | case2 l hne ih =>
    obtain ⟨hv, hr⟩ := l.value_next hbase hradix
    rw [convert, dif_neg hne, ih (l.leading_next hbase hradix), hv, hr,
      Nat.digits_def' hradix (Nat.pos_of_ne_zero (value_ne_zero h hne))]

theorem convert_lt (hbase : base ≤ 256) (hradix : 1 < radix) (l : Digits base) :
    ∀ d ∈ convert radix hbase hradix l, d < radix := by
  induction l using convert.induct radix hbase hradix with
  | case1 l hn =>
    rw [convert, dif_pos hn]
    exact fun d hd => absurd hd List.not_mem_nil
  | case2 l hne ih =>
    rw [convert, dif_neg hne]
    intro d hd
    rcases List.mem_cons.mp hd with rfl | hd
    · exact (divide_lt hbase (Nat.zero_lt_of_lt hradix) l.lt).1
    · exact ih d hd

/-- A number in another base. -/
def toBase (l : Digits base) (radix : Nat) (hbase : base ≤ 256) (hradix : 1 < radix)
    (hsmall : radix ≤ 256) : Digits radix where
  digits := ((convert radix hbase hradix l).map UInt8.ofNat).reverse
  lt := fun d hd => by
    obtain ⟨n, hn, rfl⟩ := List.mem_map.mp (List.mem_reverse.mp hd)
    have hlt := convert_lt hbase hradix l n hn
    rw [UInt8.toNat_ofNat', Nat.mod_eq_of_lt (hlt.trans_le hsmall)]
    exact hlt

variable (hbase : base ≤ 256) (hradix : 1 < radix) (hsmall : radix ≤ 256)

theorem toBase_of_nil (l : Digits base) (h : l.digits = []) :
    (l.toBase radix hbase hradix hsmall).digits = [] := by
  have hc : convert radix hbase hradix l = [] := by rw [convert, dif_pos h]
  have hd : (l.toBase radix hbase hradix hsmall).digits =
      ((convert radix hbase hradix l).map UInt8.ofNat).reverse := rfl
  rw [hd, hc]
  rfl

/-- The number stays the same. -/
theorem toNat_toBase (l : Digits base) (h : l.Leading) :
    (((l.toBase radix hbase hradix hsmall).digits.map UInt8.toNat).reverse) =
      Nat.digits radix (value base l.digits) := by
  rw [toBase, List.map_reverse, List.reverse_reverse, List.map_map, ← l.convert_eq_digits hbase hradix h]
  refine (List.map_congr_left fun n hn => ?_).trans (List.map_id _)
  have hlt := convert_lt hbase hradix l n hn
  rw [Function.comp_apply, UInt8.toNat_ofNat', Nat.mod_eq_of_lt (hlt.trans_le hsmall)]
  rfl

/-- The conversion of a number has its value. -/
theorem value_toBase (l : Digits base) (h : l.Leading) :
    value radix (l.toBase radix hbase hradix hsmall).digits = value base l.digits := by
  rw [value, l.toNat_toBase hbase hradix hsmall h, Nat.ofDigits_digits]

/-- A conversion has no leading zeros. -/
theorem leading_toBase (l : Digits base) (h : l.Leading) :
    (l.toBase radix hbase hradix hsmall).Leading := by
  intro d hd hz
  have hm := congrArg List.head? (List.reverse_eq_iff.mp (l.toNat_toBase hbase hradix hsmall h))
  rw [List.head?_map, Option.mem_def.mp hd, Option.map_some, hz, List.head?_reverse] at hm
  have hne : value base l.digits ≠ 0 := by
    intro hv
    rw [hv, Nat.digits_zero] at hm
    cases hm
  rw [List.getLast?_eq_some_getLast (Nat.digits_ne_nil_iff_ne_zero.mpr hne), Option.some_inj] at hm
  exact Nat.getLast_digit_ne_zero radix hne hm.symm

/-- A number without leading zeros is converted there and back. -/
theorem toBase_toBase (hb' : 1 < base) (l : Digits base) (h : l.Leading) :
    ((l.toBase radix hbase hradix hsmall).toBase base hsmall hb' hbase).digits = l.digits := by
  have hl := l.leading_toBase hbase hradix hsmall h
  have hdi := toNat_toBase hsmall hb' hbase _ hl
  rw [value_toBase hbase hradix hsmall l h, value, Nat.digits_ofDigits base hb'] at hdi
  · have hi : Function.Injective UInt8.toNat := fun _ _ => UInt8.toNat_inj.mp
    exact hi.list_map (List.reverse_injective hdi)
  · intro n hn
    obtain ⟨d, hd, rfl⟩ := List.mem_map.mp (List.mem_reverse.mp hn)
    exact l.lt d hd
  · intro hne hla
    rw [List.getLast_reverse, List.head_map] at hla
    exact h _ (List.head?_eq_some_head _) (UInt8.toNat_inj.mp hla)

end Digits

end Radix
