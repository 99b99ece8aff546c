import Mathlib

/-!
# Sizes

The source counts in `usize`, which has 64 bits. The model counts in `Nat` and cuts where the source
saturates.
-/

namespace RustTron

/-- `usize::MAX`. -/
def usizeMax : Nat := 18446744073709551615

/-- An exact result cut to the range of a `usize`, as the `saturating_*` operations do. -/
def saturateUsize (n : Nat) : Nat := min n usizeMax

theorem saturateUsize_le (n : Nat) : saturateUsize n ≤ n := Nat.min_le_left _ _

theorem saturateUsize_mono {m n : Nat} (h : m ≤ n) : saturateUsize m ≤ saturateUsize n :=
  Nat.le_min_of_le_of_le (Nat.le_trans (saturateUsize_le m) h) (Nat.min_le_right _ _)

end RustTron
