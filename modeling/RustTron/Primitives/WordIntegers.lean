import Mathlib
import RustTron.Library.BinaryPower
import RustTron.Primitives.Word

/-!
# Words as integers

The arithmetic of the machine against the integers, unsigned or in two's complement. The signed
operations work on magnitudes and restore the sign; products under a modulus and powers are
computed one binary digit at a time; shifts read their amount as an `i32`.

## Main definitions

* `Word.Integers.div`, `Word.Integers.sdiv`, ..: the operations, over the integers

## Main results

* `Word.signedDiv_eq_integers`, `Word.signedRem_eq_integers`: the signed division
* `Word.modular_eq_integers`: sums and products under a modulus
* `Word.exp_eq_integers`: powers
* `Word.sar_eq_integers`, `Word.signExtend_eq_integers`: shifts of signed words, and extension
-/

namespace RustTron.Word

/-! ## The operations over the integers -/

namespace Integers

/-- The quotient of unsigned integers. -/
def div (a b : Word) : Word := BitVec.ofNat 256 (if b.toNat = 0 then 0 else a.toNat / b.toNat)

/-- The quotient of signed integers, truncated. -/
def sdiv (a b : Word) : Word := BitVec.ofInt 256 (if b.toInt = 0 then 0 else a.toInt.tdiv b.toInt)

/-- The remainder of unsigned integers. -/
def mod (a b : Word) : Word := BitVec.ofNat 256 (if b.toNat = 0 then 0 else a.toNat % b.toNat)

/-- The remainder of signed integers, with the sign of the dividend. -/
def smod (a b : Word) : Word := BitVec.ofInt 256 (if b.toInt = 0 then 0 else a.toInt.tmod b.toInt)

/-- The sum under a modulus. -/
def addmod (a b m : Word) : Word :=
  BitVec.ofNat 256 (if m.toNat = 0 then 0 else (a.toNat + b.toNat) % m.toNat)

/-- The product under a modulus. -/
def mulmod (a b m : Word) : Word :=
  BitVec.ofNat 256 (if m.toNat = 0 then 0 else a.toNat * b.toNat % m.toNat)

/-- The power under `2 ^ 256`. -/
def exp (a p : Word) : Word := BitVec.ofNat 256 (a.toNat ^ p.toNat % 2 ^ 256)

/-- The lowest `k + 1` bytes as a signed integer. -/
def signextend (k v : Word) : Word :=
  if k.toNat < 32 then BitVec.ofInt 256 ((v.toNat : Int).bmod (2 ^ (8 * (k.toNat + 1)))) else v

/-- The byte at an index, from the highest one. -/
def byte (i v : Word) : Word :=
  BitVec.ofNat 256 (if i.toNat < 32 then v.toNat / 256 ^ (31 - i.toNat) % 256 else 0)

/-- The product with a power of two. -/
def shl (s v : Word) : Word := BitVec.ofNat 256 (v.toNat * 2 ^ s.toNat)

/-- The quotient by a power of two. -/
def shr (s v : Word) : Word := BitVec.ofNat 256 (v.toNat / 2 ^ s.toNat)

/-- The quotient of a signed integer by a power of two, rounded down. -/
def sar (s v : Word) : Word := BitVec.ofInt 256 (v.toInt / 2 ^ s.toNat)

end Integers

/-! ## Reading words -/

theorem isNegative_eq_msb (word : Word) : word.isNegative = word.msb := by
  rw [BitVec.msb_eq_getLsbD_last]
  rfl

theorem ofNat_toNat_eq (word : Word) : BitVec.ofNat 256 word.toNat = word := by
  rw [BitVec.ofNat_toNat, BitVec.setWidth_eq]

/-! ## Division -/

theorem eq_zero_iff_toNat (word : Word) : word = 0 ↔ word.toNat = 0 := by
  constructor
  · rintro rfl
    rfl
  · intro h
    exact BitVec.eq_of_toNat_eq h

theorem eq_zero_iff_toInt (word : Word) : word = 0 ↔ word.toInt = 0 := by
  constructor
  · rintro rfl
    rfl
  · intro h
    exact BitVec.eq_of_toInt_eq h

theorem unsignedDiv_eq_integers (a b : Word) : a.unsignedDiv b = Integers.div a b := by
  unfold unsignedDiv Integers.div
  by_cases hz : b = 0
  · rw [if_pos hz, if_pos ((eq_zero_iff_toNat b).mp hz)]
    rfl
  · rw [if_neg hz, if_neg (fun h => hz ((eq_zero_iff_toNat b).mpr h)), ← BitVec.toNat_udiv]
    exact (ofNat_toNat_eq _).symm

theorem unsignedRem_eq_integers (a b : Word) : a.unsignedRem b = Integers.mod a b := by
  unfold unsignedRem Integers.mod
  by_cases hz : b = 0
  · rw [if_pos hz, if_pos ((eq_zero_iff_toNat b).mp hz)]
    rfl
  · rw [if_neg hz, if_neg (fun h => hz ((eq_zero_iff_toNat b).mpr h)), ← BitVec.toNat_umod]
    exact (ofNat_toNat_eq _).symm

theorem magnitude_eq (word : Word) : word.magnitude = if word.msb then -word else word := by
  unfold magnitude
  rw [isNegative_eq_msb]

theorem magnitude_ne_zero {word : Word} (h : word ≠ 0) : word.magnitude ≠ 0 := by
  rw [magnitude_eq]
  split
  · exact fun hn => h (BitVec.neg_eq_zero_iff.mp hn)
  · exact h

/-- The division of magnitudes under the sign of the quotient is the signed division. -/
theorem signedDiv_eq_sdiv {a b : Word} (hb : b ≠ 0) : a.signedDiv b = a.sdiv b := by
  unfold signedDiv unsignedDiv
  rw [if_neg hb, if_neg (magnitude_ne_zero hb), isNegative_eq_msb, isNegative_eq_msb, magnitude_eq,
    magnitude_eq, BitVec.sdiv_eq]
  cases a.msb <;> cases b.msb <;> rfl

/-- The remainder of magnitudes under the sign of the dividend is the signed remainder. -/
theorem signedRem_eq_srem {a b : Word} (hb : b ≠ 0) : a.signedRem b = a.srem b := by
  unfold signedRem unsignedRem
  rw [if_neg hb, if_neg (magnitude_ne_zero hb), isNegative_eq_msb, magnitude_eq, magnitude_eq,
    BitVec.srem_eq]
  cases a.msb <;> cases b.msb <;> rfl

theorem signedDiv_eq_integers (a b : Word) : a.signedDiv b = Integers.sdiv a b := by
  unfold Integers.sdiv
  by_cases hz : b = 0
  · rw [if_pos ((eq_zero_iff_toInt b).mp hz), signedDiv, if_pos hz]
    rfl
  · rw [if_neg (fun h => hz ((eq_zero_iff_toInt b).mpr h)), signedDiv_eq_sdiv hz]
    apply BitVec.eq_of_toInt_eq
    rw [BitVec.toInt_sdiv, BitVec.toInt_ofInt]

theorem signedRem_eq_integers (a b : Word) : a.signedRem b = Integers.smod a b := by
  unfold Integers.smod
  by_cases hz : b = 0
  · rw [if_pos ((eq_zero_iff_toInt b).mp hz), signedRem, if_pos hz]
    rfl
  · rw [if_neg (fun h => hz ((eq_zero_iff_toInt b).mpr h)), signedRem_eq_srem hz,
      ← BitVec.toInt_srem, BitVec.ofInt_toInt]

/-! ## Sums and products under a modulus -/

/-- The sum of two words below a modulus is taken over the gap to it, and never wraps around. -/
theorem toNat_addMod {a b m : Word} (ha : a.toNat < m.toNat) (hb : b.toNat < m.toNat) :
    (addMod a b m).toNat = (a.toNat + b.toNat) % m.toNat := by
  have hm := m.isLt
  have hg : (m - b).toNat = m.toNat - b.toNat := BitVec.toNat_sub_of_le (BitVec.le_def.mpr hb.le)
  unfold addMod
  dsimp only
  by_cases hle : m - b ≤ a
  · have hr : m.toNat - b.toNat ≤ a.toNat := by
      rw [← hg]
      exact BitVec.le_def.mp hle
    rw [if_pos hle, BitVec.toNat_sub_of_le hle, hg,
      Nat.mod_eq_sub_mod (by omega : m.toNat ≤ a.toNat + b.toNat), Nat.mod_eq_of_lt (by omega)]
    omega
  · have hr : a.toNat < m.toNat - b.toNat := by
      rw [← hg]
      exact Nat.lt_of_not_le fun h => hle (BitVec.le_def.mpr h)
    rw [if_neg hle, BitVec.toNat_add, Nat.mod_eq_of_lt (by omega), Nat.mod_eq_of_lt (by omega)]

theorem bit_zero (word : Word) : word.bit 0 = decide (word.toNat % 2 = 1) := by
  unfold bit
  rw [BitVec.getLsbD, Nat.testBit_zero]

theorem toNat_shr_one (word : Word) : (word.shr 1).toNat = word.toNat / 2 := by
  have ho : toI32Safe 1 = 1 := by decide
  unfold shr
  rw [ho, if_neg (by decide), BitVec.toNat_ushiftRight, Nat.shiftRight_eq_div_pow, pow_one]

theorem mulModLoop_eq (m : Word) (n : Nat) (out a b : Word) :
    mulModLoop m n out a b = BinaryPower.loop (fun x y => addMod x y m) n out a b.toNat := by
  induction n generalizing out a b with
  | zero => rfl
  | succ n ih =>
    simp only [mulModLoop, BinaryPower.loop, eq_zero_iff_toNat, bit_zero, decide_eq_true_eq]
    rw [ih, toNat_shr_one]

theorem means_addMod (m : Word) :
    BinaryPower.Means (fun x y => addMod x y m) (fun x : Word => x.toNat < m.toNat)
      (fun x => Multiplicative.ofAdd (x.toNat : ZMod m.toNat)) where
  mem := by
    intro x y hx hy
    rw [toNat_addMod hx hy]
    exact Nat.mod_lt _ (by omega)
  map_mul := by
    intro x y hx hy
    rw [toNat_addMod hx hy, ← ofAdd_add, ZMod.natCast_mod, Nat.cast_add]

theorem toNat_mulModLoop {m a b : Word} {n : Nat} (hb : b.toNat < 2 ^ n) (ha : a.toNat < m.toNat) :
    (mulModLoop m n 0 a b).toNat = a.toNat * b.toNat % m.toNat := by
  rw [mulModLoop_eq]
  have hz : (0 : Word).toNat < m.toNat := by
    have hn : (0 : Word).toNat = 0 := rfl
    omega
  obtain ⟨hlt, hm⟩ := BinaryPower.loop_mem_and_means (means_addMod m) hb hz ha
  rw [show (0 : Word).toNat = 0 from rfl, Nat.cast_zero, ofAdd_zero, one_mul, ← ofAdd_nsmul, nsmul_eq_mul,
    ← Nat.cast_mul] at hm
  have hc := Multiplicative.ofAdd.injective hm
  rw [ZMod.natCast_eq_natCast_iff'] at hc
  rw [← Nat.mod_eq_of_lt hlt, hc, Nat.mul_comm]

theorem toNat_unsignedRem {a m : Word} (hm : m ≠ 0) :
    (a.unsignedRem m).toNat = a.toNat % m.toNat := by
  rw [unsignedRem, if_neg hm, BitVec.toNat_umod]

theorem modular_eq_integers (a b m : Word) :
    modular a b m false = Integers.addmod a b m ∧ modular a b m true = Integers.mulmod a b m := by
  unfold modular Integers.addmod Integers.mulmod
  by_cases hz : m = 0
  · have hn := (eq_zero_iff_toNat m).mp hz
    rw [if_pos hz, if_pos hz, if_pos hn, if_pos hn]
    exact ⟨rfl, rfl⟩
  · have hn : m.toNat ≠ 0 := fun h => hz ((eq_zero_iff_toNat m).mpr h)
    have ha : (a.unsignedRem m).toNat < m.toNat := by
      rw [toNat_unsignedRem hz]
      exact Nat.mod_lt _ (by omega)
    have hb : (b.unsignedRem m).toNat < m.toNat := by
      rw [toNat_unsignedRem hz]
      exact Nat.mod_lt _ (by omega)
    rw [if_neg hz, if_neg hz, if_neg hn, if_neg hn]
    constructor
    · have hs := toNat_addMod ha hb
      rw [toNat_unsignedRem hz, toNat_unsignedRem hz, ← Nat.add_mod] at hs
      rw [← hs]
      exact (ofNat_toNat_eq _).symm
    · have hp := toNat_mulModLoop (b.unsignedRem m).isLt ha
      rw [toNat_unsignedRem hz, toNat_unsignedRem hz, ← Nat.mul_mod] at hp
      rw [← hp]
      exact (ofNat_toNat_eq _).symm

/-! ## Powers -/

theorem expLoop_eq (n : Nat) (out a p : Word) :
    expLoop n out a p = BinaryPower.loop (· * ·) n out a p.toNat := by
  induction n generalizing out a p with
  | zero => rfl
  | succ n ih =>
    simp only [expLoop, BinaryPower.loop, eq_zero_iff_toNat, bit_zero, decide_eq_true_eq]
    rw [ih, toNat_shr_one]

theorem means_mul :
    BinaryPower.Means (fun x y : Word => x * y) (fun _ => True)
      (fun x => (x.toNat : ZMod (2 ^ 256))) where
  mem := fun _ _ => trivial
  map_mul := by
    intro x y _ _
    rw [BitVec.toNat_mul, ZMod.natCast_mod, Nat.cast_mul]

theorem toNat_expLoop {p : Word} {n : Nat} (hp : p.toNat < 2 ^ n) (a : Word) :
    (expLoop n 1 a p).toNat = a.toNat ^ p.toNat % 2 ^ 256 := by
  rw [expLoop_eq]
  have hm : ((BinaryPower.loop (· * ·) n 1 a p.toNat : Word).toNat : ZMod (2 ^ 256)) =
      ((1 : Word).toNat : ZMod (2 ^ 256)) * (a.toNat : ZMod (2 ^ 256)) ^ p.toNat :=
    (BinaryPower.loop_mem_and_means means_mul hp trivial trivial).2
  rw [show (1 : Word).toNat = 1 from rfl, Nat.cast_one, one_mul, ← Nat.cast_pow,
    ZMod.natCast_eq_natCast_iff'] at hm
  rw [← hm]
  exact (Nat.mod_eq_of_lt (BitVec.isLt _)).symm

theorem exp_eq_integers (a p : Word) : a.exp p = Integers.exp a p := by
  unfold exp Integers.exp
  rw [← toNat_expLoop p.isLt a]
  exact (ofNat_toNat_eq _).symm

/-! ## Shifts -/

theorem toI32Safe_lt_iff (shift : Word) {n : Nat} (hn : n ≤ 256) :
    shift.toI32Safe < n ↔ shift.toNat < n := by
  unfold toI32Safe
  split <;> omega

theorem toI32Safe_eq_of_lt {shift : Word} (h : shift.toNat < 256) :
    shift.toI32Safe = shift.toNat := by
  unfold toI32Safe
  exact if_neg (by omega)

theorem shl_eq_integers (s v : Word) : v.shl s = Integers.shl s v := by
  unfold shl Integers.shl
  have hi := toI32Safe_lt_iff s (le_refl 256)
  by_cases hlt : s.toNat < 256
  · rw [if_neg (by omega), toI32Safe_eq_of_lt hlt]
    apply BitVec.eq_of_toNat_eq
    rw [BitVec.toNat_shiftLeft, BitVec.toNat_ofNat, Nat.shiftLeft_eq]
  · rw [if_pos (by omega)]
    apply BitVec.eq_of_toNat_eq
    have hd : 2 ^ 256 ∣ v.toNat * 2 ^ s.toNat :=
      (Nat.pow_dvd_pow 2 (by omega)).mul_left _
    rw [BitVec.toNat_ofNat, Nat.mod_eq_zero_of_dvd hd]
    rfl

theorem shr_eq_integers (s v : Word) : v.shr s = Integers.shr s v := by
  unfold shr Integers.shr
  have hi := toI32Safe_lt_iff s (le_refl 256)
  by_cases hlt : s.toNat < 256
  · rw [if_neg (by omega), toI32Safe_eq_of_lt hlt, ← Nat.shiftRight_eq_div_pow,
      ← BitVec.toNat_ushiftRight]
    exact (ofNat_toNat_eq _).symm
  · rw [if_pos (by omega)]
    have hs : v.toNat < 2 ^ s.toNat :=
      v.isLt.trans_le (Nat.pow_le_pow_right (by decide) (by omega))
    rw [Nat.div_eq_of_lt hs]
    rfl

theorem sar_eq_sshiftRight (s v : Word) : v.sar s = v.sshiftRight s.toNat := by
  have hif := toI32Safe_lt_iff s (le_refl 256)
  unfold sar
  dsimp only
  rw [isNegative_eq_msb]
  by_cases hlt : s.toNat < 256
  · rw [if_neg (by omega)]
    cases hn : v.msb with
    | false =>
      rw [if_neg (by decide), shr, if_neg (by omega), toI32Safe_eq_of_lt hlt,
        BitVec.sshiftRight_eq_of_msb_false hn]
    | true =>
      rw [if_pos rfl, toI32Safe_eq_of_lt hlt]
      apply BitVec.eq_of_getLsbD_eq
      intro i hi
      rw [BitVec.getLsbD_or, BitVec.getLsbD_ushiftRight, BitVec.getLsbD_shiftLeft,
        BitVec.getLsbD_allOnes, BitVec.getLsbD_sshiftRight, hn]
      by_cases hin : s.toNat + i < 256
      · have hb : i < 256 - s.toNat := by omega
        simp [hi, hin, hb]
      · have ha : ¬ i < 256 - s.toNat := by omega
        have he : i - (256 - s.toNat) < 256 := by omega
        simp [hi, hin, ha, he]
  · rw [if_pos (by omega)]
    apply BitVec.eq_of_getLsbD_eq
    intro i hi
    rw [BitVec.getLsbD_sshiftRight]
    have ho : ¬ s.toNat + i < 256 := by omega
    cases hn : v.msb with
    | false => simp [ho]
    | true =>
      rw [if_pos rfl, BitVec.getLsbD_allOnes]
      simp [hi, ho]

theorem sar_eq_integers (s v : Word) : v.sar s = Integers.sar s v := by
  unfold Integers.sar
  rw [sar_eq_sshiftRight, BitVec.sshiftRight_eq, Int.shiftRight_eq_div_pow]
  norm_cast

/-! ## Extension and bytes -/

theorem getLsbD_mask {n : Nat} (hn : n ≤ 256) (i : Nat) :
    ((1 : Word) <<< n - 1).getLsbD i = decide (i < n) := by
  have hm : ((1 : Word) <<< n - 1).toNat = 2 ^ n - 1 := by
    have hpo := Nat.two_pow_pos n
    rw [BitVec.toNat_sub, BitVec.toNat_shiftLeft, Nat.shiftLeft_eq,
      show (1 : Word).toNat = 1 from rfl, one_mul]
    rcases Nat.eq_or_lt_of_le hn with rfl | hlt
    · rfl
    · have hp : 2 ^ n < 2 ^ 256 := Nat.pow_lt_pow_right (by decide) hlt
      rw [Nat.mod_eq_of_lt hp]
      omega
  rw [BitVec.getLsbD, hm, Nat.testBit_two_pow_sub_one]

theorem signExtend_eq_signExtend_setWidth {k : Word} (hk : k.toNat < 32) (v : Word) :
    v.signExtend k = (v.setWidth (8 * (k.toNat + 1))).signExtend 256 := by
  have hr : k.toI32Safe = k.toNat := toI32Safe_eq_of_lt (by omega)
  have hw : k.toNat * 8 + 7 + 1 = 8 * (k.toNat + 1) := by omega
  have hs : (v.setWidth (8 * (k.toNat + 1))).msb = v.bit (k.toNat * 8 + 7) := by
    rw [BitVec.msb_setWidth, bit]
    simp [show 8 * (k.toNat + 1) - 1 = k.toNat * 8 + 7 by omega]
  unfold signExtend
  dsimp only
  rw [hr, if_neg (by omega), hw]
  apply BitVec.eq_of_getLsbD_eq
  intro i hi
  rw [BitVec.getLsbD_signExtend, hs, BitVec.getLsbD_setWidth]
  have ho : i - 8 * (k.toNat + 1) < 256 := by omega
  cases hb : v.bit (k.toNat * 8 + 7) with
  | false =>
    rw [if_neg (by decide), BitVec.getLsbD_and, getLsbD_mask (by omega)]
    by_cases hl : i < 8 * (k.toNat + 1) <;> simp [hi, hl]
  | true =>
    rw [if_pos rfl, BitVec.getLsbD_or, BitVec.getLsbD_shiftLeft, BitVec.getLsbD_allOnes]
    by_cases hl : i < 8 * (k.toNat + 1) <;> simp [hi, hl, ho]

theorem signExtend_eq_integers (k v : Word) : v.signExtend k = Integers.signextend k v := by
  unfold Integers.signextend
  by_cases hk : k.toNat < 32
  · rw [if_pos hk, signExtend_eq_signExtend_setWidth hk]
    rw [BitVec.signExtend, BitVec.toInt_setWidth]
  · have hi := toI32Safe_lt_iff k (show 32 ≤ 256 by decide)
    rw [if_neg hk, signExtend]
    exact if_pos (by omega)

theorem toNat_getD_toBeBytes (v : Word) {i : Nat} (hi : i < 32) :
    (v.toBeBytes.getD i 0).toNat = v.toNat / 256 ^ (31 - i) % 256 := by
  have hg : v.toBeBytes[i]? = some (UInt8.ofNat (v.toNat / 256 ^ (31 - i))) := by
    rw [toBeBytes, List.getElem?_map, List.getElem?_range hi]
    rfl
  rw [List.getD_eq_getElem?_getD, hg, Option.getD_some, UInt8.toNat_ofNat']

end RustTron.Word
