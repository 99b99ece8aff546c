import RustTron.Primitives.Bytes
import Mathlib

/-!
# Market price keys

A price level of the market is stored under a pair of token ids followed by the two quantities of
the price, of eight bytes each. Prices are compared by cross multiplication.

The quantities are read from the bytes as they are, so a stored key may carry negative ones. Cross
multiplication turns the order of two quotients around where the sold quantities differ in sign:
it is an order among the prices that agree in that sign only.

## Main definitions

* `MarketPrice`, `comparePrice`, `comparePriceKey`: the prices and their order
* `quotient`, `SameSign`: a price as a quotient, and agreement in the sign of what is sold

## Main results

* `comparePrice_eq`: the two ways to multiply agree
* `comparePrice_of_sameSign`, `comparePrice_of_not_sameSign`: the order of the quotients, or its
  reverse
-/

namespace RustTron.Market

/-- `MARKET_PAIR_LENGTH`. -/
def pairLength : Nat := 38

/-- `MARKET_PRICE_KEY_LENGTH`. -/
def priceKeyLength : Nat := 54

structure MarketPrice where
  sellQuantity : Int
  buyQuantity : Int
  deriving DecidableEq, Repr

/-- `MarketKeyError::TooShort`. -/
structure KeyError where
  minimum : Nat
  actual : Nat
  deriving DecidableEq, Repr

def compareUnsigned (left right : Bytes) : Ordering := compare left right

/-- `positive_bytes_to_i64_truncating`: the low eight bytes, zeros before them where they are
fewer. -/
def positiveBytesToI64Truncating (bytes : Bytes) : Int :=
  let source := bytes.drop (bytes.length - 8)
  (fromBe64 (List.replicate (8 - source.length) 0 ++ source)).getD 0

/-- `compare_price`: the cross products, as `i64` where both fit. -/
def comparePrice (left right : MarketPrice) : Ordering :=
  match checkedMul left.buyQuantity right.sellQuantity,
    checkedMul right.buyQuantity left.sellQuantity with
  | some leftCross, some rightCross => compare leftCross rightCross
  | _, _ =>
    compare (left.buyQuantity * right.sellQuantity) (right.buyQuantity * left.sellQuantity)

/-- The pair of a key. -/
def pairOf (key : Bytes) : Bytes := key.take pairLength

/-- The price of a key. -/
def decodePrice (key : Bytes) : MarketPrice where
  sellQuantity := positiveBytesToI64Truncating ((key.drop pairLength).take 8)
  buyQuantity := positiveBytesToI64Truncating ((key.drop (pairLength + 8)).take 8)

/-- One of the quantities of a price is zero. -/
def MarketPrice.isZero (price : MarketPrice) : Bool :=
  price.sellQuantity == 0 || price.buyQuantity == 0

/-- `compare_price_key`: the pairs first, then zero prices before the others. -/
def comparePriceKey (left right : Bytes) : Except KeyError Ordering :=
  if left.length < priceKeyLength then .error ⟨priceKeyLength, left.length⟩
  else if right.length < priceKeyLength then .error ⟨priceKeyLength, right.length⟩
  else
    match compareUnsigned (pairOf left) (pairOf right) with
    | .eq =>
      match (decodePrice left).isZero, (decodePrice right).isZero with
      | true, true => .ok .eq
      | true, false => .ok .lt
      | false, true => .ok .gt
      | false, false => .ok (comparePrice (decodePrice left) (decodePrice right))
    | order => .ok order

theorem comparePrice_eq (left right : MarketPrice) :
    comparePrice left right =
      compare (left.buyQuantity * right.sellQuantity) (right.buyQuantity * left.sellQuantity) := by
  unfold comparePrice
  split
  · next hl hr =>
    rw [checkedMul, toI64_eq_some_iff] at hl hr
    rw [hl.2, hr.2]
  · rfl

/-- The price as a quotient. -/
def quotient (price : MarketPrice) : ℚ := price.buyQuantity / price.sellQuantity

/-- The two prices sell quantities of one sign. -/
def SameSign (left right : MarketPrice) : Prop := 0 < left.sellQuantity ↔ 0 < right.sellQuantity

instance (left right : MarketPrice) : Decidable (SameSign left right) :=
  inferInstanceAs (Decidable (_ ↔ _))

/-- Two signs are all there are. -/
theorem SameSign.of_not_of_not {a b c : MarketPrice} (hab : ¬ SameSign a b) (hbc : ¬ SameSign b c) :
    SameSign c a := by
  unfold SameSign at hab hbc ⊢
  omega

theorem comparePrice_eq_compare_mul {left right : MarketPrice} (hle : left.sellQuantity ≠ 0)
    (hri : right.sellQuantity ≠ 0) :
    comparePrice left right =
      compare ((left.sellQuantity * right.sellQuantity : ℚ) * quotient left)
        ((left.sellQuantity * right.sellQuantity : ℚ) * quotient right) := by
  have hl : (left.sellQuantity : ℚ) ≠ 0 := Int.cast_ne_zero.mpr hle
  have hr : (right.sellQuantity : ℚ) ≠ 0 := Int.cast_ne_zero.mpr hri
  have hc : StrictMono ((↑) : Int → ℚ) := Int.cast_strictMono
  have hf : (left.sellQuantity * right.sellQuantity : ℚ) * quotient left =
      ((left.buyQuantity * right.sellQuantity : Int) : ℚ) := by
    rw [quotient, Int.cast_mul]
    field_simp
  have hs : (left.sellQuantity * right.sellQuantity : ℚ) * quotient right =
      ((right.buyQuantity * left.sellQuantity : Int) : ℚ) := by
    rw [quotient, Int.cast_mul]
    field_simp
  rw [comparePrice_eq, hf, hs, ← cmp_eq_compare, ← cmp_eq_compare, hc.cmp_map_eq]

/-- Among prices whose sold quantities agree in sign the order is that of the quotients. -/
theorem comparePrice_of_sameSign {left right : MarketPrice} (hle : left.sellQuantity ≠ 0)
    (hri : right.sellQuantity ≠ 0) (hs : SameSign left right) :
    comparePrice left right = compare (quotient left) (quotient right) := by
  have hp : (0 : ℚ) < left.sellQuantity * right.sellQuantity := by
    rcases lt_or_gt_of_ne hle with hl | hl
    · have hr : ¬ 0 < right.sellQuantity := fun h => absurd (hs.mpr h) hl.asymm
      exact mul_pos_of_neg_of_neg (Int.cast_lt_zero.mpr hl) (Int.cast_lt_zero.mpr (by omega))
    · exact mul_pos (Int.cast_pos.mpr hl) (Int.cast_pos.mpr (hs.mp hl))
  rw [comparePrice_eq_compare_mul hle hri, ← cmp_eq_compare, ← cmp_eq_compare,
    cmp_mul_pos_left hp]

/-- Between prices whose sold quantities differ in sign the order of the quotients turns around. -/
theorem comparePrice_of_not_sameSign {left right : MarketPrice} (hle : left.sellQuantity ≠ 0)
    (hri : right.sellQuantity ≠ 0) (hs : ¬ SameSign left right) :
    comparePrice left right = compare (quotient right) (quotient left) := by
  have hp : (left.sellQuantity * right.sellQuantity : ℚ) < 0 := by
    rcases lt_or_gt_of_ne hle with hl | hl
    · have hr : 0 < right.sellQuantity := by
        by_contra hr
        exact hs ⟨fun h => absurd h hl.asymm, fun h => absurd h hr⟩
      exact mul_neg_of_neg_of_pos (Int.cast_lt_zero.mpr hl) (Int.cast_pos.mpr hr)
    · have hr : ¬ 0 < right.sellQuantity := fun hr => hs ⟨fun _ => hr, fun _ => hl⟩
      exact mul_neg_of_pos_of_neg (Int.cast_pos.mpr hl) (Int.cast_lt_zero.mpr (by omega))
  rw [comparePrice_eq_compare_mul hle hri, ← cmp_eq_compare, ← cmp_eq_compare,
    cmp_mul_neg_left hp]

end RustTron.Market
