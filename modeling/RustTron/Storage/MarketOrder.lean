import RustTron.Primitives.Market

/-!
# The order of the market index

The backend and the overlays index every key of at least 54 bytes in maps ordered by
`market_total_cmp`: the price order, and the bytes where it is undecided. A map needs a total order.
The comparison is oriented and separates the keys, but it is transitive at three keys only where
none of them, with a sold quantity of the other sign, has its price between those of the other two.

## Main definitions

* `marketTotalCmp`: the comparison of two keys
* `LawfulAt`: the laws of a total order at three keys
* `Wedged`: a price of the other sign between two prices

## Main results

* `lawfulAt_marketTotalCmp_iff`: the comparison is lawful at exactly the keys that are not wedged
* `marketTotalCmp_eq_uniformCmp`: among keys of one sign it is a lexicographic order
-/

namespace RustTron.Storage

open Market

def marketTotalCmp (left right : Bytes) : Ordering :=
  match comparePriceKey left right with
  | .ok .eq => compare left right
  | .ok order => order
  | .error _ => compare left right

/-- Zero prices before the others, and those by cross multiplication. -/
def priceCmp (left right : MarketPrice) : Ordering :=
  match left.isZero, right.isZero with
  | true, true => .eq
  | true, false => .lt
  | false, true => .gt
  | false, false => comparePrice left right

/-- On keys that are long enough the order is lexicographic in the pair, the price and the bytes. -/
theorem marketTotalCmp_eq {left right : Bytes} (hl : priceKeyLength ≤ left.length)
    (hr : priceKeyLength ≤ right.length) :
    marketTotalCmp left right =
      (compare (pairOf left) (pairOf right)).then
        ((priceCmp (decodePrice left) (decodePrice right)).then (compare left right)) := by
  have hok : comparePriceKey left right =
      .ok ((compare (pairOf left) (pairOf right)).then
        (priceCmp (decodePrice left) (decodePrice right))) := by
    rw [comparePriceKey, if_neg (by omega), if_neg (by omega), compareUnsigned, priceCmp]
    cases compare (pairOf left) (pairOf right) with
    | lt => rfl
    | gt => rfl
    | eq => cases (decodePrice left).isZero <;> cases (decodePrice right).isZero <;> rfl
  rw [marketTotalCmp, hok, ← Ordering.then_assoc]
  cases (compare (pairOf left) (pairOf right)).then
    (priceCmp (decodePrice left) (decodePrice right)) <;> rfl

/-! ### The laws -/

/-- The laws of a total order at three keys. -/
structure LawfulAt {α : Type*} (cmp : α → α → Ordering) (a b c : α) : Prop where
  oriented : cmp a b = (cmp b a).swap
  equal : cmp a b = .eq ↔ a = b
  trans : (cmp a b).isLE → (cmp b c).isLE → (cmp a c).isLE

theorem comparePrice_swap (left right : MarketPrice) :
    comparePrice left right = (comparePrice right left).swap := by
  rw [comparePrice_eq, comparePrice_eq]
  exact Std.OrientedOrd.eq_swap

theorem priceCmp_swap (left right : MarketPrice) :
    priceCmp left right = (priceCmp right left).swap := by
  unfold priceCmp
  cases left.isZero <;> cases right.isZero
  · exact comparePrice_swap left right
  all_goals rfl

theorem priceCmp_self (price : MarketPrice) : priceCmp price price = .eq := by
  have hs : comparePrice price price = .eq := by
    rw [comparePrice_eq]
    exact Std.ReflOrd.compare_self
  unfold priceCmp
  cases price.isZero
  · exact hs
  · rfl

section Keys

variable {a b c : Bytes}

theorem marketTotalCmp_swap (ha : priceKeyLength ≤ a.length) (hb : priceKeyLength ≤ b.length) :
    marketTotalCmp a b = (marketTotalCmp b a).swap := by
  rw [marketTotalCmp_eq ha hb, marketTotalCmp_eq hb ha, Ordering.swap_then, Ordering.swap_then,
    ← priceCmp_swap, ← Std.OrientedOrd.eq_swap, ← Std.OrientedOrd.eq_swap]

theorem marketTotalCmp_eq_eq_iff (ha : priceKeyLength ≤ a.length)
    (hb : priceKeyLength ≤ b.length) : marketTotalCmp a b = .eq ↔ a = b := by
  constructor
  · intro h
    rw [marketTotalCmp_eq ha hb, Ordering.then_eq_eq, Ordering.then_eq_eq] at h
    exact Std.LawfulEqOrd.eq_of_compare h.2.2
  · rintro rfl
    rw [marketTotalCmp_eq ha ha, priceCmp_self, Std.ReflOrd.compare_self,
      Std.ReflOrd.compare_self]
    rfl

end Keys

/-! ### Keys of one sign -/

/-- The quotient of a price, zero for a zero price. -/
def level (key : Bytes) : ℚ :=
  if (decodePrice key).isZero then 0 else quotient (decodePrice key)

/-- The key carries a price that is not zero. -/
def quoted (key : Bytes) : Bool := !(decodePrice key).isZero

/-- The lexicographic order in the pair, the class of the price, its quotient and the bytes. -/
def uniformCmp : Bytes → Bytes → Ordering :=
  compareLex (compareOn pairOf) (compareLex (compareOn quoted) (compareLex (compareOn level) compare))

instance : Std.TransCmp uniformCmp :=
  inferInstanceAs (Std.TransCmp (compareLex _ (compareLex _ (compareLex _ _))))

/-- Two keys of one pair with prices whose sold quantities differ in sign. -/
structure Opposed (a b : Bytes) : Prop where
  pair : pairOf a = pairOf b
  left : quoted a = true
  right : quoted b = true
  odd : ¬ SameSign (decodePrice a) (decodePrice b)

section Laws

variable {a b c : Bytes}

theorem sellQuantity_ne_zero (h : quoted a = true) : (decodePrice a).sellQuantity ≠ 0 := by
  intro hz
  simp [quoted, MarketPrice.isZero, hz] at h

theorem marketTotalCmp_eq_uniformCmp (ha : priceKeyLength ≤ a.length)
    (hb : priceKeyLength ≤ b.length) (h : ¬ Opposed a b) :
    marketTotalCmp a b = uniformCmp a b := by
  rw [marketTotalCmp_eq ha hb]
  simp only [uniformCmp, compareLex, compareOn]
  by_cases hp : pairOf a = pairOf b
  · rw [hp, Std.ReflOrd.compare_self, Ordering.eq_then, Ordering.eq_then, ← Ordering.then_assoc]
    congr 1
    unfold priceCmp level
    cases hza : (decodePrice a).isZero <;> cases hzb : (decodePrice b).isZero
    · have hqa : quoted a = true := by rw [quoted, hza]; rfl
      have hqb : quoted b = true := by rw [quoted, hzb]; rfl
      have hs : SameSign (decodePrice a) (decodePrice b) := by
        by_contra ho
        exact h ⟨hp, hqa, hqb, ho⟩
      rw [hqa, hqb]
      exact comparePrice_of_sameSign (sellQuantity_ne_zero hqa) (sellQuantity_ne_zero hqb) hs
    all_goals
      simp only [quoted, hza, hzb]
      rfl
  · have hne : compare (pairOf a) (pairOf b) ≠ .eq :=
      fun heq => hp (Std.LawfulEqOrd.eq_of_compare heq)
    cases hc : compare (pairOf a) (pairOf b)
    · rfl
    · exact absurd hc hne
    · rfl

/-- Three keys each before the next, around. -/
def Cycle (cmp : Bytes → Bytes → Ordering) (a b c : Bytes) : Prop :=
  cmp a b = .lt ∧ cmp b c = .lt ∧ cmp c a = .lt

theorem Cycle.rotate {cmp : Bytes → Bytes → Ordering} (h : Cycle cmp a b c) : Cycle cmp b c a :=
  ⟨h.2.1, h.2.2, h.1⟩

theorem not_cycle_of_transCmp {cmp : Bytes → Bytes → Ordering} [Std.TransCmp cmp] :
    ¬ Cycle cmp a b c := by
  rintro ⟨hab, hbc, hca⟩
  have hac : cmp a c = .lt := Std.TransCmp.lt_trans hab hbc
  have hs : cmp a c = (cmp c a).swap := Std.OrientedCmp.eq_swap
  rw [hs, hca] at hac
  cases hac

/-- The comparison is transitive at three keys where they are no cycle. -/
theorem trans_iff_not_cycle (ha : priceKeyLength ≤ a.length) (hb : priceKeyLength ≤ b.length)
    (hc : priceKeyLength ≤ c.length) :
    ((marketTotalCmp a b).isLE → (marketTotalCmp b c).isLE → (marketTotalCmp a c).isLE) ↔
      ¬ Cycle marketTotalCmp a b c := by
  have hs := marketTotalCmp_swap ha hc
  constructor
  · rintro h ⟨hab, hbc, hca⟩
    have hac := h (by rw [hab]; rfl) (by rw [hbc]; rfl)
    rw [hs, hca] at hac
    cases hac
  · intro h hab hbc
    by_contra hac
    have hca : marketTotalCmp c a = .lt := by
      rw [hs] at hac
      cases hcas : marketTotalCmp c a <;> simp_all
    cases hcab : marketTotalCmp a b with
    | gt => simp [hcab] at hab
    | eq =>
      obtain rfl := (marketTotalCmp_eq_eq_iff ha hb).mp hcab
      exact hac hbc
    | lt =>
      cases hcb : marketTotalCmp b c with
      | gt => simp [hcb] at hbc
      | eq =>
        obtain rfl := (marketTotalCmp_eq_eq_iff hb hc).mp hcb
        exact hac hab
      | lt => exact h ⟨hcab, hcb, hca⟩

end Laws

/-! ### Prices of the other sign -/

/-- The price of `x` is sold with the other sign than those of `y` and `z`, and lies between them. At
a tie the bytes decide. -/
structure Wedged (y z x : Bytes) : Prop where
  pair : pairOf y = pairOf z ∧ pairOf z = pairOf x
  prices : quoted y = true ∧ quoted z = true ∧ quoted x = true
  same : SameSign (decodePrice y) (decodePrice z)
  odd : ¬ SameSign (decodePrice y) (decodePrice x)
  apart : quotient (decodePrice y) < quotient (decodePrice z)
  above : quotient (decodePrice y) < quotient (decodePrice x) ∨
    quotient (decodePrice y) = quotient (decodePrice x) ∧ compare x y = .lt
  below : quotient (decodePrice x) < quotient (decodePrice z) ∨
    quotient (decodePrice x) = quotient (decodePrice z) ∧ compare z x = .lt

section Wedge

variable {a b c x y z : Bytes}

theorem lt_iff_of_sameSign (ha : priceKeyLength ≤ a.length) (hb : priceKeyLength ≤ b.length)
    (hp : pairOf a = pairOf b) (hqa : quoted a = true) (hqb : quoted b = true)
    (hs : SameSign (decodePrice a) (decodePrice b)) :
    marketTotalCmp a b = .lt ↔ quotient (decodePrice a) < quotient (decodePrice b) ∨
      quotient (decodePrice a) = quotient (decodePrice b) ∧ compare a b = .lt := by
  have hza : (decodePrice a).isZero = false := by simpa [quoted] using hqa
  have hzb : (decodePrice b).isZero = false := by simpa [quoted] using hqb
  rw [marketTotalCmp_eq ha hb, hp, Std.ReflOrd.compare_self, Ordering.eq_then, priceCmp, hza,
    hzb]
  dsimp only
  rw [comparePrice_of_sameSign (sellQuantity_ne_zero hqa) (sellQuantity_ne_zero hqb) hs,
    Ordering.then_eq_lt, compare_lt_iff_lt, compare_eq_iff_eq]

theorem lt_iff_of_not_sameSign (ha : priceKeyLength ≤ a.length) (hb : priceKeyLength ≤ b.length)
    (hp : pairOf a = pairOf b) (hqa : quoted a = true) (hqb : quoted b = true)
    (hs : ¬ SameSign (decodePrice a) (decodePrice b)) :
    marketTotalCmp a b = .lt ↔ quotient (decodePrice b) < quotient (decodePrice a) ∨
      quotient (decodePrice b) = quotient (decodePrice a) ∧ compare a b = .lt := by
  have hza : (decodePrice a).isZero = false := by simpa [quoted] using hqa
  have hzb : (decodePrice b).isZero = false := by simpa [quoted] using hqb
  rw [marketTotalCmp_eq ha hb, hp, Std.ReflOrd.compare_self, Ordering.eq_then, priceCmp, hza,
    hzb]
  dsimp only
  rw [comparePrice_of_not_sameSign (sellQuantity_ne_zero hqa) (sellQuantity_ne_zero hqb) hs,
    Ordering.then_eq_lt, compare_lt_iff_lt, compare_eq_iff_eq]

theorem Wedged.cycle (hy : priceKeyLength ≤ y.length) (hz : priceKeyLength ≤ z.length)
    (hx : priceKeyLength ≤ x.length) (h : Wedged y z x) : Cycle marketTotalCmp y z x := by
  obtain ⟨hqy, hqz, hqx⟩ := h.prices
  obtain ⟨hyz, hzx⟩ := h.pair
  have hod : ¬ SameSign (decodePrice z) (decodePrice x) := fun hs => h.odd (h.same.trans hs)
  have ho : ¬ SameSign (decodePrice x) (decodePrice y) := fun hs => h.odd hs.symm
  refine ⟨?_, ?_, ?_⟩
  · exact (lt_iff_of_sameSign hy hz hyz hqy hqz h.same).mpr (.inl h.apart)
  · exact (lt_iff_of_not_sameSign hz hx hzx hqz hqx hod).mpr h.below
  · exact (lt_iff_of_not_sameSign hx hy (hyz.trans hzx).symm hqx hqy ho).mpr h.above

/-- In a cycle whose last key is the odd one, that key is wedged between the other two. -/
theorem Wedged.of_cycle (hy : priceKeyLength ≤ y.length) (hz : priceKeyLength ≤ z.length)
    (hx : priceKeyLength ≤ x.length) (hp : pairOf y = pairOf z ∧ pairOf z = pairOf x)
    (hq : quoted y = true ∧ quoted z = true ∧ quoted x = true)
    (hsa : SameSign (decodePrice y) (decodePrice z))
    (ho : ¬ SameSign (decodePrice y) (decodePrice x)) (h : Cycle marketTotalCmp y z x) :
    Wedged y z x := by
  obtain ⟨hqy, hqz, hqx⟩ := hq
  obtain ⟨hyz, hzx⟩ := hp
  have hoddz : ¬ SameSign (decodePrice z) (decodePrice x) := fun hs => ho (hsa.trans hs)
  have hod : ¬ SameSign (decodePrice x) (decodePrice y) := fun hs => ho hs.symm
  have hf := (lt_iff_of_sameSign hy hz hyz hqy hqz hsa).mp h.1
  have hbe := (lt_iff_of_not_sameSign hz hx hzx hqz hqx hoddz).mp h.2.1
  have hab := (lt_iff_of_not_sameSign hx hy (hyz.trans hzx).symm hqx hqy hod).mp h.2.2
  refine ⟨⟨hyz, hzx⟩, ⟨hqy, hqz, hqx⟩, hsa, ho, ?_, hab, hbe⟩
  rcases hf with hlt | ⟨heq, hc⟩
  · exact hlt
  -- with equal quotients all three are ordered by their bytes, around
  · rcases hab with ha | ⟨ha, hxy⟩
    · rcases hbe with hb | ⟨hb, -⟩
      · exact ha.trans hb
      · exact hb ▸ ha
    · rcases hbe with hb | ⟨-, hz'⟩
      · exact ha ▸ hb
      · exact (@not_cycle_of_transCmp _ _ _ compare _ ⟨hc, hz', hxy⟩).elim

theorem Cycle.pair (ha : priceKeyLength ≤ a.length) (hb : priceKeyLength ≤ b.length)
    (hc : priceKeyLength ≤ c.length) (h : Cycle marketTotalCmp a b c) :
    pairOf a = pairOf b ∧ pairOf b = pairOf c := by
  have hle : ∀ {k l : Bytes}, priceKeyLength ≤ k.length → priceKeyLength ≤ l.length →
      marketTotalCmp k l = .lt → (compare (pairOf k) (pairOf l)).isLE := by
    intro k l hk hl hlt
    rw [marketTotalCmp_eq hk hl, Ordering.then_eq_lt] at hlt
    rcases hlt with hlt | ⟨heq, -⟩
    · rw [hlt]; rfl
    · rw [heq]; rfl
  have hab := hle ha hb h.1
  have hbc := hle hb hc h.2.1
  have hca := hle hc ha h.2.2
  have hba := Std.TransOrd.isLE_trans hbc hca
  have hcb := Std.TransOrd.isLE_trans hca hab
  exact ⟨Std.LawfulEqOrd.eq_of_compare (Std.OrientedCmp.isLE_antisymm hab hba),
    Std.LawfulEqOrd.eq_of_compare (Std.OrientedCmp.isLE_antisymm hbc hcb)⟩

theorem quoted_of_lt (ha : priceKeyLength ≤ a.length) (hb : priceKeyLength ≤ b.length)
    (hp : pairOf a = pairOf b) (hlt : marketTotalCmp a b = .lt) (hq : quoted a = true) :
    quoted b = true := by
  have hza : (decodePrice a).isZero = false := by simpa [quoted] using hq
  rw [marketTotalCmp_eq ha hb, hp, Std.ReflOrd.compare_self, Ordering.eq_then, priceCmp,
    hza] at hlt
  cases hzb : (decodePrice b).isZero with
  | false => rw [quoted, hzb]; rfl
  | true => simp [hzb] at hlt

theorem Cycle.mixed (ha : priceKeyLength ≤ a.length) (hb : priceKeyLength ≤ b.length)
    (hc : priceKeyLength ≤ c.length) (h : Cycle marketTotalCmp a b c) :
    (quoted a = true ∧ quoted b = true ∧ quoted c = true) ∧
      ¬ (SameSign (decodePrice a) (decodePrice b) ∧ SameSign (decodePrice b) (decodePrice c)) := by
  obtain ⟨hab, hbc⟩ := h.pair ha hb hc
  have hn : Opposed a b ∨ Opposed b c ∨ Opposed c a := by
    by_contra hno
    simp only [not_or] at hno
    obtain ⟨hna, hnb, hnc⟩ := hno
    refine @not_cycle_of_transCmp a b c uniformCmp _ ⟨?_, ?_, ?_⟩
    · rw [← marketTotalCmp_eq_uniformCmp ha hb hna]; exact h.1
    · rw [← marketTotalCmp_eq_uniformCmp hb hc hnb]; exact h.2.1
    · rw [← marketTotalCmp_eq_uniformCmp hc ha hnc]; exact h.2.2
  have hqb : quoted a = true → quoted b = true := quoted_of_lt ha hb hab h.1
  have hqc : quoted b = true → quoted c = true := quoted_of_lt hb hc hbc h.2.1
  have hqa : quoted c = true → quoted a = true := quoted_of_lt hc ha (hab.trans hbc).symm h.2.2
  have hq : quoted a = true := by
    rcases hn with ho | ho | ho
    · exact ho.left
    · exact hqa ho.right
    · exact ho.right
  refine ⟨⟨hq, hqb hq, hqc (hqb hq)⟩, fun hs => ?_⟩
  rcases hn with ho | ho | ho
  · exact ho.odd hs.1
  · exact ho.odd hs.2
  · exact ho.odd (hs.1.trans hs.2).symm

theorem cycle_iff_wedged (ha : priceKeyLength ≤ a.length) (hb : priceKeyLength ≤ b.length)
    (hc : priceKeyLength ≤ c.length) :
    Cycle marketTotalCmp a b c ↔ Wedged a b c ∨ Wedged b c a ∨ Wedged c a b := by
  constructor
  · intro h
    obtain ⟨hab, hbc⟩ := h.pair ha hb hc
    have hca := (hab.trans hbc).symm
    obtain ⟨⟨hqa, hqb, hqc⟩, hm⟩ := h.mixed ha hb hc
    by_cases hsa : SameSign (decodePrice a) (decodePrice b)
    · have ho : ¬ SameSign (decodePrice a) (decodePrice c) :=
        fun hs => hm ⟨hsa, hsa.symm.trans hs⟩
      exact .inl (.of_cycle ha hb hc ⟨hab, hbc⟩ ⟨hqa, hqb, hqc⟩ hsa ho h)
    · by_cases hsb : SameSign (decodePrice b) (decodePrice c)
      · have ho : ¬ SameSign (decodePrice b) (decodePrice a) := fun hs => hsa hs.symm
        exact .inr (.inl (.of_cycle hb hc ha ⟨hbc, hca⟩ ⟨hqb, hqc, hqa⟩ hsb ho h.rotate))
      · have hsc : SameSign (decodePrice c) (decodePrice a) := .of_not_of_not hsa hsb
        have ho : ¬ SameSign (decodePrice c) (decodePrice b) := fun hs => hsb hs.symm
        exact .inr (.inr
          (.of_cycle hc ha hb ⟨hca, hab⟩ ⟨hqc, hqa, hqb⟩ hsc ho h.rotate.rotate))
  · rintro (h | h | h)
    · exact h.cycle ha hb hc
    · exact (h.cycle hb hc ha).rotate.rotate
    · exact (h.cycle hc ha hb).rotate

/-- The comparison obeys the laws of a total order at exactly the keys of which none is wedged
between the other two. -/
theorem lawfulAt_marketTotalCmp_iff (a b c : Bytes) (ha : priceKeyLength ≤ a.length)
    (hb : priceKeyLength ≤ b.length) (hc : priceKeyLength ≤ c.length) :
    LawfulAt marketTotalCmp a b c ↔ ¬ (Wedged a b c ∨ Wedged b c a ∨ Wedged c a b) := by
  rw [← cycle_iff_wedged ha hb hc, ← trans_iff_not_cycle ha hb hc]
  exact ⟨fun h => h.trans, fun h =>
    ⟨marketTotalCmp_swap ha hb, marketTotalCmp_eq_eq_iff ha hb, h⟩⟩

/-- A key of the pair of zeros. -/
def zeroPairKey (sell buy : Int) : Bytes := List.replicate pairLength 0 ++ be64 sell ++ be64 buy

theorem lawfulAt_zeroPairKey :
    LawfulAt marketTotalCmp (zeroPairKey 1 1) (zeroPairKey 1 3) (zeroPairKey 1 2) :=
  (lawfulAt_marketTotalCmp_iff _ _ _ (by decide) (by decide) (by decide)).mpr (by
    rintro (h | h | h)
    all_goals exact h.odd (by decide))

/-- A third price with both quantities negative lies between the other two. -/
theorem not_lawfulAt_zeroPairKey :
    ¬ LawfulAt marketTotalCmp (zeroPairKey 1 1) (zeroPairKey 1 3) (zeroPairKey (-1) (-2)) := by
  intro h
  have hle := h.trans (by decide) (by decide)
  revert hle
  decide

end Wedge

end RustTron.Storage
