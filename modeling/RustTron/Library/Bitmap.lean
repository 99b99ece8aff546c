import Mathlib

/-!
# Bit tables over words

A table of `n` words of `w` bits is read as one run of `w * n` bits: bit `i` is bit `i % w` of
word `i / w`.  Programs set single bits in such a table, join and meet tables word by word, and
compare them word by word; here each of these is what it does to the bits.

## Main definitions

* `Bitmap`: the table; `Bitmap.test`, `Bitmap.set`: one bit read, one bit set
* `Bitmap.empty`, `Bitmap.full`, `Bitmap.or`, `Bitmap.and`: word by word
* `Bitmap.contains`, `Bitmap.setBits`: comparison with a mask, and the bits that are set

## Main results

* `Bitmap.test_set`, `Bitmap.test_or`, `Bitmap.test_and`: the operations bit by bit
* `Bitmap.contains_iff`: a table contains a mask iff it has every bit of the mask
* `Bitmap.test_foldl_and`, `Bitmap.test_foldl_or`: folds are conjunctions and disjunctions
-/

/-- `n` words of `w` bits. -/
abbrev Bitmap (w n : Nat) : Type := Vector (BitVec w) n

namespace Bitmap

variable {w n : Nat}

/-- Bit `i` of the table; no bit beyond the table is set. -/
def test (m : Bitmap w n) (i : Nat) : Bool := (m[i / w]?.getD 0).getLsbD (i % w)

/-- The table with bit `i` set. -/
def set (m : Bitmap w n) (i : Nat) : Bitmap w n :=
  m.setIfInBounds (i / w) (m[i / w]?.getD 0 ||| 1#w <<< (i % w))

def empty : Bitmap w n := Vector.replicate n 0

def full : Bitmap w n := Vector.replicate n (BitVec.allOnes w)

def or (a b : Bitmap w n) : Bitmap w n := Vector.zipWith (· ||| ·) a b

def and (a b : Bitmap w n) : Bitmap w n := Vector.zipWith (· &&& ·) a b

/-- Every word of `required` is covered by the word of `m` at its place. -/
def contains (m required : Bitmap w n) : Bool :=
  (Vector.zipWith (fun a b => a &&& b == b) m required).all id

/-- The bits that are set, in increasing order. -/
def setBits (m : Bitmap w n) : List Nat := (List.range (w * n)).filter m.test

/-! ### Bit by bit -/

section Bits

variable {a b m : Bitmap w n} {i j : Nat}

theorem test_eq (h : i / w < n) : m.test i = m[i / w].getLsbD (i % w) := by
  simp only [test, Vector.getElem?_eq_getElem h, Option.getD_some]

theorem test_of_le (h : n ≤ i / w) : m.test i = false := by
  simp only [test, Vector.getElem?_eq_none h, Option.getD_none, BitVec.ofNat_eq_ofNat,
    BitVec.getLsbD_zero]

theorem div_lt (h : i < w * n) : i / w < n := Nat.div_lt_of_lt_mul h

@[simp] theorem test_empty (i : Nat) : (empty : Bitmap w n).test i = false := by
  rcases Nat.lt_or_ge (i / w) n with h | h
  · rw [test_eq h]
    simp [empty]
  · exact test_of_le h

theorem test_full (h : i < w * n) : (full : Bitmap w n).test i = true := by
  have hw : 0 < w := Nat.pos_of_ne_zero fun hw => by simp [hw] at h
  rw [test_eq (div_lt h)]
  simp [full, Nat.mod_lt i hw]

@[simp] theorem test_or (a b : Bitmap w n) (i : Nat) :
    (a.or b).test i = (a.test i || b.test i) := by
  rcases Nat.lt_or_ge (i / w) n with h | h
  · simp only [test_eq h, or, Vector.getElem_zipWith, BitVec.getLsbD_or]
  · simp only [test_of_le h, Bool.or_false]

@[simp] theorem test_and (a b : Bitmap w n) (i : Nat) :
    (a.and b).test i = (a.test i && b.test i) := by
  rcases Nat.lt_or_ge (i / w) n with h | h
  · simp only [test_eq h, and, Vector.getElem_zipWith, BitVec.getLsbD_and]
  · simp only [test_of_le h, Bool.and_false]

theorem test_set (h : j < w * n) : (m.set j).test i = (decide (i = j) || m.test i) := by
  have hw : 0 < w := Nat.pos_of_ne_zero fun hw => by simp [hw] at h
  have hj := div_lt h
  rcases Nat.lt_or_ge (i / w) n with hi | hi
  · rw [test_eq hi, test_eq hi, set, Vector.getElem_setIfInBounds]
    split
    next he =>
      have hs : i % w = j % w ↔ i = j := by
        refine ⟨fun hm => ?_, fun hm => by rw [hm]⟩
        rw [← Nat.div_add_mod i w, ← Nat.div_add_mod j w, hm, he]
      have hwo : m[j / w]?.getD 0 = m[i / w] := by
        simp only [he, Vector.getElem?_eq_getElem hi, Option.getD_some]
      have hb : (1#w <<< (j % w)).getLsbD (i % w) = decide (i = j) := by
        have hr := Nat.mod_lt i hw
        simp only [← hs, BitVec.getLsbD_shiftLeft, BitVec.getLsbD_one]
        by_cases hm : i % w = j % w
        · simp only [hm, decide_true]
          grind
        · simp only [hm, decide_false]
          grind
      rw [BitVec.getLsbD_or, hwo, hb, Bool.or_comm]
    next he =>
      have hne : i ≠ j := fun hm => he (by rw [hm])
      simp [hne]
  · have hne : i ≠ j := fun hm => by
      rw [hm] at hi
      omega
    simp [test_of_le hi, hne]

theorem mem_setBits : i ∈ m.setBits ↔ i < w * n ∧ m.test i = true := by
  simp only [setBits, List.mem_filter, List.mem_range]

theorem contains_iff : a.contains b = true ↔ ∀ i ∈ b.setBits, a.test i = true := by
  simp only [contains, Vector.all_eq_true, Vector.getElem_zipWith, beq_iff_eq, id_eq]
  constructor
  · intro h i hi
    obtain ⟨hlt, hs⟩ := mem_setBits.mp hi
    have hk := div_lt hlt
    rw [test_eq hk] at hs ⊢
    have hw := congrArg (·.getLsbD (i % w)) (h (i / w) hk)
    simpa [hs] using hw
  · intro h k hk
    refine BitVec.eq_of_getLsbD_eq fun r hr => ?_
    have hd : (w * k + r) / w = k := by
      rw [Nat.mul_add_div (by omega), Nat.div_eq_of_lt hr, Nat.add_zero]
    have hm : (w * k + r) % w = r := by rw [Nat.mul_add_mod, Nat.mod_eq_of_lt hr]
    have hlt : w * k + r < w * n := by
      calc w * k + r < w * (k + 1) := by rw [Nat.mul_succ]; omega
        _ ≤ w * n := Nat.mul_le_mul_left w hk
    have hbi := h (w * k + r)
    simp only [mem_setBits, hlt, true_and, test, hd, hm, Vector.getElem?_eq_getElem hk,
      Option.getD_some] at hbi
    rw [BitVec.getLsbD_and]
    cases hb : b[k].getLsbD r with
    | false => simp
    | true => simp [hbi hb]

theorem contains_self (m : Bitmap w n) : m.contains m = true :=
  contains_iff.mpr fun _ hi => (mem_setBits.mp hi).2

end Bits

/-! ### Folds -/

section Folds

variable {A : Type} {f : A → Bitmap w n}

theorem test_foldl_and (l : List A) (m : Bitmap w n) (i : Nat) :
    (l.foldl (fun all x => all.and (f x)) m).test i = true ↔
      m.test i = true ∧ ∀ x ∈ l, (f x).test i = true := by
  induction l generalizing m with
  | nil => simp
  | cons x l ih => simp only [List.foldl_cons, ih, test_and, Bool.and_eq_true,
      List.forall_mem_cons, and_assoc]

theorem test_foldl_or (l : List A) (m : Bitmap w n) (i : Nat) :
    (l.foldl (fun any x => any.or (f x)) m).test i = true ↔
      m.test i = true ∨ ∃ x ∈ l, (f x).test i = true := by
  induction l generalizing m with
  | nil => simp
  | cons x l ih => simp only [List.foldl_cons, ih, test_or, Bool.or_eq_true,
      List.exists_mem_cons_iff, or_assoc]

end Folds

end Bitmap
