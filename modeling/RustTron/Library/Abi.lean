import Mathlib
import RustTron.Library.Reader

/-!
# The standard encoding of arguments

A number takes a word of 32 bytes. A byte string is its length, the bytes, and zeros up to a whole
word. An array of byte strings is its length, the offsets of its elements, and the elements; the
offsets count from the position after the length.

## Main definitions

* `Abi.word`, `Abi.bytes`, `Abi.bytesArray`, `Abi.words`: the encodings
* `Abi.numberAt`: the number in the word at a position

## Main results

* `Abi.numberAt_append`: a number is found where it was put
* `Abi.offsets_append`, `Abi.length_bytesArray`: the offsets of the elements
-/

namespace Abi

/-- A number of less than 256 bits. -/
def word (n : Nat) : List UInt8 := beBytes 32 n

/-- How many zeros follow so many bytes. -/
def padding (n : Nat) : Nat := (32 - n % 32) % 32

/-- A byte string. -/
def bytes (b : List UInt8) : List UInt8 :=
  word b.length ++ (b ++ List.replicate (padding b.length) 0)

/-- The offsets of byte strings of which the first is at `start`. -/
def offsets (start : Nat) : List (List UInt8) → List UInt8
  | [] => []
  | b :: bs => word start ++ offsets (start + (bytes b).length) bs

/-- An array of byte strings. -/
def bytesArray (bs : List (List UInt8)) : List UInt8 :=
  word bs.length ++ (offsets (32 * bs.length) bs ++ bs.flatMap bytes)

/-- An array of words. -/
def words (ws : List (List UInt8)) : List UInt8 := word ws.length ++ ws.flatten

/-- The number in the word at a position. -/
def numberAt (input : List UInt8) (pos : Nat) : Option Nat :=
  if pos + 32 ≤ input.length then some (natOfBe ((input.drop pos).take 32)) else none

@[simp] theorem length_word (n : Nat) : (word n).length = 32 := length_beBytes 32 n

theorem length_bytes (b : List UInt8) : (bytes b).length = 32 + (b.length + padding b.length) := by
  rw [bytes, List.length_append, List.length_append, List.length_replicate, length_word]

/-- A byte string takes whole words. -/
theorem dvd_length_bytes (b : List UInt8) : 32 ∣ (bytes b).length := by
  rw [length_bytes, padding]
  omega

theorem length_offsets (start : Nat) (bs : List (List UInt8)) :
    (offsets start bs).length = 32 * bs.length := by
  induction bs generalizing start with
  | nil => rfl
  | cons b bs ih =>
    rw [offsets, List.length_append, ih, length_word, List.length_cons]
    omega

theorem offsets_append (start : Nat) (bs bs' : List (List UInt8)) : offsets start (bs ++ bs') =
    offsets start bs ++ offsets (start + (bs.flatMap bytes).length) bs' := by
  induction bs generalizing start with
  | nil => rfl
  | cons b bs ih =>
    rw [List.cons_append, offsets, offsets, ih, List.append_assoc, List.flatMap_cons,
      List.length_append, Nat.add_assoc]

theorem dvd_length_flatMap_bytes (bs : List (List UInt8)) : 32 ∣ (bs.flatMap bytes).length := by
  induction bs with
  | nil => exact Nat.dvd_zero 32
  | cons b bs ih =>
    rw [List.flatMap_cons, List.length_append]
    exact Nat.dvd_add (dvd_length_bytes b) ih

theorem length_bytesArray (bs : List (List UInt8)) :
    (bytesArray bs).length = 32 + 32 * bs.length + (bs.flatMap bytes).length := by
  rw [bytesArray, List.length_append, List.length_append, length_offsets, length_word,
    Nat.add_assoc]

/-! ## Reading -/

theorem numberAt_eq_some {input : List UInt8} {pos : Nat} (h : pos + 32 ≤ input.length) :
    numberAt input pos = some (natOfBe ((input.drop pos).take 32)) := if_pos h

/-- A number is found where it was put. -/
theorem numberAt_append {before after : List UInt8} {pos n : Nat} (hp : before.length = pos)
    (hn : n < 2 ^ 256) : numberAt (before ++ (word n ++ after)) pos = some n := by
  have hl : pos + 32 ≤ (before ++ (word n ++ after)).length := by
    rw [List.length_append, List.length_append, length_word]
    omega
  have hw : ((before ++ (word n ++ after)).drop pos).take 32 = word n := by
    rw [List.drop_left' hp]
    exact List.take_left' (length_word n)
  rw [numberAt_eq_some hl, hw, word, natOfBe_beBytes hn]

/-! ## Words of a small number -/

theorem natOfBe_snoc (bytes : List UInt8) (b : UInt8) :
    natOfBe (bytes ++ [b]) = natOfBe bytes * 256 + b.toNat := by
  rw [natOfBe, List.foldl_append]
  rfl

theorem natOfBe_append (hi low : List UInt8) :
    natOfBe (hi ++ low) = natOfBe hi * 256 ^ low.length + natOfBe low := by
  induction low using List.reverseRecOn with
  | nil => simp [natOfBe]
  | append_singleton low b ih =>
    rw [← List.append_assoc, natOfBe_snoc, natOfBe_snoc, ih, List.length_append,
      List.length_singleton, Nat.pow_succ]
    ring

theorem natOfBe_eq_zero_iff (bytes : List UInt8) : natOfBe bytes = 0 ↔ ∀ b ∈ bytes, b = 0 := by
  induction bytes using List.reverseRecOn with
  | nil => simp [natOfBe]
  | append_singleton bytes b ih =>
    have hb : b.toNat = 0 ↔ b = 0 := by
      rw [← UInt8.toNat_inj]
      rfl
    rw [natOfBe_snoc, Nat.add_eq_zero_iff, Nat.mul_eq_zero, List.forall_mem_append, ih, hb]
    simp

/-- The number is less than what its last bytes can hold just in case the others are zero. -/
theorem natOfBe_append_lt_iff (hi low : List UInt8) :
    natOfBe (hi ++ low) < 256 ^ low.length ↔ ∀ b ∈ hi, b = 0 := by
  have hl := natOfBe_lt low
  rw [natOfBe_append, ← natOfBe_eq_zero_iff]
  constructor
  · intro h
    by_contra hne
    have hle : 1 * 256 ^ low.length ≤ natOfBe hi * 256 ^ low.length :=
      Nat.mul_le_mul_right _ (Nat.pos_of_ne_zero hne)
    omega
  · intro h
    rw [h, Nat.zero_mul, Nat.zero_add]
    exact hl

end Abi
