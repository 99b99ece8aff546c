import Mathlib

/-!
# Text as bytes

A text is a list of characters, and a program that scans it byte by byte sees its UTF-8 encoding.
An ASCII character is one byte below `0x80`. Every other character is a lead byte, which is `0xC0`
or more, and then bytes from `0x80` to `0xBF`; so a position is at a character exactly if the byte
there is not one of the latter.

## Main definitions

* `Utf8.encode`: the bytes of a text
* `Utf8.firstChar?`, `Utf8.decode?`: the first character of some bytes, and all of them
* `Utf8.isCharBoundary`: what remains of a text starts with a character
* `Utf8.Uniform p`: a test of bytes that does not tell bytes of other than ASCII characters apart

## Main results

* `Utf8.decode?_eq_some_iff`: decoding inverts encoding
* `Utf8.encode_dropWhile`, `Utf8.encode_takeWhile`: to scan bytes is to scan characters
-/

namespace Utf8

/-- The bytes of a text. -/
def encode (text : List Char) : List UInt8 := text.flatMap String.utf8EncodeChar

/-- The character is in ASCII. -/
def IsAscii (c : Char) : Prop := c.toNat < 128

instance (c : Char) : Decidable (IsAscii c) := inferInstanceAs (Decidable (c.toNat < 128))

/-- The byte of an ASCII character. -/
def ascii (c : Char) : UInt8 := UInt8.ofNat c.toNat

/-- The byte is one after the first of a character. -/
def isContinuation (b : UInt8) : Bool := 0x80 ≤ b && b < 0xC0

/-- What remains of a text starts at a character, or at the end. -/
def isCharBoundary (rest : List UInt8) : Bool := !rest.head?.any isContinuation

/-- The first character. -/
def firstChar? (bytes : List UInt8) : Option Char := ByteArray.utf8DecodeChar? ⟨bytes.toArray⟩ 0

/-- The characters of some bytes, of which there are at most so many. -/
def decodeFrom : Nat → List UInt8 → Option (List Char)
  | 0, bytes => if bytes.isEmpty then some [] else none
  | fuel + 1, bytes =>
    if bytes.isEmpty then some []
    else do
      let c ← firstChar? bytes
      let rest ← decodeFrom fuel (bytes.drop c.utf8Size)
      return c :: rest

/-- The text whose bytes these are. -/
def decode? (bytes : List UInt8) : Option (List Char) := decodeFrom bytes.length bytes

@[simp] theorem encode_nil : encode [] = [] := rfl

theorem encode_cons (c : Char) (text : List Char) :
    encode (c :: text) = String.utf8EncodeChar c ++ encode text := rfl

@[simp] theorem encode_append (s t : List Char) : encode (s ++ t) = encode s ++ encode t :=
  List.flatMap_append

/-! ## Characters -/

theorem utf8EncodeChar_ascii {c : Char} (h : IsAscii c) : String.utf8EncodeChar c = [ascii c] := by
  have hle : c.val.toNat ≤ 0x7f := Nat.le_of_lt_succ h
  rw [String.utf8EncodeChar, if_pos hle]
  rfl

theorem encode_ascii_cons {c : Char} (h : IsAscii c) (text : List Char) :
    encode (c :: text) = ascii c :: encode text := by
  rw [encode_cons, utf8EncodeChar_ascii h, List.singleton_append]

theorem toNat_ascii {c : Char} (h : IsAscii c) : (ascii c).toNat = c.toNat := by
  rw [IsAscii] at h
  rw [ascii, UInt8.toNat_ofNat', Nat.mod_eq_of_lt (by omega)]

theorem ascii_lt {c : Char} (h : IsAscii c) : ascii c < 0x80 := by
  rw [UInt8.lt_iff_toNat_lt, toNat_ascii h]
  exact h

theorem ascii_inj {c d : Char} (hc : IsAscii c) (hd : IsAscii d) : ascii c = ascii d ↔ c = d := by
  refine ⟨fun h => ?_, fun h => h ▸ rfl⟩
  have := congrArg UInt8.toNat h
  rw [toNat_ascii hc, toNat_ascii hd] at this
  exact Char.toNat_inj.mp this

/-- The character of an ASCII byte. -/
theorem ofNat_toNat_ascii {c : Char} (h : IsAscii c) : Char.ofNat (ascii c).toNat = c := by
  rw [toNat_ascii h, Char.ofNat_toNat]

/-- A character beyond ASCII: its lead byte and the bytes after it. -/
theorem exists_lead {c : Char} (h : ¬ IsAscii c) : ∃ lead rest,
    String.utf8EncodeChar c = lead :: rest ∧ 0xC0 ≤ lead ∧ rest ≠ [] ∧
      ∀ b ∈ rest, isContinuation b = true := by
  have hc : ∀ n, isContinuation (UInt8.ofNat (n % 0x40 + 0x80)) = true := by
    intro n
    have hlt : n % 0x40 < 0x40 := Nat.mod_lt _ (by omega)
    rw [isContinuation, Bool.and_eq_true, decide_eq_true_eq, decide_eq_true_eq,
      UInt8.le_iff_toNat_le, UInt8.lt_iff_toNat_lt, UInt8.toNat_ofNat']
    simp only [UInt8.reduceToNat]
    omega
  have hl : ∀ n k, n < 0x20 → 0xC0 ≤ k → k ≤ 0xE0 → (0xC0 : UInt8) ≤ UInt8.ofNat (n + k) := by
    intro n k hn hk hk'
    rw [UInt8.le_iff_toNat_le, UInt8.toNat_ofNat']
    simp only [UInt8.reduceToNat]
    omega
  have h : 0x7f < c.val.toNat := by
    have := Nat.not_lt.mp h
    exact this
  rw [String.utf8EncodeChar, if_neg (Nat.not_le.mpr h)]
  split
  · exact ⟨_, _, rfl, hl _ 0xc0 (Nat.mod_lt _ (by omega)) (by omega) (by omega), by simp,
      List.forall_mem_singleton.mpr (hc _)⟩
  split
  · refine ⟨_, _, rfl, hl _ 0xe0 (Nat.lt_trans (Nat.mod_lt _ (by omega)) (by omega : 0x10 < 0x20))
      (by omega) (by omega), by simp, ?_⟩
    simp only [List.forall_mem_cons, List.not_mem_nil, false_imp_iff, implies_true, and_true]
    exact ⟨hc _, hc _⟩
  · refine ⟨_, _, rfl, ?_, by simp, ?_⟩
    · have hlt : c.val.toNat / 262144 % 8 < 8 := Nat.mod_lt _ (by omega)
      change (0xC0 : UInt8) ≤ UInt8.ofNat (c.val.toNat / 262144 % 8 + 0xf0)
      rw [UInt8.le_iff_toNat_le, UInt8.toNat_ofNat']
      simp only [UInt8.reduceToNat]
      omega
    · simp only [List.forall_mem_cons, List.not_mem_nil, false_imp_iff, implies_true, and_true]
      exact ⟨hc _, hc _, hc _⟩

/-- The bytes of a character start at a character, and the bytes after its first do not. -/
theorem exists_cons (c : Char) : ∃ first rest, String.utf8EncodeChar c = first :: rest ∧
    isContinuation first = false ∧ ∀ b ∈ rest, isContinuation b = true := by
  by_cases h : IsAscii c
  · refine ⟨ascii c, [], utf8EncodeChar_ascii h, ?_, List.forall_mem_nil _⟩
    have := UInt8.not_le.mpr (ascii_lt h)
    rw [isContinuation, decide_eq_false this, Bool.false_and]
  · obtain ⟨lead, rest, hc, hl, -, hr⟩ := exists_lead h
    refine ⟨lead, rest, hc, ?_, hr⟩
    rw [isContinuation, decide_eq_false (UInt8.not_lt.mpr hl), Bool.and_false]

theorem isCharBoundary_encode (text : List Char) : isCharBoundary (encode text) = true := by
  cases text with
  | nil => rfl
  | cons c text =>
    obtain ⟨first, rest, hc, hf, -⟩ := exists_cons c
    rw [encode_cons, hc, isCharBoundary, List.cons_append, List.head?_cons, Option.any_some, hf]
    rfl

theorem isCharBoundary_utf8EncodeChar_append (c : Char) (bytes : List UInt8) :
    isCharBoundary (String.utf8EncodeChar c ++ bytes) = true := by
  obtain ⟨first, rest, hc, hf, -⟩ := exists_cons c
  rw [hc, isCharBoundary, List.cons_append, List.head?_cons, Option.any_some, hf]
  rfl

theorem le_of_isContinuation {b : UInt8} (h : isContinuation b = true) : 0x80 ≤ b :=
  of_decide_eq_true (Bool.and_eq_true_iff.mp h).1

/-- No byte of a character beyond ASCII is the byte of an ASCII character. -/
theorem le_of_mem {c : Char} (h : ¬ IsAscii c) {b : UInt8} (hb : b ∈ String.utf8EncodeChar c) :
    0x80 ≤ b := by
  obtain ⟨lead, rest, hc, hl, -, hr⟩ := exists_lead h
  rw [hc, List.mem_cons] at hb
  rcases hb with rfl | hb
  · exact UInt8.le_trans (by decide) hl
  · exact le_of_isContinuation (hr b hb)

/-! ## Decoding -/

theorem firstChar?_append (c : Char) (bytes : List UInt8) :
    firstChar? (String.utf8EncodeChar c ++ bytes) = some c := by
  have : (⟨(String.utf8EncodeChar c ++ bytes).toArray⟩ : ByteArray) =
      (String.utf8EncodeChar c).toByteArray ++ bytes.toByteArray := by
    rw [← List.toByteArray_append]
    exact ByteArray.ext (List.data_toByteArray).symm
  rw [firstChar?, this]
  exact ByteArray.utf8DecodeChar?_utf8EncodeChar_append

theorem exists_of_firstChar?_eq_some {bytes : List UInt8} {c : Char}
    (h : firstChar? bytes = some c) : ∃ rest, bytes = String.utf8EncodeChar c ++ rest := by
  obtain ⟨l, hl⟩ := ByteArray.exists_of_utf8DecodeChar?_eq_some h
  refine ⟨l.data.toList, ?_⟩
  have := congrArg (fun b : ByteArray => b.data.toList) hl
  simpa using this

theorem drop_utf8Size (c : Char) (bytes : List UInt8) :
    (String.utf8EncodeChar c ++ bytes).drop c.utf8Size = bytes := by
  rw [← String.length_utf8EncodeChar, List.drop_left]

theorem decodeFrom_encode (text : List Char) {fuel : Nat} (h : (encode text).length ≤ fuel) :
    decodeFrom fuel (encode text) = some text := by
  induction text generalizing fuel with
  | nil => cases fuel <;> rfl
  | cons c text ih =>
    rw [encode_cons, List.length_append, String.length_utf8EncodeChar] at h
    have hp := c.utf8Size_pos
    obtain _ | fuel := fuel
    · omega
    rw [encode_cons, decodeFrom, if_neg (by simp), firstChar?_append]
    simp only [Option.bind_eq_bind, Option.bind_some, drop_utf8Size]
    rw [ih (by omega)]
    rfl

theorem encode_of_decodeFrom {fuel : Nat} {bytes : List UInt8} {text : List Char}
    (h : decodeFrom fuel bytes = some text) : encode text = bytes := by
  induction fuel generalizing bytes text with
  | zero =>
    rw [decodeFrom] at h
    split at h
    next he =>
      cases h
      exact (List.isEmpty_iff.mp he).symm
    next => cases h
  | succ fuel ih =>
    rw [decodeFrom] at h
    split at h
    next he =>
      cases h
      exact (List.isEmpty_iff.mp he).symm
    next =>
      obtain ⟨c, hc, h⟩ := Option.bind_eq_some_iff.mp h
      obtain ⟨rest, hr, h⟩ := Option.bind_eq_some_iff.mp h
      cases h
      obtain ⟨tail, rfl⟩ := exists_of_firstChar?_eq_some hc
      rw [drop_utf8Size] at hr
      rw [encode_cons, ih hr]

/-- Decoding inverts encoding. -/
theorem decode?_eq_some_iff {bytes : List UInt8} {text : List Char} :
    decode? bytes = some text ↔ encode text = bytes := by
  refine ⟨encode_of_decodeFrom, ?_⟩
  rintro rfl
  exact decodeFrom_encode text (Nat.le_refl _)

@[simp] theorem decode?_encode (text : List Char) : decode? (encode text) = some text :=
  decode?_eq_some_iff.mpr rfl

/-! ## Tests of bytes -/

/-- The test does not tell the bytes of characters beyond ASCII apart. -/
def Uniform (p : UInt8 → Bool) : Prop := ∀ b, 0x80 ≤ b → p b = p 0x80

/-- A test of bytes, at the first byte of a character. -/
def onChar (p : UInt8 → Bool) (c : Char) : Bool := p ((String.utf8EncodeChar c).headD 0)

theorem onChar_ascii (p : UInt8 → Bool) {c : Char} (h : IsAscii c) : onChar p c = p (ascii c) := by
  rw [onChar, utf8EncodeChar_ascii h, List.headD_cons]

variable {p : UInt8 → Bool}

theorem Uniform.onChar_eq (h : Uniform p) {c : Char} {b : UInt8}
    (hb : b ∈ String.utf8EncodeChar c) : p b = onChar p c := by
  by_cases hc : IsAscii c
  · rw [utf8EncodeChar_ascii hc, List.mem_singleton] at hb
    rw [onChar_ascii p hc, hb]
  · have hh : (String.utf8EncodeChar c).headD 0 ∈ String.utf8EncodeChar c := by
      obtain ⟨first, rest, hco, -⟩ := exists_cons c
      rw [hco]
      exact List.mem_cons_self
    rw [onChar, h _ (le_of_mem hc hb), h _ (le_of_mem hc hh)]

theorem encode_dropWhile (h : Uniform p) (text : List Char) :
    (encode text).dropWhile p = encode (text.dropWhile (onChar p)) := by
  induction text with
  | nil => rfl
  | cons c text ih =>
    rw [encode_cons, List.dropWhile_cons]
    split
    next hc =>
      rw [List.dropWhile_append_of_pos fun b hb => (h.onChar_eq hb).trans hc, ih]
    next hc =>
      obtain ⟨first, rest, hco, -⟩ := exists_cons c
      have hf : p first = onChar p c := h.onChar_eq (hco ▸ List.mem_cons_self)
      rw [encode_cons, hco, List.cons_append, List.dropWhile_cons_of_neg (by rwa [hf])]

theorem encode_takeWhile (h : Uniform p) (text : List Char) :
    (encode text).takeWhile p = encode (text.takeWhile (onChar p)) := by
  have hs := List.takeWhile_append_dropWhile (p := p) (l := encode text)
  rw [encode_dropWhile h] at hs
  have hsa : encode text =
      encode (text.takeWhile (onChar p)) ++ encode (text.dropWhile (onChar p)) := by
    rw [← encode_append, List.takeWhile_append_dropWhile]
  exact List.append_cancel_right (hs.trans hsa)

end Utf8
