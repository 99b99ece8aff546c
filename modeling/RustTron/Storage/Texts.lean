import RustTron.Storage.Format
import RustTron.Library.Results
import Mathlib

/-!
# Texts read back

What the files of the storage are written with is read back: UTF-8, digits, a body and its
checksum, the lines of a text.  Escaping is not.  It goes through the bytes of the text and writes
every byte it leaves alone as a character of its own, so a character of two bytes comes back as
two characters; what comes back of a text is the text of its bytes.

## Main definitions

* `bytewise`: the text with a character for each byte
* `Ascii`: a text of characters of one byte

## Main results

* `fromUtf8_textBytes`, `parseRadix_toDigits`, `unsealBody_sealBody`: what is read back
* `unescape_escape`: what comes back of a text that is escaped
* `bytewise_eq_iff`: it is the text iff the text is ASCII
-/

namespace RustTron.Storage

/-! ### UTF-8 -/

section Utf8

theorem toNat_ofNat_of_lt {n : Nat} (h : n < 256) : (UInt8.ofNat n).toNat = n := by
  rw [UInt8.toNat_ofNat', Nat.mod_eq_of_lt h]

theorem ofNat_lt_iff {n m : Nat} (hn : n < 256) (hm : m < 256) :
    UInt8.ofNat n < UInt8.ofNat m ↔ n < m := by
  rw [UInt8.lt_iff_toNat_lt, toNat_ofNat_of_lt hn, toNat_ofNat_of_lt hm]

theorem ofNat_le_iff {n m : Nat} (hn : n < 256) (hm : m < 256) :
    UInt8.ofNat n ≤ UInt8.ofNat m ↔ n ≤ m := by
  rw [UInt8.le_iff_toNat_le, toNat_ofNat_of_lt hn, toNat_ofNat_of_lt hm]

/-- The first byte of two, of three and of four. -/
theorem utf8Chars_lead {n : Nat} (hn : n < 256) (rest : Bytes) :
    utf8Chars none (UInt8.ofNat n :: rest) =
      if n < 0x80 then (Char.ofNat n :: ·) <$> utf8Chars none rest
      else if 0xc2 ≤ n ∧ n < 0xe0 then utf8Chars (some (1, n - 0xc0, 0x80)) rest
      else if 0xe0 ≤ n ∧ n < 0xf0 then utf8Chars (some (2, n - 0xe0, 0x800)) rest
      else if 0xf0 ≤ n ∧ n < 0xf5 then utf8Chars (some (3, n - 0xf0, 0x10000)) rest
      else none := by
  have hlt : ∀ m < 256, (UInt8.ofNat n < UInt8.ofNat m ↔ n < m) := fun m hm => ofNat_lt_iff hn hm
  have hle : ∀ m < 256, (UInt8.ofNat m ≤ UInt8.ofNat n ↔ m ≤ n) := fun m hm => ofNat_le_iff hm hn
  simp only [utf8Chars, toNat_ofNat_of_lt hn]
  simp only [← hlt 0x80 (by decide), ← hle 0xc2 (by decide), ← hlt 0xe0 (by decide),
    ← hle 0xe0 (by decide), ← hlt 0xf0 (by decide), ← hle 0xf0 (by decide),
    ← hlt 0xf5 (by decide)]
  rfl

theorem isContinuation {n : Nat} (hn : n < 64) :
    0x80 ≤ UInt8.ofNat (n + 0x80) ∧ UInt8.ofNat (n + 0x80) < 0xc0 :=
  ⟨(ofNat_le_iff (n := 0x80) (by decide) (by omega)).mpr (by omega),
    (ofNat_lt_iff (m := 0xc0) (by omega) (by decide)).mpr (by omega)⟩

/-- A byte of a character that is not its last. -/
theorem utf8Chars_more {missing value least n : Nat} (hn : n < 64) (hm : 1 < missing)
    (rest : Bytes) :
    utf8Chars (some (missing, value, least)) (UInt8.ofNat (n + 0x80) :: rest) =
      utf8Chars (some (missing - 1, value * 64 + n, least)) rest := by
  have hna : (UInt8.ofNat (n + 0x80)).toNat - 0x80 = n := by
    rw [toNat_ofNat_of_lt (by omega)]
    omega
  simp only [utf8Chars, if_pos (isContinuation hn), if_pos hm, hna]

/-- The last byte of a character. -/
theorem utf8Chars_last {value least n : Nat} (hn : n < 64) (hl : least ≤ value * 64 + n)
    (hv : (value * 64 + n).isValidChar) (rest : Bytes) :
    utf8Chars (some (1, value, least)) (UInt8.ofNat (n + 0x80) :: rest) =
      (Char.ofNat (value * 64 + n) :: ·) <$> utf8Chars none rest := by
  have hna : (UInt8.ofNat (n + 0x80)).toNat - 0x80 = n := by
    rw [toNat_ofNat_of_lt (by omega)]
    omega
  simp only [utf8Chars, if_pos (isContinuation hn), hna, lt_self_iff_false, if_false, hl,
    hv, and_self, if_true]

/-- The bytes of a character are read back as the character. -/
theorem utf8Chars_utf8EncodeChar (c : Char) (rest : Bytes) :
    utf8Chars none (String.utf8EncodeChar c ++ rest) = (c :: ·) <$> utf8Chars none rest := by
  have hc : Char.ofNat c.val.toNat = c := Char.ofNat_toNat c
  have hva : c.val.toNat.isValidChar := c.valid
  have hm : c.val.toNat < 0x110000 := by
    rcases hva with h | h <;> omega
  unfold String.utf8EncodeChar
  generalize c.val.toNat = v at hc hva hm
  dsimp only
  split
  next h1 => rw [List.singleton_append, utf8Chars_lead (by omega), if_pos (by omega), hc]
  next h1 =>
    split
    next h2 =>
      have hv : (v / 64 % 32 + 0xc0 - 0xc0) * 64 + v % 64 = v := by omega
      rw [List.cons_append, List.singleton_append, utf8Chars_lead (by omega),
        if_neg (by omega), if_pos (by omega), utf8Chars_last (by omega) (by omega)
        (by rwa [hv]), hv, hc]
    next h2 =>
      split
      next h3 =>
        have hv : ((v / 4096 % 16 + 0xe0 - 0xe0) * 64 + v / 64 % 64) * 64 + v % 64 = v := by omega
        rw [List.cons_append, List.cons_append, List.singleton_append, utf8Chars_lead (by omega),
          if_neg (by omega), if_neg (by omega), if_pos (by omega),
          utf8Chars_more (by omega) (by omega), utf8Chars_last (by omega) (by omega)
          (by rwa [hv]), hv, hc]
      next h3 =>
        have hv : (((v / 262144 % 8 + 0xf0 - 0xf0) * 64 + v / 4096 % 64) * 64 + v / 64 % 64) * 64 +
            v % 64 = v := by omega
        rw [List.cons_append, List.cons_append, List.cons_append, List.singleton_append,
          utf8Chars_lead (by omega), if_neg (by omega), if_neg (by omega), if_neg (by omega),
          if_pos (by omega), utf8Chars_more (by omega) (by omega),
          utf8Chars_more (by omega) (by omega), utf8Chars_last (by omega) (by omega)
          (by rwa [hv]), hv, hc]

/-- Every text is read back. -/
theorem fromUtf8_textBytes (text : List Char) : fromUtf8 (textBytes text) = some text := by
  induction text with
  | nil => rfl
  | cons c text ih =>
    rw [fromUtf8, textBytes, List.flatMap_cons, utf8Chars_utf8EncodeChar]
    change (c :: ·) <$> fromUtf8 (textBytes text) = _
    rw [ih]
    rfl

theorem textBytes_append (a b : List Char) : textBytes (a ++ b) = textBytes a ++ textBytes b :=
  List.flatMap_append

end Utf8

/-! ### Escaping -/

section Escape

/-- The text with a character for each byte. -/
def bytewise (text : List Char) : List Char :=
  (textBytes text).map fun b => Char.ofNat b.toNat

/-- `bytewise`, of a string. -/
def bytewiseString (text : String) : String := String.ofList (bytewise text.toList)

/-- A text of characters of one byte. -/
def Ascii (text : String) : Prop := ∀ c ∈ text.toList, c.toNat < 128

instance (text : String) : Decidable (Ascii text) :=
  inferInstanceAs (Decidable (∀ c ∈ text.toList, c.toNat < 128))

/-- The bytes that are escaped. -/
def Special (b : UInt8) : Prop := b = 0x25 ∨ b = 0x0a ∨ b = 0x0d ∨ b = 0x3d ∨ b = 0x2c

instance : DecidablePred Special := fun _ => inferInstanceAs (Decidable (_ ∨ _))

/-- What is written for a byte. -/
def escapeByte (b : UInt8) : List Char :=
  if Special b then '%' :: upperHex b else [Char.ofNat b.toNat]

theorem escape_eq (value : String) :
    escape value = (textBytes value.toList).flatMap escapeByte := rfl

theorem toNat_ofNat_byte (b : UInt8) : (Char.ofNat b.toNat).toNat = b.toNat := by
  have hlt := b.toNat_lt
  have hv : b.toNat.isValidChar := .inl (by omega)
  rw [Char.ofNat, dif_pos hv]
  rfl

/-- An ASCII character is one byte. -/
theorem utf8EncodeChar_of_lt {c : Char} (h : c.toNat < 128) :
    String.utf8EncodeChar c = [UInt8.ofNat c.toNat] := by
  unfold String.utf8EncodeChar
  exact if_pos (Nat.le_of_lt_succ h)

/-- A byte of a character above ASCII is above ASCII. -/
theorem le_of_mem_utf8EncodeChar {c : Char} (h : 128 ≤ c.toNat) {b : UInt8}
    (hb : b ∈ String.utf8EncodeChar c) : 128 ≤ b.toNat := by
  have hl : ∀ n m, n < 256 → m ≤ n → 128 ≤ m → b = UInt8.ofNat n → 128 ≤ b.toNat := by
    rintro n m hn hm h128 rfl
    rw [toNat_ofNat_of_lt hn]
    omega
  unfold String.utf8EncodeChar at hb
  have h1 : ¬ c.val.toNat ≤ 0x7f := not_le.mpr h
  simp only [h1, if_false] at hb
  split at hb
  · simp only [List.mem_cons, List.not_mem_nil, or_false] at hb
    rcases hb with hb | hb
    · exact hl _ 0xc0 (by omega) (by omega) (by decide) hb
    · exact hl _ 0x80 (by omega) (by omega) (by decide) hb
  · split at hb
    · simp only [List.mem_cons, List.not_mem_nil, or_false] at hb
      rcases hb with hb | hb | hb
      · exact hl _ 0xe0 (by omega) (by omega) (by decide) hb
      · exact hl _ 0x80 (by omega) (by omega) (by decide) hb
      · exact hl _ 0x80 (by omega) (by omega) (by decide) hb
    · simp only [List.mem_cons, List.not_mem_nil, or_false] at hb
      rcases hb with hb | hb | hb | hb
      · exact hl _ 0xf0 (by omega) (by omega) (by decide) hb
      · exact hl _ 0x80 (by omega) (by omega) (by decide) hb
      · exact hl _ 0x80 (by omega) (by omega) (by decide) hb
      · exact hl _ 0x80 (by omega) (by omega) (by decide) hb

theorem unescapeBytes_cons {b : UInt8} (h : b ≠ 0x25) (rest : Bytes) :
    unescapeBytes (b :: rest) = (b :: ·) <$> unescapeBytes rest := by
  match rest with
  | [] => simp only [unescapeBytes, if_neg h]
  | [_] => simp only [unescapeBytes, if_neg h]
  | _ :: _ :: _ => rw [unescapeBytes, if_neg h]

/-- Bytes that are no escape are taken as they are. -/
theorem unescapeBytes_append {bytes : Bytes} (h : 0x25 ∉ bytes) (rest : Bytes) :
    unescapeBytes (bytes ++ rest) = (bytes ++ ·) <$> unescapeBytes rest := by
  induction bytes with
  | nil => simp
  | cons b bytes ih =>
    obtain ⟨hb, hby⟩ := not_or.mp (List.mem_cons.not.mp h)
    rw [List.cons_append, unescapeBytes_cons (Ne.symm hb), ih hby]
    simp only [Functor.map_map]
    rfl

/-- A byte that is escaped is read back; one that is not, as the bytes of its character. -/
theorem unescapeBytes_escapeByte (b : UInt8) (rest : Bytes) :
    unescapeBytes (textBytes (escapeByte b) ++ rest) =
      (String.utf8EncodeChar (Char.ofNat b.toNat) ++ ·) <$> unescapeBytes rest := by
  by_cases hb : Special b
  · rw [escapeByte, if_pos hb]
    rcases hb with rfl | rfl | rfl | rfl | rfl <;> rfl
  · have hby : textBytes [Char.ofNat b.toNat] = String.utf8EncodeChar (Char.ofNat b.toNat) := by
      simp only [textBytes, List.flatMap_cons, List.flatMap_nil, List.append_nil]
    rw [escapeByte, if_neg hb, hby]
    refine unescapeBytes_append (fun hm => ?_) rest
    rcases Nat.lt_or_ge b.toNat 128 with hlt | hge
    · rw [utf8EncodeChar_of_lt (by rwa [toNat_ofNat_byte]), toNat_ofNat_byte, List.mem_singleton,
        UInt8.ofNat_toNat] at hm
      exact hb (.inl hm.symm)
    · exact absurd (le_of_mem_utf8EncodeChar (by rwa [toNat_ofNat_byte]) hm) (by decide)

/-- What comes back of a text that is escaped is the text of its bytes. -/
theorem unescape_escape (value : String) : unescape (escape value) = some (bytewiseString value) := by
  have hb : ∀ bytes : Bytes, unescapeBytes (textBytes (bytes.flatMap escapeByte)) =
      some (textBytes (bytes.map fun b => Char.ofNat b.toNat)) := by
    intro bytes
    induction bytes with
    | nil => rfl
    | cons b bytes ih =>
      rw [List.flatMap_cons, textBytes_append, unescapeBytes_escapeByte, ih]
      rfl
  rw [unescape, escape_eq, hb]
  change String.ofList <$> fromUtf8 (textBytes (bytewise value.toList)) = _
  rw [fromUtf8_textBytes]
  rfl

theorem bytewise_append (a b : List Char) : bytewise (a ++ b) = bytewise a ++ bytewise b := by
  rw [bytewise, textBytes_append, List.map_append]
  rfl

theorem bytewise_cons_of_lt {c : Char} (h : c.toNat < 128) (text : List Char) :
    bytewise (c :: text) = c :: bytewise text := by
  have hc : UInt8.toNat (UInt8.ofNat c.toNat) = c.toNat := toNat_ofNat_of_lt (by omega)
  rw [bytewise, textBytes, List.flatMap_cons, utf8EncodeChar_of_lt h, List.singleton_append,
    List.map_cons, hc]
  exact congrArg (· :: bytewise text) (Char.ofNat_toNat c)

theorem bytewise_of_ascii {text : List Char} (h : ∀ c ∈ text, c.toNat < 128) :
    bytewise text = text := by
  induction text with
  | nil => rfl
  | cons c text ih =>
    obtain ⟨hc, ht⟩ := List.forall_mem_cons.mp h
    rw [bytewise_cons_of_lt hc, ih ht]

/-- A text has no more characters than bytes, and as many only if it is ASCII. -/
theorem length_le_bytewise (text : List Char) : text.length ≤ (bytewise text).length ∧
    ((bytewise text).length = text.length → ∀ c ∈ text, c.toNat < 128) := by
  induction text with
  | nil => exact ⟨Nat.le_refl _, nofun⟩
  | cons c text ih =>
    obtain ⟨hle, heq⟩ := ih
    have hl : (bytewise (c :: text)).length =
        (String.utf8EncodeChar c).length + (bytewise text).length := by
      simp only [bytewise, textBytes, List.flatMap_cons, List.map_append, List.length_append,
        List.length_map]
    rw [hl, String.length_utf8EncodeChar, List.length_cons]
    have hp := c.utf8Size_pos
    refine ⟨by omega, fun h => List.forall_mem_cons.mpr ⟨?_, heq (by omega)⟩⟩
    have ho : c.utf8Size = 1 := by omega
    exact Nat.lt_succ_of_le (UInt32.le_iff_toNat_le.mp (Char.utf8Size_eq_one_iff.mp ho))

/-- A text is the text of its bytes iff it is ASCII. -/
theorem bytewise_eq_iff (text : String) : bytewiseString text = text ↔ Ascii text := by
  constructor
  · intro h
    refine (length_le_bytewise text.toList).2 (congrArg List.length ?_)
    have := congrArg String.toList h
    rwa [bytewiseString, String.toList_ofList] at this
  · intro h
    rw [bytewiseString, bytewise_of_ascii h, String.ofList_toList]

/-- An escaped text has no line ends, and no sign between a name and a value. -/
theorem notMem_escape (value : String) :
    '\n' ∉ escape value ∧ '\r' ∉ escape value ∧ '=' ∉ escape value := by
  have hby : ∀ b : UInt8, '\n' ∉ escapeByte b ∧ '\r' ∉ escapeByte b ∧ '=' ∉ escapeByte b := by
    intro b
    by_cases hb : Special b
    · rw [escapeByte, if_pos hb]
      rcases hb with rfl | rfl | rfl | rfl | rfl <;> decide
    · rw [escapeByte, if_neg hb]
      have hne : ∀ c : Char, ∀ d : UInt8, c.toNat = d.toNat → b ≠ d → c ∉ [Char.ofNat b.toNat] := by
        intro c d hcd hbd hm
        rw [List.mem_singleton] at hm
        refine hbd (UInt8.toNat_inj.mp ?_)
        rw [← hcd, hm, toNat_ofNat_byte]
      simp only [Special, not_or] at hb
      exact ⟨hne _ 0x0a rfl hb.2.1, hne _ 0x0d rfl hb.2.2.1, hne _ 0x3d rfl hb.2.2.2.1⟩
  simp only [escape_eq, List.mem_flatMap, not_exists, not_and]
  exact ⟨fun b _ => (hby b).1, fun b _ => (hby b).2.1, fun b _ => (hby b).2.2⟩

end Escape

/-! ### Digits -/

section Digits

/-- The value of digits, the first the highest. -/
def ofValues (radix : Nat) (values : List Nat) : Nat :=
  values.foldl (fun acc d => acc * radix + d) 0

theorem digitValue_digitChar {radix d : Nat} (hd : d < radix) (hr : radix ≤ 16) :
    digitValue radix (Nat.digitChar d) = some d := by
  have hra : ∀ d < 16, ∀ radix, d < radix → digitValue radix (Nat.digitChar d) = some d := by
    intro d hd
    interval_cases d <;> intro radix h <;> simp [digitValue, Nat.digitChar, Option.filter, h]
  exact hra d (by omega) radix hd

/-- The digits of a number are read as its value. -/
theorem mapM_toDigits {radix : Nat} (h1 : 1 < radix) (hr : radix ≤ 16) (n : Nat) :
    ∃ values, (Nat.toDigits radix n).mapM (digitValue radix) = some values ∧
      ofValues radix values = n := by
  induction n using Nat.strongRecOn with
  | ind n ih =>
    rcases Nat.lt_or_ge n radix with hn | hn
    · refine ⟨[n], ?_, by simp [ofValues]⟩
      rw [Nat.toDigits_of_lt_base hn, List.mapM_cons, digitValue_digitChar hn hr]
      rfl
    · obtain ⟨values, hv, hof⟩ := ih (n / radix) (Nat.div_lt_self (by omega) h1)
      refine ⟨values ++ [n % radix], ?_, ?_⟩
      · rw [Nat.toDigits_of_base_le h1 hn, List.mapM_append, hv, List.mapM_cons,
          digitValue_digitChar (Nat.mod_lt n (by omega)) hr]
        rfl
      · rw [ofValues, List.foldl_append]
        change ofValues radix values * radix + n % radix = n
        rw [hof, Nat.mul_comm, Nat.div_add_mod]

/-- Digits without a sign are read as their value, if it is not too large. -/
theorem parseRadix_of_mapM {radix max : Nat} {text : List Char} {values : List Nat}
    (hne : text ≠ []) (h : text.mapM (digitValue radix) = some values)
    (hm : ofValues radix values ≤ max) :
    parseRadix radix max text = some (ofValues radix values) := by
  cases text with
  | nil => exact absurd rfl hne
  | cons c rest =>
    have hc : c ≠ '+' := by
      rintro rfl
      have hp : digitValue radix '+' = none := rfl
      rw [List.mapM_cons, hp] at h
      cases h
    unfold parseRadix
    split
    next he => exact absurd (List.cons.inj he).1 hc
    next =>
      dsimp only
      rw [if_neg (List.cons_ne_nil _ _), h]
      exact if_pos hm

/-- The digits of a number are parsed as the number. -/
theorem parseRadix_toDigits {radix max n : Nat} (h1 : 1 < radix) (hr : radix ≤ 16) (hn : n ≤ max) :
    parseRadix radix max (Nat.toDigits radix n) = some n := by
  obtain ⟨values, hv, rfl⟩ := mapM_toDigits h1 hr n
  exact parseRadix_of_mapM Nat.toDigits_ne_nil hv hn

theorem one_lt_sixteen : 1 < 16 := by decide

/-- The eight digits of a checksum are read as the checksum. -/
theorem parseRadix_lowerHex8 (n : UInt32) :
    parseRadix 16 (2 ^ 32 - 1) (lowerHex8 n) = some n.toNat := by
  obtain ⟨values, hva, hof⟩ := mapM_toDigits one_lt_sixteen (le_refl 16) n.toNat
  have hz : ∀ k, (List.replicate k '0').mapM (digitValue 16) = some (List.replicate k 0) := by
    intro k
    induction k with
    | zero => rfl
    | succ k ih =>
      rw [List.replicate_succ, List.mapM_cons, ih]
      rfl
  have hv : ∀ k, ofValues 16 (List.replicate k 0 ++ values) = n.toNat := by
    intro k
    induction k with
    | zero => exact hof
    | succ k ih =>
      rw [List.replicate_succ, List.cons_append]
      exact ih
  have hmm : (lowerHex8 n).mapM (digitValue 16) =
      some (List.replicate (8 - (Nat.toDigits 16 n.toNat).length) 0 ++ values) := by
    rw [lowerHex8, List.mapM_append, hz, hva]
    rfl
  have hm : ofValues 16 (List.replicate (8 - (Nat.toDigits 16 n.toNat).length) 0 ++ values) ≤
      2 ^ 32 - 1 := by
    rw [hv]
    exact Nat.le_pred_of_lt n.toNat_lt
  have hp := parseRadix_of_mapM
    (List.append_ne_nil_of_right_ne_nil _ Nat.toDigits_ne_nil) hmm hm
  rwa [hv] at hp

/-- No digit is a letter above the radix. -/
theorem notMem_of_mapM {radix : Nat} {text : List Char} {values : List Nat} {c : Char}
    (h : text.mapM (digitValue radix) = some values) (hc : digitValue radix c = none) :
    c ∉ text := by
  intro hm
  induction text generalizing values with
  | nil => cases hm
  | cons d text ih =>
    rw [List.mapM_cons] at h
    obtain ⟨v, hv, hr⟩ := Option.bind_eq_some_iff.mp h
    obtain ⟨vs, hvs, -⟩ := Option.bind_eq_some_iff.mp hr
    rcases List.mem_cons.mp hm with rfl | hm
    · rw [hc] at hv
      cases hv
    · exact ih hvs hm

end Digits

/-! ### A body and its checksum -/

section Seal

variable {pattern text : List Char}

theorem splitLast_eq_none {c : Char} (hp : c ∈ pattern) (ht : c ∉ text) :
    splitLast pattern text = none := by
  induction text with
  | nil => rfl
  | cons d text ih =>
    have hpr : ¬ pattern.isPrefixOf (d :: text) = true := fun h =>
      ht ((List.isPrefixOf_iff_prefix.mp h).subset hp)
    rw [splitLast, ih (fun h => ht (List.mem_cons_of_mem d h))]
    exact if_neg hpr

/-- What stands before does not move the last place of a pattern. -/
theorem splitLast_append {before after : List Char}
    (h : splitLast pattern text = some (before, after)) (front : List Char) :
    splitLast pattern (front ++ text) = some (front ++ before, after) := by
  induction front with
  | nil => exact h
  | cons c front ih => simp only [List.cons_append, splitLast, ih]

theorem toList_checksum :
    "checksum=".toList = ['c', 'h', 'e', 'c', 'k', 's', 'u', 'm', '='] := rfl

/-- The last place of `checksum=` is before the digits of the checksum. -/
theorem splitLast_checksum {digits : List Char} (h : 'h' ∉ digits) :
    splitLast "checksum=".toList ("checksum=".toList ++ digits ++ ['\n']) =
      some ([], "checksum=".toList ++ digits ++ ['\n']) := by
  rw [toList_checksum]
  have ht : 'h' ∉ ['e', 'c', 'k', 's', 'u', 'm', '='] ++ digits ++ ['\n'] := by
    simp only [List.mem_append, not_or]
    exact ⟨⟨by decide, h⟩, by decide⟩
  have hp : 'h' ∈ ['c', 'h', 'e', 'c', 'k', 's', 'u', 'm', '='] := by decide
  have hn := splitLast_eq_none hp ht
  simp only [List.cons_append, List.nil_append] at hn ⊢
  rw [splitLast, splitLast, hn]
  simp

theorem drop_checksum (digits : List Char) :
    ("checksum=".toList ++ digits ++ ['\n']).drop "checksum=".length = digits ++ ['\n'] := by
  have hl : "checksum=".length = 9 := by decide
  rw [toList_checksum, hl]
  rfl

theorem notMem_lowerHex8 (n : UInt32) : 'h' ∉ lowerHex8 n := by
  obtain ⟨values, hv, -⟩ := mapM_toDigits one_lt_sixteen (le_refl 16) n.toNat
  rw [lowerHex8, List.mem_append, not_or]
  refine ⟨fun h => ?_, notMem_of_mapM hv rfl⟩
  exact absurd (List.eq_of_mem_replicate h) (by decide)

theorem checksumLine_eq (body : List Char) : checksumLine body =
    "checksum=".toList ++ lowerHex8 (crc32 (textBytes body)) ++ ['\n'] := rfl

/-- A body is read back from before its checksum. -/
theorem unsealBody_sealBody (category : StableError) (notUtf8 missing invalid mismatch : String)
    (body : List Char) :
    unsealBody category notUtf8 missing invalid mismatch (sealBody body) = .ok body := by
  have hs := splitLast_append (splitLast_checksum (notMem_lowerHex8 (crc32 (textBytes body))))
    body
  rw [List.append_nil] at hs
  rw [unsealBody, sealBody, fromUtf8_textBytes, Option.elim_some, ok_bind, checksumLine_eq, hs,
    Option.elim_some, ok_bind]
  dsimp only
  rw [drop_checksum, List.getLast?_append_cons, List.getLast?_singleton, if_pos rfl,
    List.dropLast_concat, parseRadix_lowerHex8, Option.elim_some, ok_bind, if_neg (fun h => h rfl)]

end Seal

/-! ### Lines and fields -/

section Lines

/-- Lines that are written one after the other are read one after the other. -/
theorem lines_flatMap {ls : List (List Char)} (h : ∀ l ∈ ls, '\n' ∉ l ∧ '\r' ∉ l) :
    lines (ls.flatMap (· ++ ['\n'])) = ls := by
  have hs : (ls.flatMap (· ++ ['\n'])).splitOn '\n' = ls ++ [[]] := by
    induction ls with
    | nil => simp
    | cons l ls ih =>
      obtain ⟨hl, hls⟩ := List.forall_mem_cons.mp h
      rw [List.flatMap_cons, List.append_assoc, List.singleton_append,
        List.splitOn_append_cons_self_of_not_mem hl.1, ih hls, List.cons_append]
  have hk : ls.map (fun line => if line.getLast? = some '\r' then line.dropLast else line) =
      ls := by
    refine (List.map_congr_left fun l hl => if_neg fun hla => ?_).trans (List.map_id' ls)
    exact (h l hl).2 (List.mem_of_getLast? hla)
  simp only [lines, hs, List.dropLast_concat, hk, List.getLast?_append_cons,
    List.getLast?_singleton]
  exact List.append_nil ls

/-- A field is split at the first separator. -/
theorem splitOnce_append {c : Char} {key : List Char} (h : c ∉ key) (value : List Char) :
    splitOnce c (key ++ c :: value) = some (key, value) := by
  induction key with
  | nil => simp [splitOnce]
  | cons d key ih =>
    obtain ⟨hd, hk⟩ := not_or.mp (List.mem_cons.not.mp h)
    rw [List.cons_append, splitOnce, if_neg (Ne.symm hd), ih hk]
    rfl

/-- Fields with distinct names are read one after the other. -/
theorem readFields_map {α : Type} {malformed duplicate : FormatError}
    {check : List Char → List Char → Except FormatError α} {value : String → α}
    {fields : List (String × String)}
    (hn : ∀ f ∈ fields, '=' ∉ f.1.toList)
    (hc : ∀ f ∈ fields, check f.1.toList (escape f.2) = .ok (value f.2))
    (before : List (String × α)) (hnew : ∀ f ∈ fields, before.lookup f.1 = none)
    (hd : (fields.map Prod.fst).Nodup) :
    readFields malformed duplicate check
        (fields.map fun f => f.1.toList ++ '=' :: escape f.2) before =
      .ok (before ++ fields.map fun f => (f.1, value f.2)) := by
  induction fields generalizing before with
  | nil => simp [readFields]
  | cons f fields ih =>
    obtain ⟨hna, hn⟩ := List.forall_mem_cons.mp hn
    obtain ⟨hf, hc⟩ := List.forall_mem_cons.mp hc
    obtain ⟨hfr, hnew⟩ := List.forall_mem_cons.mp hnew
    obtain ⟨ho, hd⟩ := List.nodup_cons.mp hd
    rw [List.map_cons, readFields, splitOnce_append hna, Option.elim_some, ok_bind]
    dsimp only
    rw [hf, ok_bind, String.ofList_toList, hfr, Option.isSome_none, if_neg Bool.false_ne_true,
      ih hn hc _ (fun g hg => ?_) hd, List.append_assoc]
    · rfl
    · have hne : g.1 ≠ f.1 := fun h => ho (h ▸ List.mem_map_of_mem hg)
      rw [List.lookup_append, hnew g hg]
      simp only [List.lookup, beq_false_of_ne hne, Option.or_none]

end Lines

end RustTron.Storage
