import RustTron.Apis.Json.Admission

/-!
# Lenient texts

A request may have comments, strings in single quotes, names without quotes and numbers that the
grammar does not know. All of this is rewritten in one pass over the bytes of the text. Where the
pass needs a character it slices the text at the byte it has come to; after a backslash in a string
it takes one byte as a character of its own.

## Main definitions

* `slice`, `nextChar`: slices of a text, which panic inside a character
* `quoted`, `normalizeJavaNumber`, `normalizeJavaJson`: the pass
* `quotedText`, `strict`: the pass over characters

## Main results

* `quoted_encode`, `normalizeJavaJson_eq`: the pass over bytes is the pass over characters
-/

namespace RustTron.Apis.Json

open Utf8

/-! ## Slices -/

/-- A slice of a text: what it covers, before what comes after it. -/
def slice (mid after : Bytes) : Outcome Text :=
  if isCharBoundary (mid ++ after) ∧ isCharBoundary after then
    match decode? mid with
    | some text => .ok text
    | none => .error .panic
  else .error .panic

/-- The first character of the slice from here on. -/
def nextChar (rest : Bytes) : Outcome Char :=
  if isCharBoundary rest then
    match firstChar? rest with
    | some c => .ok c
    | none => fail "invalid UTF-8 JSON input"
  else .error .panic

/-- What is written before the rest of the output. -/
def prepend (piece : Text) (tail : Outcome Text) : Outcome Text := tail.map (piece ++ ·)

/-! ## Kinds of bytes -/

/-- `is_ascii_digit`. -/
def isDigitByte (byte : UInt8) : Bool := ascii '0' ≤ byte && byte ≤ ascii '9'

/-- `is_ascii_alphabetic`. -/
def isAlphabetic (byte : UInt8) : Bool :=
  (ascii 'a' ≤ byte && byte ≤ ascii 'z') || (ascii 'A' ≤ byte && byte ≤ ascii 'Z')

/-- A byte that starts a word. -/
def startsWord (byte : UInt8) : Bool := isAlphabetic byte || byte == ascii '_'

/-- A byte of a word. -/
def inWord (byte : UInt8) : Bool := isAlphabetic byte || isDigitByte byte || byte == ascii '_'

/-- A byte that starts a number. -/
def startsNumber (byte : UInt8) : Bool :=
  [ascii '+', ascii '-', ascii '.'].contains byte || isDigitByte byte

/-- A byte that does not end a number. -/
def inNumber (byte : UInt8) : Bool :=
  !isAsciiWhitespace byte && !([ascii ',', ascii ']', ascii '}', ascii ':'].contains byte)

/-- A byte of a line. -/
def inLine (byte : UInt8) : Bool := byte != ascii '\n'

def skipSpace (bytes : Bytes) : Bytes := bytes.dropWhile isAsciiWhitespace

/-! ## Numbers -/

/-- A byte that a number may have. -/
def isNumberByte (byte : UInt8) : Bool :=
  isDigitByte byte || [ascii '.', ascii 'e', ascii 'E', ascii '+', ascii '-'].contains byte

/-- A whole number without its leading zeros. -/
def trimZeros (number : Text) : Text :=
  if (number.dropWhile (· = '0')).isEmpty then ['0'] else number.dropWhile (· = '0')

/-- The magnitude of a number. -/
def normalizeMagnitude (token : Text) : Text :=
  let number := if token.head? = some '.' then '0' :: token else token
  let number := if number.getLast? = some '.' then number ++ ['0'] else number
  if number.any ['.', 'e', 'E'].contains then number else trimZeros number

def normalizeJavaNumber (token : Text) : Text :=
  let negative := token.head? == some '-'
  let token := if token.head? == some '+' || negative then token.tail else token
  let number :=
    if token.isEmpty || !(encode token).all isNumberByte then token else normalizeMagnitude token
  if negative then '-' :: number else number

/-! ## Strings -/

/-- A hexadecimal digit. -/
def hexDigit (n : Nat) : Char :=
  ['0', '1', '2', '3', '4', '5', '6', '7', '8', '9', 'a', 'b', 'c', 'd', 'e', 'f'].getD n '0'

/-- A control character as an escape, `\u` and four digits. -/
def unicodeEscape (byte : UInt8) : Text :=
  ['\\', 'u', '0', '0', hexDigit (byte.toNat / 16), hexDigit (byte.toNat % 16)]

/-- Some output and the bytes that are left, after more output. -/
def push (piece : Text) : Outcome (Text × Bytes) → Outcome (Text × Bytes) :=
  Except.map fun r => (piece ++ r.1, r.2)

/-- The loop over a string: the bytes to skip, if the byte is escaped, and the bytes. -/
def quoted (quote : UInt8) : Nat → Bool → Bytes → Outcome (Text × Bytes)
  | _, _, [] => fail "unterminated JSON string"
  | skip + 1, escaped, _ :: rest => quoted quote skip escaped rest
  | 0, true, byte :: rest => push ['\\', Char.ofNat byte.toNat] (quoted quote 0 false rest)
  | 0, false, byte :: rest =>
    if byte = ascii '\\' then quoted quote 0 true rest
    else if byte = quote then .ok (['"'], rest)
    else if byte = ascii '"' then push ['\\', '"'] (quoted quote 0 false rest)
    else if byte < 0x20 then push (unicodeEscape byte) (quoted quote 0 false rest)
    else if 0x80 ≤ byte then do
      let character ← nextChar (byte :: rest)
      push [character] (quoted quote (character.utf8Size - 1) false rest)
    else push [Char.ofNat byte.toNat] (quoted quote 0 false rest)

/-! ## The pass -/

/-- What comes after a block comment that is open. -/
def afterComment : Bytes → Option Bytes
  | a :: b :: rest => if a = ascii '*' ∧ b = ascii '/' then some rest else afterComment (b :: rest)
  | _ => none

/-- The loop of `normalize_java_json`: the length of the input, the rounds left, and the bytes left.
Each round takes a byte at least. -/
def normalizeFrom (total : Nat) : Nat → Bytes → Outcome Text
  | 0, _ => .ok []
  | _ + 1, [] => .ok []
  | fuel + 1, byte :: rest =>
    if byte = ascii '/' ∧ rest.head? = some (ascii '/') then
      normalizeFrom total fuel (rest.tail.dropWhile inLine)
    else if byte = ascii '/' ∧ rest.head? = some (ascii '*') then
      match afterComment rest.tail with
      | none =>
        let start := total - (rest.length + 1)
        fail s!"unterminated comment at byte {start}"
      | some after => normalizeFrom total fuel after
    else if byte = ascii '"' ∨ byte = ascii '\'' then do
      let (text, after) ← quoted byte 0 false rest
      prepend ('"' :: text) (normalizeFrom total fuel after)
    else if startsWord byte then do
      let after := rest.dropWhile inWord
      let word ← slice (byte :: rest.takeWhile inWord) after
      let piece := if (skipSpace after).head? = some (ascii ':') then '"' :: (word ++ ['"']) else word
      prepend piece (normalizeFrom total fuel after)
    else if startsNumber byte then do
      let after := rest.dropWhile inNumber
      let token ← slice (byte :: rest.takeWhile inNumber) after
      prepend (normalizeJavaNumber token) (normalizeFrom total fuel after)
    else if 0x80 ≤ byte then do
      let character ← nextChar (byte :: rest)
      prepend [character] (normalizeFrom total fuel ((byte :: rest).drop character.utf8Size))
    else prepend [Char.ofNat byte.toNat] (normalizeFrom total fuel rest)

def normalizeJavaJson (input : Text) : Outcome Text :=
  normalizeFrom (encode input).length (encode input).length (encode input)

/-! ## The pass over characters -/

/-- A character of a string, unless it is a quote, a backslash or escaped. -/
def quotedChar (c : Char) : Text :=
  if c = '"' then ['\\', '"'] else if c.toNat < 0x20 then unicodeEscape (ascii c) else [c]

/-- Some output and the characters that are left, after more output. -/
def pushText (piece : Text) : Outcome (Text × Text) → Outcome (Text × Text) :=
  Except.map fun r => (piece ++ r.1, r.2)

/-- The loop over a string: if the character is escaped, and the characters. -/
def quotedText (quote : Char) : Bool → Text → Outcome (Text × Text)
  | _, [] => fail "unterminated JSON string"
  | true, c :: rest =>
    if IsAscii c then pushText ['\\', c] (quotedText quote false rest)
    else .error .panic
  | false, c :: rest =>
    if c = '\\' then quotedText quote true rest
    else if c = quote then .ok (['"'], rest)
    else pushText (quotedChar c) (quotedText quote false rest)

theorem exists_of_pushText {piece : Text} {x : Outcome (Text × Text)} {r : Text × Text}
    (h : pushText piece x = .ok r) : ∃ r', x = .ok r' ∧ r = (piece ++ r'.1, r'.2) := by
  cases x with
  | error e => cases h
  | ok r' =>
    cases h
    exact ⟨r', rfl, rfl⟩

/-- What comes after a block comment that is open. -/
def afterCommentText : Text → Option Text
  | a :: b :: rest => if a = '*' ∧ b = '/' then some rest else afterCommentText (b :: rest)
  | _ => none

/-- A string leaves an end of the text. -/
theorem suffix_quotedText {quote : Char} {escaped : Bool} {text : Text} {r : Text × Text}
    (h : quotedText quote escaped text = .ok r) : r.2 <:+ text := by
  induction text generalizing escaped r with
  | nil =>
    rw [quotedText] at h
    cases h
  | cons c rest ih =>
    refine List.IsSuffix.trans ?_ (List.suffix_cons c rest)
    cases escaped
    · rw [quotedText] at h
      split at h
      next => exact ih h
      split at h
      next =>
        cases h
        exact List.suffix_refl _
      next =>
        obtain ⟨r', hr', rfl⟩ := exists_of_pushText h
        exact ih (r := r') hr'
    · rw [quotedText] at h
      split at h
      next =>
        obtain ⟨r', hr', rfl⟩ := exists_of_pushText h
        exact ih (r := r') hr'
      next => cases h

/-- A comment leaves an end of the text. -/
theorem suffix_afterCommentText {text after : Text} (h : afterCommentText text = some after) :
    after <:+ text := by
  induction text with
  | nil => cases h
  | cons a text ih =>
    refine List.IsSuffix.trans ?_ (List.suffix_cons a text)
    cases text with
    | nil => cases h
    | cons b text =>
      rw [afterCommentText] at h
      split at h
      next =>
        cases h
        exact List.suffix_cons b _
      next => exact ih h

/-- A word is followed by a colon: it is a name. -/
def isName (after : Text) : Bool := (after.dropWhile (onChar isAsciiWhitespace)).head? == some ':'

/-- A word in the output. -/
def wordText (word after : Text) : Text := if isName after then '"' :: (word ++ ['"']) else word

/-- The pass over the characters that are left of an input of some length. -/
def strict (total : Nat) : Text → Outcome Text
  | [] => .ok []
  | c :: rest =>
    if c = '/' ∧ rest.head? = some '/' then
      strict total (rest.tail.dropWhile (onChar inLine))
    else if c = '/' ∧ rest.head? = some '*' then
      match _h : afterCommentText rest.tail with
      | none =>
        let start := total - (encode (c :: rest)).length
        fail s!"unterminated comment at byte {start}"
      | some after => strict total after
    else if c = '"' ∨ c = '\'' then
      match _h : quotedText c false rest with
      | .ok r => prepend ('"' :: r.1) (strict total r.2)
      | .error e => .error e
    else if onChar startsWord c then
      prepend (wordText (c :: rest.takeWhile (onChar inWord)) (rest.dropWhile (onChar inWord)))
        (strict total (rest.dropWhile (onChar inWord)))
    else if onChar startsNumber c then
      prepend (normalizeJavaNumber (c :: rest.takeWhile (onChar inNumber)))
        (strict total (rest.dropWhile (onChar inNumber)))
    else prepend [c] (strict total rest)
termination_by text => text.length
decreasing_by
  all_goals simp only [List.length_cons]
  · have := (rest.tail.dropWhile_suffix (p := onChar inLine)).length_le
    have := rest.length_tail
    omega
  · have := (suffix_afterCommentText _h).length_le
    have := rest.length_tail
    omega
  · have := (suffix_quotedText _h).length_le
    omega
  · have := (rest.dropWhile_suffix (p := onChar inWord)).length_le
    omega
  · have := (rest.dropWhile_suffix (p := onChar inNumber)).length_le
    omega
  · omega

/-! ## Bytes and characters -/

theorem uniform_inLine : Uniform inLine := by
  intro b hb
  have hne : b ≠ ascii '\n' := by
    rintro rfl
    exact absurd hb (by decide)
  rw [inLine, bne_iff_ne.mpr hne]
  decide

theorem isDigitByte_eq_false {b : UInt8} (h : 0x80 ≤ b) : isDigitByte b = false := by
  have : ¬ b ≤ ascii '9' := fun hle => absurd (UInt8.le_trans h hle) (by decide)
  rw [isDigitByte, decide_eq_false this, Bool.and_false]

theorem isAlphabetic_eq_false {b : UInt8} (h : 0x80 ≤ b) : isAlphabetic b = false := by
  have hz : ¬ b ≤ ascii 'z' := fun hle => absurd (UInt8.le_trans h hle) (by decide)
  have hZ : ¬ b ≤ ascii 'Z' := fun hle => absurd (UInt8.le_trans h hle) (by decide)
  rw [isAlphabetic, decide_eq_false hz, decide_eq_false hZ, Bool.and_false, Bool.and_false]
  rfl

theorem ne_of_beyond {b : UInt8} (h : 0x80 ≤ b) {c : Char} (hc : IsAscii c) : b ≠ ascii c := by
  rintro rfl
  exact absurd h (UInt8.not_le.mpr (ascii_lt hc))

/-- No list of ASCII bytes has a byte beyond. -/
theorem contains_eq_false {b : UInt8} (h : 0x80 ≤ b) {l : List UInt8}
    (hl : l.all (· < 0x80) = true) : l.contains b = false := by
  rw [List.contains_eq_mem, decide_eq_false_iff_not]
  exact fun hm => absurd h (UInt8.not_le.mpr (of_decide_eq_true (List.all_eq_true.mp hl b hm)))

theorem startsWord_eq_false {b : UInt8} (h : 0x80 ≤ b) : startsWord b = false := by
  rw [startsWord, isAlphabetic_eq_false h, beq_eq_false_iff_ne.mpr (ne_of_beyond h (by decide))]
  rfl

theorem inWord_eq_false {b : UInt8} (h : 0x80 ≤ b) : inWord b = false := by
  rw [inWord, isAlphabetic_eq_false h, isDigitByte_eq_false h,
    beq_eq_false_iff_ne.mpr (ne_of_beyond h (by decide))]
  rfl

theorem startsNumber_eq_false {b : UInt8} (h : 0x80 ≤ b) : startsNumber b = false := by
  rw [startsNumber, isDigitByte_eq_false h, contains_eq_false h (by decide)]
  rfl

theorem isAsciiWhitespace_eq_false {b : UInt8} (h : 0x80 ≤ b) : isAsciiWhitespace b = false :=
  contains_eq_false h (by decide)

/-- A number runs on over bytes beyond ASCII. -/
theorem inNumber_eq_true {b : UInt8} (h : 0x80 ≤ b) : inNumber b = true := by
  rw [inNumber, isAsciiWhitespace_eq_false h, contains_eq_false h (by decide)]
  rfl

theorem uniform_inWord : Uniform inWord := fun b hb => by
  rw [inWord_eq_false hb, inWord_eq_false (b := 0x80) (by decide)]

theorem uniform_inNumber : Uniform inNumber := fun b hb => by
  rw [inNumber_eq_true hb, inNumber_eq_true (b := 0x80) (by decide)]

theorem uniform_isAsciiWhitespace : Uniform isAsciiWhitespace := fun b hb => by
  rw [isAsciiWhitespace_eq_false hb, isAsciiWhitespace_eq_false (b := 0x80) (by decide)]

/-- A slice between characters. -/
theorem slice_encode (mid after : Text) : slice (encode mid) (encode after) = .ok mid := by
  rw [slice, ← encode_append, if_pos ⟨isCharBoundary_encode _, isCharBoundary_encode _⟩,
    decode?_encode]

/-- The next character is the one that the bytes begin with. -/
theorem nextChar_append (c : Char) (bytes : Bytes) :
    nextChar (String.utf8EncodeChar c ++ bytes) = .ok c := by
  rw [nextChar, if_pos (isCharBoundary_utf8EncodeChar_append c bytes), firstChar?_append]

/-- An ASCII byte is first where its character is. -/
theorem head?_encode_eq_some_iff {text : Text} {d : Char} (hd : IsAscii d) :
    (encode text).head? = some (ascii d) ↔ text.head? = some d := by
  cases text with
  | nil => simp
  | cons c text =>
    rw [List.head?_cons, Option.some.injEq]
    by_cases hc : IsAscii c
    · rw [encode_ascii_cons hc, List.head?_cons, Option.some.injEq, ascii_inj hc hd]
    · obtain ⟨first, rest, hco, -⟩ := exists_cons c
      have hf : first ≠ ascii d := ne_of_beyond (le_of_mem hc (hco ▸ List.mem_cons_self)) hd
      rw [encode_cons, hco, List.cons_append, List.head?_cons, Option.some.injEq]
      exact iff_of_false hf fun h => hc (h ▸ hd)

theorem tail_encode {text : Text} {d : Char} (hd : IsAscii d) (h : text.head? = some d) :
    (encode text).tail = encode text.tail := by
  cases text with
  | nil => rfl
  | cons c text =>
    obtain rfl : c = d := Option.some.inj h
    rw [encode_ascii_cons hd, List.tail_cons, List.tail_cons]

theorem afterComment_cons_of_ne {a : UInt8} (h : a ≠ ascii '*') (l : Bytes) :
    afterComment (a :: l) = afterComment l := by
  cases l with
  | nil => rfl
  | cons b l => rw [afterComment, if_neg fun hab => h hab.1]

/-- A character other than the asterisk is passed over in a comment. -/
theorem afterComment_append {c : Char} (hc : c ≠ '*') (l : Bytes) :
    afterComment (String.utf8EncodeChar c ++ l) = afterComment l := by
  by_cases ha : IsAscii c
  · rw [utf8EncodeChar_ascii ha, List.singleton_append]
    exact afterComment_cons_of_ne (fun h => hc ((ascii_inj ha (by decide)).mp h)) l
  · have skip : ∀ bytes : Bytes, (∀ b ∈ bytes, 0x80 ≤ b) →
        afterComment (bytes ++ l) = afterComment l := by
      intro bytes hby
      induction bytes with
      | nil => rfl
      | cons b bytes ih =>
        obtain ⟨hb, hby⟩ := List.forall_mem_cons.mp hby
        rw [List.cons_append, afterComment_cons_of_ne (ne_of_beyond hb (by decide)), ih hby]
    exact skip _ fun b hb => le_of_mem ha hb

/-- A comment ends at the same place in bytes and in characters. -/
theorem afterComment_encode (text : Text) :
    afterComment (encode text) = (afterCommentText text).map encode := by
  induction text with
  | nil => rfl
  | cons a text ih =>
    by_cases ha : a = '*'
    swap
    · rw [encode_cons, afterComment_append ha, ih]
      cases text with
      | nil => rfl
      | cons b text => rw [afterCommentText.eq_1 a b, if_neg fun h => ha h.1]
    subst ha
    cases text with
    | nil => rfl
    | cons b text =>
      rw [afterCommentText.eq_1, encode_ascii_cons (by decide)]
      by_cases hb : b = '/'
      · subst hb
        rw [encode_ascii_cons (by decide), afterComment, if_pos ⟨rfl, rfl⟩, if_pos ⟨rfl, rfl⟩]
        rfl
      · rw [if_neg fun h => hb h.2, ← ih]
        obtain ⟨first, rest, hc, -⟩ := exists_cons b
        have hf : first ≠ ascii '/' := by
          intro h
          have hh : (encode [b]).head? = some (ascii '/') := by
            rw [encode_cons, hc, h]
            rfl
          exact hb (Option.some.inj ((head?_encode_eq_some_iff (by decide)).mp hh))
        rw [encode_cons, hc, List.cons_append, afterComment, if_neg fun h => hf h.2]

/-! ## Strings -/

theorem push_map (piece : Text) (x : Outcome (Text × Text)) :
    push piece (x.map fun r => (r.1, encode r.2)) =
      (pushText piece x).map fun r => (r.1, encode r.2) := by
  cases x <;> rfl

/-- The rest of a character that was taken is skipped. -/
theorem quoted_skip (quote : UInt8) (escaped : Bool) (bytes rest : Bytes) :
    quoted quote bytes.length escaped (bytes ++ rest) = quoted quote 0 escaped rest := by
  induction bytes with
  | nil => rfl
  | cons b bytes ih => rw [List.cons_append, List.length_cons, quoted, ih]

/-- A byte inside a character is where the slice panics. -/
theorem quoted_inside {quote : Char} (hq : IsAscii quote) {byte : UInt8}
    (hb : isContinuation byte = true) (rest : Bytes) :
    quoted (ascii quote) 0 false (byte :: rest) = .error .panic := by
  have hle := le_of_isContinuation hb
  have hlt : ¬ byte < 0x20 := fun h => absurd (UInt8.lt_of_le_of_lt hle h) (by decide)
  rw [quoted, if_neg (ne_of_beyond hle (by decide)), if_neg (ne_of_beyond hle hq),
    if_neg (ne_of_beyond hle (by decide)), if_neg hlt, if_pos hle, nextChar,
    if_neg (by rw [isCharBoundary, List.head?_cons, Option.any_some, hb]; decide)]
  rfl

/-- In a string, a character beyond ASCII is copied. -/
theorem quotedChar_of_beyond {c : Char} (h : ¬ IsAscii c) : quotedChar c = [c] := by
  have hlt : ¬ c.toNat < 0x20 := fun hlt => h (Nat.lt_trans hlt (by decide))
  rw [quotedChar, if_neg (by rintro rfl; exact h (by decide)), if_neg hlt]

/-- A string in bytes is the string in characters. -/
theorem quoted_encode {quote : Char} (hq : IsAscii quote) (escaped : Bool) (text : Text) :
    quoted (ascii quote) 0 escaped (encode text) =
      (quotedText quote escaped text).map fun r => (r.1, encode r.2) := by
  induction text generalizing escaped with
  | nil =>
    rw [quotedText, encode_nil, quoted]
    rfl
  | cons c text ih =>
    by_cases hc : IsAscii c
    · have hne : ∀ {d : Char}, IsAscii d → (ascii c = ascii d ↔ c = d) := fun hd => ascii_inj hc hd
      rw [encode_ascii_cons hc]
      cases escaped
      · have hlt : ascii c < 0x20 ↔ c.toNat < 0x20 := by
          rw [UInt8.lt_iff_toNat_lt, toNat_ascii hc]
          rfl
        have hle : ¬ 0x80 ≤ ascii c := UInt8.not_le.mpr (ascii_lt hc)
        rw [quoted, quotedText]
        simp only [hne (show IsAscii '\\' by decide), hne hq, hne (show IsAscii '"' by decide),
          hlt, hle, if_false, ih, ofNat_toNat_ascii hc, push_map, quotedChar]
        split
        · rfl
        split
        · rfl
        split
        · rfl
        split <;> rfl
      · rw [quoted, quotedText, if_pos hc, ih, push_map, ofNat_toNat_ascii hc]
    · obtain ⟨lead, rest, hco, hl, hr, hcon⟩ := exists_lead hc
      have hb : 0x80 ≤ lead := UInt8.le_trans (by decide) hl
      cases escaped
      · have hlt : ¬ lead < 0x20 := fun h => absurd (UInt8.lt_of_le_of_lt hb h) (by decide)
        have hs : c.utf8Size - 1 = rest.length := by
          rw [← String.length_utf8EncodeChar, hco, List.length_cons, Nat.add_sub_cancel]
        have hne : ∀ {d : Char}, IsAscii d → c ≠ d := fun hd h => hc (h ▸ hd)
        have hn : nextChar (lead :: (rest ++ encode text)) = .ok c := by
          rw [← List.cons_append, ← hco]
          exact nextChar_append c _
        rw [encode_cons, hco, List.cons_append, quoted, if_neg (ne_of_beyond hb (by decide)),
          if_neg (ne_of_beyond hb hq), if_neg (ne_of_beyond hb (by decide)),
          if_neg hlt, if_pos hb, hn, ok_bind, hs, quoted_skip, ih, push_map, quotedText,
          if_neg (hne (by decide)), if_neg (hne hq), quotedChar_of_beyond hc]
      · obtain ⟨b, bytes, rfl⟩ := List.exists_cons_of_ne_nil hr
        rw [encode_cons, hco, List.cons_append, quoted, List.cons_append,
          quoted_inside hq (hcon b List.mem_cons_self), quotedText, if_neg hc]
        rfl

/-! ## The whole pass -/

theorem onChar_beyond {p : UInt8 → Bool} (hp : ∀ b, 0x80 ≤ b → p b = false) {c : Char}
    (hc : ¬ IsAscii c) : onChar p c = false := by
  obtain ⟨first, rest, hco, -⟩ := exists_cons c
  rw [onChar, hco, List.headD_cons]
  exact hp first (le_of_mem hc (hco ▸ List.mem_cons_self))

/-- A word is a name in bytes where it is in characters. -/
theorem isName_encode (text : Text) :
    (skipSpace (encode text)).head? = some (ascii ':') ↔ isName text = true := by
  rw [skipSpace, encode_dropWhile uniform_isAsciiWhitespace, head?_encode_eq_some_iff (by decide),
    isName, beq_iff_eq]

/-- A character beyond ASCII is copied. -/
theorem strict_beyond (total : Nat) {c : Char} (hc : ¬ IsAscii c) (rest : Text) :
    strict total (c :: rest) = prepend [c] (strict total rest) := by
  have hne : ∀ {d : Char}, IsAscii d → c ≠ d := fun hd h => hc (h ▸ hd)
  rw [strict, if_neg fun h => hne (by decide) h.1, if_neg fun h => hne (by decide) h.1,
    if_neg (not_or.mpr ⟨hne (by decide), hne (by decide)⟩),
    if_neg (by rw [onChar_beyond (fun b => startsWord_eq_false) hc]; exact Bool.false_ne_true),
    if_neg (by rw [onChar_beyond (fun b => startsNumber_eq_false) hc]; exact Bool.false_ne_true)]

/-- With fuel for all bytes, the pass over them is that over the characters. -/
theorem normalizeFrom_encode (total fuel : Nat) (text : Text) (h : (encode text).length ≤ fuel) :
    normalizeFrom total fuel (encode text) = strict total text := by
  induction fuel generalizing text with
  | zero =>
    cases text with
    | nil => rw [strict, encode_nil, normalizeFrom]
    | cons c text =>
      rw [encode_cons, List.length_append, String.length_utf8EncodeChar] at h
      have := c.utf8Size_pos
      omega
  | succ fuel ih =>
    cases text with
    | nil => rw [strict, encode_nil, normalizeFrom]
    | cons c rest =>
    have hs : ∀ {t : Text}, t <:+ rest → (encode t).length ≤ fuel := by
      rintro t ⟨u, rfl⟩
      rw [encode_cons, List.length_append, String.length_utf8EncodeChar, encode_append,
        List.length_append] at h
      have := c.utf8Size_pos
      omega
    by_cases hc : IsAscii c
    swap
    · -- a character beyond ASCII is copied whole: its bytes start nothing
      obtain ⟨lead, conts, hco, hl, -, -⟩ := exists_lead hc
      have hb : 0x80 ≤ lead := UInt8.le_trans (by decide) hl
      have hne : ∀ {d : Char}, IsAscii d → lead ≠ ascii d := ne_of_beyond hb
      have hn : nextChar (lead :: (conts ++ encode rest)) = .ok c := by
        rw [← List.cons_append, ← hco]
        exact nextChar_append c _
      have hdr : (lead :: (conts ++ encode rest)).drop c.utf8Size = encode rest := by
        rw [← List.cons_append, ← hco]
        exact drop_utf8Size c _
      rw [strict_beyond total hc, encode_cons, hco, List.cons_append, normalizeFrom,
        if_neg fun h => hne (by decide) h.1, if_neg fun h => hne (by decide) h.1,
        if_neg (not_or.mpr ⟨hne (by decide), hne (by decide)⟩),
        if_neg (by rw [startsWord_eq_false hb]; exact Bool.false_ne_true),
        if_neg (by rw [startsNumber_eq_false hb]; exact Bool.false_ne_true), if_pos hb,
        hn, ok_bind, hdr, ih rest (hs (List.suffix_refl _))]
    -- an ASCII character is its byte, so both passes take the same branch
    have heq : ∀ {d : Char}, IsAscii d → (ascii c = ascii d ↔ c = d) := fun hd => ascii_inj hc hd
    have hh : ∀ {d : Char}, IsAscii d →
        ((encode rest).head? = some (ascii d) ↔ rest.head? = some d) := head?_encode_eq_some_iff
    have hw : ∀ t : Text, ascii c :: encode t = encode (c :: t) :=
      fun t => (encode_ascii_cons hc t).symm
    rw [strict, encode_ascii_cons hc, normalizeFrom]
    simp only [heq (show IsAscii '/' by decide), heq (show IsAscii '"' by decide),
      heq (show IsAscii '\'' by decide), hh (show IsAscii '/' by decide),
      hh (show IsAscii '*' by decide), onChar_ascii _ hc]
    split
    next hli =>
      rw [tail_encode (by decide) hli.2, encode_dropWhile uniform_inLine]
      exact ih _ (hs ((List.dropWhile_suffix _).trans (List.tail_suffix _)))
    split
    next hbl =>
      rw [tail_encode (by decide) hbl.2, afterComment_encode]
      cases ha : afterCommentText rest.tail with
      | none => rfl
      | some after =>
        exact ih _ (hs ((suffix_afterCommentText ha).trans (List.tail_suffix _)))
    split
    next hq =>
      rw [quoted_encode hc]
      cases hr : quotedText c false rest with
      | error e => rfl
      | ok r =>
        change prepend ('"' :: r.1) (normalizeFrom total fuel (encode r.2)) = _
        rw [ih _ (hs (suffix_quotedText hr))]
    split
    next =>
      rw [encode_dropWhile uniform_inWord, encode_takeWhile uniform_inWord, hw, slice_encode,
        ok_bind, ih _ (hs (List.dropWhile_suffix _)), wordText]
      simp only [isName_encode]
    split
    next =>
      rw [encode_dropWhile uniform_inNumber, encode_takeWhile uniform_inNumber, hw, slice_encode,
        ok_bind, ih _ (hs (List.dropWhile_suffix _))]
    · rw [if_neg (UInt8.not_le.mpr (ascii_lt hc)), ofNat_toNat_ascii hc,
        ih _ (hs (List.suffix_refl _))]

/-- The pass over the bytes of a text is the pass over its characters. -/
theorem normalizeJavaJson_eq (input : Text) :
    normalizeJavaJson input = strict (encode input).length input :=
  normalizeFrom_encode _ _ input (Nat.le_refl _)

end RustTron.Apis.Json
