import RustTron.Apis.Json.Counting
import RustTron.Apis.Json.Normalizer

/-!
# The lenient parser

A request is scanned for its limits, rewritten, stripped of commas before closing brackets, and then
handed to the parser of the strict grammar, which is a parameter. On a document each of these leaves
the text as it is.

## Main definitions

* `stripTrailingCommas`, `parseLenientJson`: from the source

## Main results

* `strict_document`, `stripTrailingCommas_document`: a document is not rewritten
* `parseLenientJson_document`: a document within the limits is read as the strict parser reads it
-/

namespace RustTron.Apis.Json

open Utf8 Rfc8259

attribute [local instance] decidableForallMem

/-! ## The model -/

def isWhitespace (c : Char) : Bool :=
  let n := c.toNat
  (0x09 ≤ n && n ≤ 0x0D) || n == 0x20 || n == 0x85 || n == 0xA0 || n == 0x1680 ||
    (0x2000 ≤ n && n ≤ 0x200A) || n == 0x2028 || n == 0x2029 || n == 0x202F || n == 0x205F ||
    n == 0x3000

/-- A closing bracket is the next character that is not white space. -/
def closesNext (rest : Text) : Bool :=
  match (rest.dropWhile isWhitespace).head? with
  | some c => c == ']' || c == '}'
  | none => false

/-- The loop of `strip_trailing_commas`: in a string, after a backslash, and the characters. -/
def stripFrom : Bool → Bool → Text → Text
  | _, _, [] => []
  | true, true, c :: rest => c :: stripFrom true false rest
  | true, false, c :: rest =>
    c :: (if c = '\\' then stripFrom true true rest
      else if c = '"' then stripFrom false false rest
      else stripFrom true false rest)
  | false, escaped, c :: rest =>
    if c = '"' then c :: stripFrom true escaped rest
    else if c = ',' then
      if closesNext rest then stripFrom false escaped rest else c :: stripFrom false escaped rest
    else c :: stripFrom false escaped rest

def stripTrailingCommas (input : Text) : Text := stripFrom false false input

/-- The errors of a parser that is called. -/
def ofExcept {α : Type} (x : Except String α) : Outcome α :=
  x.mapError fun e => .error ⟨e⟩

variable {w : Text}

/-- `parse_lenient_json`, with the parser of the strict grammar. -/
def parseLenientJson {J : Type} (fromStr : Text → Except String J) (input : Text) : Outcome J := do
  (validateJsonAdmission input).mapError .error
  let normalized ← normalizeJavaJson input
  ofExcept (fromStr (stripTrailingCommas normalized))

/-! ## What the pass leaves as it is -/

/-- The pass copies the text, whatever comes after it. -/
def Copied (w : Text) : Prop :=
  ∀ total rest, strict total (w ++ rest) = prepend w (strict total rest)

/-- The pass copies the text before what may stand after a value. -/
def CopiedAtEnd (w : Text) : Prop :=
  ∀ total rest, Ends rest → strict total (w ++ rest) = prepend w (strict total rest)

theorem prepend_prepend (a b : Text) (x : Outcome Text) :
    prepend a (prepend b x) = prepend (a ++ b) x := by
  cases x with
  | error e => rfl
  | ok t => exact congrArg Except.ok (List.append_assoc a b t).symm

theorem prepend_nil (x : Outcome Text) : prepend [] x = x := by cases x <;> rfl

theorem Copied.atEnd (h : Copied w) : CopiedAtEnd w := fun total rest _ => h total rest

/-- Two copied texts are copied one after the other. -/
theorem Copied.append {a b : Text} (ha : Copied a) (hb : Copied b) : Copied (a ++ b) := by
  intro total rest
  rw [List.append_assoc, ha, hb, prepend_prepend]

/-- A copied text may stand before one that is copied at its end. -/
theorem Copied.append_atEnd {a b : Text} (ha : Copied a) (hb : CopiedAtEnd b) :
    CopiedAtEnd (a ++ b) := by
  intro total rest hr
  rw [List.append_assoc, ha, hb total rest hr, prepend_prepend]

/-- The characters that the pass copies one by one. -/
def single : Text := [' ', '\t', '\n', '\r', '{', '}', '[', ']', ',', ':']

theorem strict_single (total : Nat) {c : Char} (hc : c ∈ single) (rest : Text) :
    strict total (c :: rest) = prepend [c] (strict total rest) := by
  have hk : ∀ c ∈ single, c ≠ '/' ∧ c ≠ '"' ∧ c ≠ '\'' ∧ onChar startsWord c = false ∧
      onChar startsNumber c = false := by decide
  obtain ⟨hs, hd, hsi, hw, hn⟩ := hk c hc
  rw [strict, if_neg fun h => hs h.1, if_neg fun h => hs h.1,
    if_neg (not_or.mpr ⟨hd, hsi⟩), hw, if_neg Bool.false_ne_true, hn,
    if_neg Bool.false_ne_true]

/-- Brackets, commas, colons and spaces are copied. -/
theorem copied_single (h : ∀ c ∈ w, c ∈ single) : Copied w := by
  intro total rest
  induction w with
  | nil => rw [List.nil_append, prepend_nil]
  | cons c w ih =>
    obtain ⟨hc, hw⟩ := List.forall_mem_cons.mp h
    rw [List.cons_append, strict_single total hc, ih hw, prepend_prepend, List.singleton_append]

theorem copied_spaces (h : Spaces w) : Copied w := by
  refine copied_single fun c hc => ?_
  have := h c hc
  simp only [IsSpace, List.mem_cons, List.not_mem_nil, or_false] at this
  rcases this with rfl | rfl | rfl | rfl <;> decide

/-! ### Strings -/

/-- A plain character of a string is taken as it is. -/
theorem quotedText_plain {c : Char} (hc : IsPlain c) (rest : Text) :
    quotedText '"' false (c :: rest) = pushText [c] (quotedText '"' false rest) := by
  rw [quotedText, if_neg hc.2.2, if_neg hc.2.1, quotedChar, if_neg hc.2.1,
    if_neg (Nat.not_lt.mpr hc.1)]

/-- An escape is taken as it is, with its character. -/
theorem quotedText_escape {c : Char} (hc : IsAscii c) (rest : Text) :
    quotedText '"' false ('\\' :: c :: rest) = pushText ['\\', c] (quotedText '"' false rest) := by
  rw [quotedText, if_pos rfl, quotedText, if_pos hc]

theorem pushText_ok (a : Text) (r : Text × Text) : pushText a (.ok r) = .ok (a ++ r.1, r.2) := rfl

/-- Plain characters of a string are taken as they are. -/
theorem quotedText_plains {w rest : Text} {r : Text × Text} (hw : ∀ c ∈ w, IsPlain c)
    (h : quotedText '"' false rest = .ok r) :
    quotedText '"' false (w ++ rest) = .ok (w ++ r.1, r.2) := by
  induction w with
  | nil => exact h
  | cons c w ih =>
    obtain ⟨hc, hw⟩ := List.forall_mem_cons.mp hw
    rw [List.cons_append, quotedText_plain hc, ih hw, pushText_ok]
    rfl

/-- A string is closed where it ends, and copied. -/
theorem quotedText_body {body : Text} (h : Body body) (rest : Text) :
    quotedText '"' false (body ++ '"' :: rest) = .ok (body ++ ['"'], rest) := by
  induction h with
  | nil => rw [List.nil_append, quotedText, if_neg (by decide), if_pos rfl]; rfl
  | plain hc _ ih =>
    rw [List.cons_append, quotedText_plain hc, ih, pushText_ok]
    rfl
  | @escape c t hc _ ih =>
    have ha : IsAscii c := by
      revert c
      decide
    rw [List.cons_append, List.cons_append, quotedText_escape ha, ih, pushText_ok]
    rfl
  | @unicode digits t _ hdi _ ih =>
    rw [List.cons_append, List.cons_append, quotedText_escape (by decide), List.append_assoc,
      quotedText_plains (fun d hd => (hdi d hd).isPlain) ih, pushText_ok]
    simp only [List.append_assoc, List.cons_append, List.nil_append]

/-- A string is copied. -/
theorem copied_string (h : IsString w) : Copied w := by
  obtain ⟨body, hb, rfl⟩ := h
  intro total rest
  rw [List.cons_append, List.append_assoc, List.singleton_append, strict,
    if_neg fun h => absurd h.1 (by decide), if_neg fun h => absurd h.1 (by decide),
    if_pos (.inl rfl)]
  split
  next r hr =>
    rw [quotedText_body hb] at hr
    cases hr
    rfl
  next e he =>
    rw [quotedText_body hb] at he
    cases he

/-! ### Literals and numbers -/

/-- The characters that may follow a value. -/
def enders : Text := [' ', '\t', '\n', '\r', ',', ']', '}']

theorem Ends.head {rest : Text} (h : Ends rest) :
    rest = [] ∨ ∃ c t, c ∈ enders ∧ rest = c :: t := by
  obtain ⟨w, tail, hw, rfl, ht⟩ := h
  cases w with
  | nil =>
    refine ht.imp id ?_
    rintro ⟨c, t, hc, rfl⟩
    have hs : ∀ c ∈ [',', ']', '}'], c ∈ enders := by decide
    exact ⟨c, t, hs c hc, rfl⟩
  | cons c w =>
    have hs : ∀ c ∈ [' ', '\t', '\n', '\r'], c ∈ enders := by decide
    exact .inr ⟨c, w ++ tail, hs c (hw c List.mem_cons_self), rfl⟩

/-- A scan for a word stops where the word does. -/
theorem scan_ends {p : Char → Bool} (hp : ∀ c ∈ enders, p c = false) {w rest : Text}
    (hw : ∀ c ∈ w, p c = true) (h : Ends rest) :
    (w ++ rest).takeWhile p = w ∧ (w ++ rest).dropWhile p = rest := by
  rw [List.takeWhile_append_of_pos hw, List.dropWhile_append_of_pos hw]
  rcases Ends.head h with rfl | ⟨c, t, hc, rfl⟩
  · exact ⟨List.append_nil w, rfl⟩
  · rw [List.takeWhile_cons, List.dropWhile_cons, hp c hc]
    exact ⟨List.append_nil w, rfl⟩

/-- What may follow a scalar is not the colon of a name. -/
theorem isName_ends {rest : Text} (h : Ends rest) : isName rest = false := by
  obtain ⟨w, tail, hw, rfl, ht⟩ := h
  have hs : ∀ c ∈ w, onChar isAsciiWhitespace c = true := by
    intro c hc
    have hsu : ∀ c ∈ [' ', '\t', '\n', '\r'], onChar isAsciiWhitespace c = true := by decide
    exact hsu c (hw c hc)
  rw [isName, List.dropWhile_append_of_pos hs]
  rcases ht with rfl | ⟨c, t, hc, rfl⟩
  · rfl
  · have hcl : ∀ c ∈ [',', ']', '}'], onChar isAsciiWhitespace c = false ∧ c ≠ ':' := by decide
    obtain ⟨hsp, hco⟩ := hcl c hc
    rw [List.dropWhile_cons, hsp, if_neg Bool.false_ne_true, List.head?_cons]
    exact beq_eq_false_iff_ne.mpr fun h => hco (Option.some.inj h)

/-- The three literals are copied. -/
theorem copied_literal (h : w ∈ literals) : CopiedAtEnd w := by
  intro total rest hr
  have hk : ∀ w ∈ literals, ∃ c t, w = c :: t ∧ c ≠ '/' ∧ c ≠ '"' ∧ c ≠ '\'' ∧
      onChar startsWord c = true ∧ ∀ d ∈ t, onChar inWord d = true := by
    intro w hw
    simp only [literals, List.mem_cons, List.not_mem_nil, or_false] at hw
    rcases hw with rfl | rfl | rfl <;> exact ⟨_, _, rfl, by decide⟩
  obtain ⟨c, t, rfl, hs, hd, hsi, hst, ht⟩ := hk w h
  obtain ⟨hta, hdr⟩ := scan_ends (p := onChar inWord) (by decide) ht hr
  rw [List.cons_append, strict, if_neg fun h => hs h.1, if_neg fun h => hs h.1,
    if_neg (not_or.mpr ⟨hd, hsi⟩), if_pos hst, hta, hdr, wordText,
    isName_ends hr, if_neg Bool.false_ne_true]

theorem Digits.getLast? (h : Digits w) : ∃ d, w.getLast? = some d ∧ IsDigit d :=
  ⟨w.getLast h.1, List.getLast?_eq_some_getLast h.1, h.2 _ (List.getLast_mem h.1)⟩

/-- A number ends with a digit. -/
theorem Numeral.getLast?_magnitude (n : Numeral) :
    ∃ d, n.magnitude.getLast? = some d ∧ IsDigit d := by
  have ha : ∀ {a b : Text} {d : Char}, b.getLast? = some d → (a ++ b).getLast? = some d := by
    intro a b d h
    rw [List.getLast?_append, h, Option.some_or]
  rw [Numeral.magnitude]
  rcases n.exponent_ok with h | ⟨e, sign, ds, -, -, hds, h⟩
  · rw [h, List.append_nil]
    rcases n.fraction_ok with h | ⟨ds, hds, h⟩
    · rw [h, List.append_nil]
      rcases n.whole_ok with h | ⟨h, -⟩
      · exact ⟨'0', by rw [h]; rfl, by decide⟩
      · exact Digits.getLast? h
    · obtain ⟨d, hl, hd⟩ := Digits.getLast? hds
      rw [h, ← List.singleton_append]
      exact ⟨d, ha (ha hl), hd⟩
  · obtain ⟨d, hl, hd⟩ := Digits.getLast? hds
    rw [h, ← List.singleton_append]
    exact ⟨d, ha (ha (ha (ha hl))), hd⟩

theorem trimZeros_whole (h : Whole w) : trimZeros w = w := by
  rcases h with rfl | ⟨⟨hne, -⟩, hh⟩
  · decide
  · obtain ⟨c, t, rfl⟩ := List.exists_cons_of_ne_nil hne
    have hc : c ≠ '0' := fun h => hh (h ▸ rfl)
    have hd : (c :: t).dropWhile (· = '0') = c :: t := by
      rw [List.dropWhile_cons, decide_eq_false hc, if_neg Bool.false_ne_true]
    rw [trimZeros, hd]
    rfl

theorem IsDigit.ne {c d : Char} (h : IsDigit c) (hd : ¬ IsDigit d) : c ≠ d := fun hcd => hd (hcd ▸ h)

theorem normalizeMagnitude_numeral (n : Numeral) : normalizeMagnitude n.magnitude = n.magnitude := by
  obtain ⟨d, ds, hn, hd⟩ := n.exists_magnitude
  obtain ⟨l, hla, hl⟩ := Numeral.getLast?_magnitude n
  have hh : n.magnitude.head? ≠ some '.' := by
    rw [hn]
    exact fun h => IsDigit.ne hd (by decide) (Option.some.inj h)
  have hl' : n.magnitude.getLast? ≠ some '.' := by
    rw [hla]
    exact fun h => IsDigit.ne hl (by decide) (Option.some.inj h)
  rw [normalizeMagnitude]
  simp only [hh, hl', if_false]
  split
  next => rfl
  next ha =>
    have hno : ∀ c ∈ n.magnitude, c ∉ ['.', 'e', 'E'] := by
      intro c hc hm
      refine ha (List.any_eq_true.mpr ⟨c, hc, ?_⟩)
      rw [List.contains_iff_mem]
      exact hm
    have hf : n.fraction = [] := by
      rcases n.fraction_ok with h | ⟨ds, -, h⟩
      · exact h
      · refine absurd ?_ (hno '.' ?_)
        · decide
        · rw [Numeral.magnitude, h]
          simp
    have hexp : n.exponent = [] := by
      rcases n.exponent_ok with h | ⟨e, sign, ds, he, -, -, h⟩
      · exact h
      · refine absurd ?_ (hno e ?_)
        · exact List.mem_cons_of_mem _ he
        · rw [Numeral.magnitude, h]
          simp
    rw [Numeral.magnitude, hf, hexp, List.append_nil, List.append_nil,
      trimZeros_whole n.whole_ok]

theorem all_isNumberByte (n : Numeral) : (encode n.magnitude).all isNumberByte = true := by
  have hal : ∀ w : Text, (∀ c ∈ w, IsAscii c ∧ isNumberByte (ascii c) = true) →
      (encode w).all isNumberByte = true := by
    intro w hw
    induction w with
    | nil => rfl
    | cons c w ih =>
      obtain ⟨⟨ha, hc⟩, hw⟩ := List.forall_mem_cons.mp hw
      rw [encode_ascii_cons ha, List.all_cons, hc, ih hw, Bool.true_and]
  have hd : ∀ c ∈ starts, IsDigit c → IsAscii c ∧ isNumberByte (ascii c) = true := by decide
  have ho : ∀ c ∈ ['.', 'e', 'E', '+', '-'], IsAscii c ∧ isNumberByte (ascii c) = true := by
    decide
  refine hal _ fun c hc => ?_
  exact (n.chars c hc).elim (fun h => hd c h.mem_starts h) (ho c)

/-- A number of the grammar is normal. -/
theorem normalizeJavaNumber_numeral (n : Numeral) : normalizeJavaNumber n.text = n.text := by
  obtain ⟨d, ds, hn, hd⟩ := n.exists_magnitude
  have he : n.magnitude.isEmpty = false := by rw [hn]; rfl
  have hh : ∀ {c : Char}, ¬ IsDigit c → (n.magnitude.head? == some c) = false := by
    intro c hc
    rw [hn, List.head?_cons]
    exact beq_eq_false_iff_ne.mpr fun h => IsDigit.ne hd hc (Option.some.inj h)
  rw [Numeral.text]
  cases n.minus
  · simp only [Bool.false_eq_true, if_false, normalizeJavaNumber,
      hh (show ¬ IsDigit '-' by decide), hh (show ¬ IsDigit '+' by decide), Bool.or_self,
      he, all_isNumberByte, Bool.not_true, normalizeMagnitude_numeral]
  · have hm : (('-' :: n.magnitude).head? == some '-') = true := rfl
    simp only [if_true, normalizeJavaNumber, hm, Bool.or_true, List.tail_cons, he,
      all_isNumberByte, Bool.not_true, Bool.or_self, Bool.false_eq_true, if_false,
      normalizeMagnitude_numeral]

/-- A number is copied. -/
theorem copied_number (n : Numeral) : CopiedAtEnd n.text := by
  have hk : ∀ c ∈ starts, (IsDigit c ∨ c = '-') → c ≠ '/' ∧ c ≠ '"' ∧ c ≠ '\'' ∧
      onChar startsWord c = false ∧ onChar startsNumber c = true := by decide
  have hdi : ∀ c ∈ starts, IsDigit c → onChar inNumber c = true := by decide
  have ho : ∀ c ∈ ['.', 'e', 'E', '+', '-'], onChar inNumber c = true := by decide
  have hr : ∀ c ∈ n.magnitude, onChar inNumber c = true := fun c hc =>
    (n.chars c hc).elim (fun h => hdi c h.mem_starts h) (ho c)
  intro total rest hen
  obtain ⟨c, t, hte, hc, ht⟩ : ∃ c t, n.text = c :: t ∧ (c ∈ starts ∧ (IsDigit c ∨ c = '-')) ∧
      ∀ d ∈ t, onChar inNumber d = true := by
    obtain ⟨d, ds, hn, hd⟩ := n.exists_magnitude
    rw [Numeral.text]
    split
    · exact ⟨'-', n.magnitude, rfl, ⟨by decide, .inr rfl⟩, hr⟩
    · exact ⟨d, ds, hn, ⟨hd.mem_starts, .inl hd⟩, fun e he =>
        hr e (hn ▸ List.mem_cons_of_mem d he)⟩
  obtain ⟨hs, hdo, hsi, hw, hnu⟩ := hk c hc.1 hc.2
  obtain ⟨hta, hdr⟩ := scan_ends (p := onChar inNumber) (by decide) ht hen
  have hsa := normalizeJavaNumber_numeral n
  rw [hte] at hsa ⊢
  rw [List.cons_append, strict, if_neg fun h => hs h.1, if_neg fun h => hs h.1,
    if_neg (not_or.mpr ⟨hdo, hsi⟩), hw, if_neg Bool.false_ne_true, if_pos hnu, hta,
    hdr, hsa]

/-! ### Documents -/

theorem ends_close {c : Char} (hc : c ∈ [',', ']', '}']) (rest : Text) : Ends (c :: rest) :=
  ⟨[], c :: rest, fun _ h => absurd h List.not_mem_nil, rfl, .inr ⟨c, rest, hc, rfl⟩⟩

theorem Ends.spaces {w rest : Text} (hw : Spaces w) (h : Ends rest) : Ends (w ++ rest) := by
  obtain ⟨w', tail, hw', rfl, ht⟩ := h
  refine ⟨w ++ w', tail, ?_, (List.append_assoc _ _ _).symm, ht⟩
  exact fun c hc => (List.mem_append.mp hc).elim (hw c) (hw' c)

/-- What is copied before its end is copied before white space. -/
theorem CopiedAtEnd.spaces {v w : Text} (hv : CopiedAtEnd v) (hw : Spaces w) :
    CopiedAtEnd (v ++ w) := by
  intro total rest hr
  rw [List.append_assoc, hv total _ (Ends.spaces hw hr), copied_spaces hw, prepend_prepend]

/-- Two parts with a comma between them are copied. -/
theorem CopiedAtEnd.comma {v w : Text} (hv : CopiedAtEnd v) (hw : CopiedAtEnd w) :
    CopiedAtEnd (v ++ ',' :: w) := by
  intro total rest hr
  rw [List.append_assoc, List.cons_append, hv total _ (ends_close (by decide) _),
    strict_single total (by decide), hw total rest hr, prepend_prepend, prepend_prepend,
    List.append_assoc, List.singleton_append]

/-- A part between brackets is copied, whatever follows. -/
theorem CopiedAtEnd.enclosed (hw : CopiedAtEnd w) {c d : Char} (hc : c ∈ single) (hd : d ∈ [']', '}']) : Copied (c :: (w ++ [d])) := by
  intro total rest
  have hs : ∀ d ∈ [']', '}'], d ∈ single ∧ d ∈ [',', ']', '}'] := by decide
  rw [List.cons_append, List.append_assoc, List.singleton_append, strict_single total hc,
    hw total _ (ends_close (hs d hd).2 rest), strict_single total (hs d hd).1, prepend_prepend,
    prepend_prepend]
  rfl

/-- Whatever the grammar derives is copied. -/
theorem Derives.copied {symbol : Symbol} {depth tokens : Nat} (h : Derives symbol w depth tokens) :
    CopiedAtEnd w := by
  induction h with
  | literal h => exact copied_literal h
  | number n => exact copied_number n
  | string h => exact (copied_string h).atEnd
  | emptyArray h => exact ((copied_spaces h).atEnd.enclosed (by decide) (by decide)).atEnd
  | array _ ih => exact (ih.enclosed (by decide) (by decide)).atEnd
  | emptyObject h => exact ((copied_spaces h).atEnd.enclosed (by decide) (by decide)).atEnd
  | object _ ih => exact (ih.enclosed (by decide) (by decide)).atEnd
  | element ha _ hb ih => exact (copied_spaces ha).append_atEnd (ih.spaces hb)
  | elementCons ha _ hb _ ihv ihw =>
    have := (copied_spaces ha).append_atEnd ((ihv.spaces hb).comma ihw)
    simpa only [List.append_assoc] using this
  | member ha hk hb hc _ hd ih =>
    have hke := ((copied_spaces ha).append (copied_string hk)).append (copied_spaces hb)
    have hco : Copied [':'] := copied_single (by decide)
    have := (hke.append (hco.append (copied_spaces hc))).append_atEnd (ih.spaces hd)
    simpa only [List.append_assoc, List.cons_append, List.nil_append] using this
  | memberCons ha hk hb hc _ hd _ ihv ihw =>
    have hke := ((copied_spaces ha).append (copied_string hk)).append (copied_spaces hb)
    have hco : Copied [':'] := copied_single (by decide)
    have := (hke.append (hco.append (copied_spaces hc))).append_atEnd
      ((ihv.spaces hd).comma ihw)
    simpa only [List.append_assoc, List.cons_append, List.nil_append] using this

/-- The pass leaves a document as it is. -/
theorem strict_document {text : Text} {depth tokens : Nat} (h : Document text depth tokens)
    (total : Nat) : strict total text = .ok text := by
  obtain ⟨a, v, b, ha, hv, hb, rfl⟩ := h
  have he : Ends [] := ⟨[], [], fun _ h => absurd h List.not_mem_nil, rfl, .inl rfl⟩
  have := (copied_spaces ha).append_atEnd ((Derives.copied hv).spaces hb) total [] he
  rw [List.append_nil, strict] at this
  rw [this]
  exact congrArg Except.ok (List.append_nil _)

/-! ## What the stripping leaves as it is -/

/-- The stripping keeps the text, whatever comes after it. -/
def Kept (w : Text) : Prop := ∀ rest, stripFrom false false (w ++ rest) = w ++ stripFrom false false rest

theorem Kept.append {a b : Text} (ha : Kept a) (hb : Kept b) : Kept (a ++ b) := by
  intro rest
  rw [List.append_assoc, ha, hb, List.append_assoc]

/-- Without quotes and commas nothing is stripped. -/
theorem kept_of_forall (h : ∀ c ∈ w, c ≠ '"' ∧ c ≠ ',') : Kept w := by
  intro rest
  induction w with
  | nil => rfl
  | cons c w ih =>
    obtain ⟨⟨hq, hc⟩, hw⟩ := List.forall_mem_cons.mp h
    rw [List.cons_append, stripFrom, if_neg hq, if_neg hc, ih hw, List.cons_append]

theorem kept_spaces (h : Spaces w) : Kept w := by
  have ha : ∀ c ∈ [' ', '\t', '\n', '\r'], c ≠ '"' ∧ c ≠ ',' := by decide
  exact kept_of_forall fun c hc => ha c (h c hc)

theorem kept_scalar (h : ∀ c ∈ w, IsScalar c) : Kept w := by
  have hm : '"' ∈ marks ∧ ',' ∈ marks := by decide
  refine kept_of_forall fun c hc => ⟨?_, ?_⟩
  · rintro rfl
    exact (h _ hc).2 hm.1
  · rintro rfl
    exact (h _ hc).2 hm.2

theorem stripFrom_plains (h : ∀ c ∈ w, IsPlain c) (rest : Text) :
    stripFrom true false (w ++ rest) = w ++ stripFrom true false rest := by
  induction w with
  | nil => rfl
  | cons c w ih =>
    obtain ⟨hc, hw⟩ := List.forall_mem_cons.mp h
    rw [List.cons_append, stripFrom, if_neg hc.2.2, if_neg hc.2.1, ih hw, List.cons_append]

theorem stripFrom_escape (c : Char) (rest : Text) :
    stripFrom true false ('\\' :: c :: rest) = '\\' :: c :: stripFrom true false rest := by
  rw [stripFrom, if_pos rfl, stripFrom]

theorem stripFrom_body {body : Text} (h : Body body) (rest : Text) :
    stripFrom true false (body ++ '"' :: rest) = body ++ '"' :: stripFrom false false rest := by
  induction h with
  | nil => rw [List.nil_append, stripFrom, if_neg (by decide), if_pos rfl, List.nil_append]
  | @plain c t hc _ ih =>
    rw [List.cons_append, stripFrom, if_neg hc.2.2, if_neg hc.2.1, ih, List.cons_append]
  | escape _ _ ih => rw [List.cons_append, List.cons_append, stripFrom_escape, ih]; rfl
  | unicode _ hdi _ ih =>
    rw [List.cons_append, List.cons_append, stripFrom_escape, List.append_assoc,
      stripFrom_plains fun d hd => (hdi d hd).isPlain, ih]
    simp only [List.append_assoc, List.cons_append]

/-- Nothing is stripped of a string. -/
theorem kept_string (h : IsString w) : Kept w := by
  obtain ⟨body, hb, rfl⟩ := h
  intro rest
  rw [List.cons_append, List.append_assoc, List.singleton_append, stripFrom, if_pos rfl,
    stripFrom_body hb]
  simp only [List.append_assoc, List.cons_append, List.nil_append]

/-- No bracket closes where a value starts. -/
theorem closesNext_opens (h : Opens w) : closesNext w = false := by
  obtain ⟨a, c, t, ha, rfl, hc⟩ := h
  have hsp : ∀ c ∈ a, isWhitespace c = true := by
    have hal : ∀ c ∈ [' ', '\t', '\n', '\r'], isWhitespace c = true := by decide
    exact fun c hc => hal c (ha c hc)
  have hs : ∀ c ∈ starts, isWhitespace c = false ∧ (c == ']' || c == '}') = false := by decide
  rw [closesNext, List.dropWhile_append_of_pos hsp, List.dropWhile_cons, (hs c hc).1,
    if_neg Bool.false_ne_true, List.head?_cons]
  exact (hs c hc).2

/-- A comma before a value is kept. -/
theorem Kept.comma {v w : Text} (hv : Kept v) (hw : Kept w) (ho : Opens w) :
    Kept (v ++ ',' :: w) := by
  intro rest
  rw [List.append_assoc, List.cons_append, hv, stripFrom, if_neg (by decide), if_pos rfl,
    closesNext_opens (ho.append rest), if_neg Bool.false_ne_true, hw, List.append_assoc,
    List.cons_append]

theorem Kept.enclosed (hw : Kept w) {c d : Char} (hc : c ≠ '"' ∧ c ≠ ',') (hd : d ≠ '"' ∧ d ≠ ',') :
    Kept (c :: (w ++ [d])) := by
  have ho : Kept [c] := kept_of_forall (List.forall_mem_singleton.mpr hc)
  have hcl : Kept [d] := kept_of_forall (List.forall_mem_singleton.mpr hd)
  exact ho.append (hw.append hcl)

/-- Nothing is stripped of what the grammar derives. -/
theorem Derives.kept {symbol : Symbol} {depth tokens : Nat} (h : Derives symbol w depth tokens) :
    Kept w := by
  induction h with
  | literal h => exact kept_scalar (isScalar_literal h).2
  | number n => exact kept_scalar (Numeral.isScalar_text n).2
  | string h => exact kept_string h
  | emptyArray h => exact (kept_spaces h).enclosed (by decide) (by decide)
  | array _ ih => exact ih.enclosed (by decide) (by decide)
  | emptyObject h => exact (kept_spaces h).enclosed (by decide) (by decide)
  | object _ ih => exact ih.enclosed (by decide) (by decide)
  | element ha _ hb ih => exact (kept_spaces ha).append (ih.append (kept_spaces hb))
  | elementCons ha _ hb hw ihv ihw =>
    have := (kept_spaces ha).append ((ihv.append (kept_spaces hb)).comma ihw hw.opens)
    simpa only [List.append_assoc] using this
  | member ha hk hb hc _ hd ih =>
    have hke := ((kept_spaces ha).append (kept_string hk)).append (kept_spaces hb)
    have hco : Kept [':'] := kept_of_forall (by decide)
    have := (hke.append (hco.append (kept_spaces hc))).append (ih.append (kept_spaces hd))
    simpa only [List.append_assoc, List.cons_append, List.nil_append] using this
  | memberCons ha hk hb hc _ hd hw ihv ihw =>
    have hke := ((kept_spaces ha).append (kept_string hk)).append (kept_spaces hb)
    have hco : Kept [':'] := kept_of_forall (by decide)
    have := (hke.append (hco.append (kept_spaces hc))).append
      ((ihv.append (kept_spaces hd)).comma ihw hw.opens)
    simpa only [List.append_assoc, List.cons_append, List.nil_append] using this

/-- The stripping leaves a document as it is. -/
theorem stripTrailingCommas_document {text : Text} {depth tokens : Nat}
    (h : Document text depth tokens) : stripTrailingCommas text = text := by
  obtain ⟨a, v, b, ha, hv, hb, rfl⟩ := h
  have := (kept_spaces ha).append ((Derives.kept hv).append (kept_spaces hb)) []
  rwa [List.append_nil, stripFrom, List.append_nil] at this

/-! ## Documents -/

/-- A document within the limits. -/
structure Request where
  text : Text
  depth : Nat
  tokens : Nat
  document : Document text depth tokens
  /-- the root is not a level -/
  depth_le : depth ≤ maxProtobufJsonNesting + 1
  tokens_le : tokens ≤ maxProtobufJsonTokens

/-- A document within the limits is read as the strict parser reads it. -/
theorem parseLenientJson_document {J : Type} (fromStr : Text → Except String J) (r : Request) :
    parseLenientJson fromStr r.text = ofExcept (fromStr r.text) := by
  have hadmitted : validateJsonAdmission r.text = .ok () :=
    (validateJsonAdmission_document r.document).mpr ⟨r.depth_le, r.tokens_le⟩
  rw [parseLenientJson, hadmitted, normalizeJavaJson_eq, strict_document r.document]
  change ofExcept (fromStr (stripTrailingCommas r.text)) = _
  rw [stripTrailingCommas_document r.document]

/-- An array of one number. -/
def minusZero : Request where
  text := ['[', ' ', '-', '0', ']']
  depth := 1
  tokens := 3
  document :=
    have number : Derives .value ['-', '0'] 0 1 :=
      .number ⟨true, ['0'], [], [], .inl rfl, .inl rfl, .inl rfl⟩
    have spaces : Spaces [' '] ∧ Spaces [] := by decide
    ⟨[], _, [], spaces.2, .array (.element spaces.1 number spaces.2), spaces.2, rfl⟩
  depth_le := by decide
  tokens_le := by decide

theorem parseLenientJson_minusZero :
    parseLenientJson (fun text => .ok text.length) minusZero.text = .ok 5 :=
  parseLenientJson_document _ minusZero

end RustTron.Apis.Json
