import RustTron.Apis.Json.Admission

/-!
# What the scan counts

On a text that conforms to the grammar the scan counts the brackets and the tokens that the grammar
counts, so it admits exactly the documents within the limits.

## Main definitions

* `Counted w depth tokens`: within a document the scan finds so much in `w`

## Main results

* `Derives.counted`: the parts of documents
* `validateJsonAdmission_document`: the documents
-/

namespace RustTron.Apis.Json

open Utf8 Rfc8259

attribute [local instance] decidableForallMem

/-! ## Single bytes -/

/-- The characters that end a number or a literal. -/
def marks : Text := ['"', '{', '[', '}', ']', ',', ':', ' ', '\t', '\n', '\x0C', '\r']

/-- A character of a number or a literal. -/
def IsScalar (c : Char) : Prop := IsAscii c ∧ c ∉ marks

instance (c : Char) : Decidable (IsScalar c) := inferInstanceAs (Decidable (_ ∧ _))

namespace Scan

variable {s : Scan}

/-- One more token, if there may be one. -/
def token (s : Scan) : Option Scan :=
  if s.tokens + 1 ≤ maxProtobufJsonTokens then some { s with tokens := s.tokens + 1 } else none

/-- A byte outside of strings that counts as a token. -/
theorem step_token {s' : Scan} {byte : UInt8} (hs : s.string = false)
    (h : s.outside {} byte = .ok (s', true)) : s.step byte = s'.token := by
  rw [step, hs, if_neg Bool.false_ne_true, h, token]
  simp only [if_true]
  by_cases hlt : s'.tokens + 1 ≤ maxProtobufJsonTokens
  · rw [if_pos hlt, if_neg (Nat.not_lt.mpr hlt)]
  · rw [if_neg hlt, if_pos (Nat.lt_of_not_le hlt)]

/-- A byte outside of strings that does not count. -/
theorem step_silent {s' : Scan} {byte : UInt8} (hs : s.string = false)
    (h : s.outside {} byte = .ok (s', false)) : s.step byte = some s' := by
  rw [step, hs, if_neg Bool.false_ne_true, h]
  rfl

theorem step_quote (hs : s.string = false) :
    s.step (ascii '"') = ({ s with string := true, scalar := false } : Scan).token :=
  step_token hs rfl

/-- A bracket below the root is a token and a level. -/
theorem step_open (hs : s.string = false) (hr : s.sawRoot = true) {c : Char}
    (hc : c = '[' ∨ c = '{') : s.step (ascii c) =
      if s.depth + 1 ≤ maxProtobufJsonNesting then
        ({ s with scalar := false, depth := s.depth + 1 } : Scan).token
      else none := by
  have ho : s.outside {} (ascii c) =
      if s.depth ≥ maxProtobufJsonNesting then .error ⟨s!"1:0: Hit recursion limit."⟩
      else .ok ({ s with scalar := false, depth := s.depth + 1 }, true) := by
    rw [outside, hr]
    rcases hc with rfl | rfl <;> rfl
  by_cases hlt : s.depth + 1 ≤ maxProtobufJsonNesting
  · rw [if_pos hlt]
    exact step_token hs (ho.trans (if_neg (Nat.not_le.mpr hlt)))
  · rw [if_neg hlt, step, hs, ho, if_neg Bool.false_ne_true,
      if_pos (Nat.le_of_lt_succ (Nat.lt_of_not_le hlt))]

/-- The first bracket is a token only. -/
theorem step_root (hs : s.string = false) (hr : s.sawRoot = false) {c : Char}
    (hc : c = '[' ∨ c = '{') : s.step (ascii c) =
      ({ s with scalar := false, sawRoot := true } : Scan).token := by
  refine step_token hs ?_
  rw [outside, hr]
  rcases hc with rfl | rfl <;> rfl

theorem step_close (hs : s.string = false) {c : Char} (hc : c = ']' ∨ c = '}') :
    s.step (ascii c) = ({ s with scalar := false, depth := s.depth - 1 } : Scan).token := by
  refine step_token hs ?_
  rcases hc with rfl | rfl <;> rfl

theorem step_separator (hs : s.string = false) {c : Char} (hc : c = ',' ∨ c = ':') :
    s.step (ascii c) = some { s with scalar := false } := by
  refine step_silent hs ?_
  rcases hc with rfl | rfl <;> rfl

theorem step_space (hs : s.string = false) {c : Char} (hc : IsSpace c) :
    s.step (ascii c) = some { s with scalar := false } := by
  refine step_silent hs ?_
  simp only [IsSpace, List.mem_cons, List.not_mem_nil, or_false] at hc
  rcases hc with rfl | rfl | rfl | rfl <;> rfl

/-- Of a scalar the first byte counts. -/
theorem outside_scalar (s : Scan) {c : Char} (hc : IsScalar c) : s.outside {} (ascii c) =
    if s.scalar then .ok (s, false) else .ok ({ s with scalar := true }, true) := by
  obtain ⟨ha, hc⟩ := hc
  have hm : ∀ d ∈ marks, IsAscii d := by decide
  have hne : ∀ d ∈ marks, ascii c ≠ ascii d := fun d hd heq =>
    hc ((ascii_inj ha (hm d hd)).mp heq ▸ hd)
  simp only [marks, List.forall_mem_cons] at hne
  obtain ⟨h1, h2, h3, h4, h5, h6, h7, h8, h9, h10, h11, h12, -⟩ := hne
  have hs : isAsciiWhitespace (ascii c) = false := by
    rw [isAsciiWhitespace, List.contains_eq_mem, decide_eq_false_iff_not]
    simp only [List.mem_cons, List.not_mem_nil, or_false, not_or]
    exact ⟨h8, h9, h10, h11, h12⟩
  rw [outside, if_neg h1, if_neg (not_or.mpr ⟨h2, h3⟩), if_neg (not_or.mpr ⟨h4, h5⟩),
    if_neg (not_or.mpr ⟨h6, h7⟩), if_neg (by rw [hs]; exact Bool.false_ne_true)]
  cases s.scalar <;> rfl

/-! ## Stretches of text -/

/-- White space ends a scalar, and nothing else changes. -/
theorem run_spaces (hs : s.string = false) {w : Text} (hw : Spaces w) :
    ∃ b, s.run (encode w) = some { s with scalar := b } ∧ (s.scalar = false → b = false) := by
  induction w generalizing s with
  | nil => exact ⟨s.scalar, rfl, id⟩
  | cons c w ih =>
    obtain ⟨hc, hw⟩ := List.forall_mem_cons.mp hw
    have ha : IsAscii c := by
      simp only [IsSpace, List.mem_cons, List.not_mem_nil, or_false] at hc
      rcases hc with rfl | rfl | rfl | rfl <;> decide
    obtain ⟨b, hr, hb⟩ := ih (s := { s with scalar := false }) hs hw
    refine ⟨b, ?_, fun _ => hb rfl⟩
    rw [encode_ascii_cons ha, run_of_step (step_space hs hc), hr]

theorem run_scalar_rest (hst : s.string = false) (hs : s.scalar = true) {w : Text}
    (hw : ∀ c ∈ w, IsScalar c) : s.run (encode w) = some s := by
  induction w with
  | nil => rfl
  | cons c w ih =>
    obtain ⟨hc, hw⟩ := List.forall_mem_cons.mp hw
    have ho : s.outside {} (ascii c) = .ok (s, false) := by
      rw [outside_scalar s hc, hs, if_pos rfl]
    rw [encode_ascii_cons hc.1, run_of_step (step_silent hst ho), ih hw]

/-- In a string, bytes beyond ASCII pass. -/
theorem run_beyond (hs : s.string = true) (he : s.escaped = false) {bytes : Bytes}
    (h : ∀ b ∈ bytes, 0x80 ≤ b) : s.run bytes = some s := by
  induction bytes with
  | nil => rfl
  | cons b bytes ih =>
    obtain ⟨hb, hby⟩ := List.forall_mem_cons.mp h
    have hne : ∀ c, IsAscii c → b ≠ ascii c := by
      rintro c hc rfl
      exact absurd hb (UInt8.not_le.mpr (ascii_lt hc))
    have hst : s.step b = some s := by
      rw [step, hs, if_pos rfl, inString, he, if_neg Bool.false_ne_true,
        if_neg (hne _ (by decide)), if_neg (hne _ (by decide))]
    rw [run_of_step hst, ih hby]

theorem step_plain (hs : s.string = true) (he : s.escaped = false) {c : Char}
    (ha : IsAscii c) (hq : c ≠ '"') (hb : c ≠ '\\') : s.step (ascii c) = some s := by
  have hne : ∀ d, IsAscii d → c ≠ d → ascii c ≠ ascii d := fun d hd hcd h =>
    hcd ((ascii_inj ha hd).mp h)
  rw [step, hs, if_pos rfl, inString, he, if_neg Bool.false_ne_true,
    if_neg (hne _ (by decide) hb), if_neg (hne _ (by decide) hq)]

theorem run_plain (hs : s.string = true) (he : s.escaped = false) {c : Char}
    (hq : c ≠ '"') (hba : c ≠ '\\') : s.run (String.utf8EncodeChar c) = some s := by
  by_cases ha : IsAscii c
  · rw [utf8EncodeChar_ascii ha, run_of_step (step_plain hs he ha hq hba),
      run_nil]
  · exact run_beyond hs he fun b hb => le_of_mem ha hb

/-- A string runs on over plain characters. -/
theorem run_plains (hs : s.string = true) (he : s.escaped = false) {w : Text}
    (hw : ∀ c ∈ w, c ≠ '"' ∧ c ≠ '\\') : s.run (encode w) = some s := by
  induction w with
  | nil => rfl
  | cons c w ih =>
    obtain ⟨⟨hq, hb⟩, hw⟩ := List.forall_mem_cons.mp hw
    rw [encode_cons, run_append, run_plain hs he hq hb, Option.bind_some, ih hw]

theorem run_escape (hs : s.string = true) (he : s.escaped = false) (byte : UInt8)
    (rest : Bytes) : s.run (ascii '\\' :: byte :: rest) = s.run rest := by
  obtain ⟨depth, sawRoot, tokens, string, escaped, scalar⟩ := s
  obtain rfl : string = true := hs
  obtain rfl : escaped = false := he
  have hb : step ⟨depth, sawRoot, tokens, true, false, scalar⟩ (ascii '\\') =
      some ⟨depth, sawRoot, tokens, true, true, scalar⟩ := rfl
  have hn : step ⟨depth, sawRoot, tokens, true, true, scalar⟩ byte =
      some ⟨depth, sawRoot, tokens, true, false, scalar⟩ := rfl
  rw [run_of_step hb, run_of_step hn]

/-- The scan passes over what stands between the quotes of a string. -/
theorem run_body (hs : s.string = true) (he : s.escaped = false) {w : Text}
    (h : Body w) : s.run (encode w) = some s := by
  induction h with
  | nil => rfl
  | plain hc _ ih =>
    rw [encode_cons, run_append, run_plain hs he hc.2.1 hc.2.2, Option.bind_some, ih]
  | @escape c t hc _ ih =>
    have ha : IsAscii c := by
      revert c
      decide
    rw [encode_ascii_cons (by decide), encode_ascii_cons ha, run_escape hs he, ih]
  | @unicode digits t _ hdi _ ih =>
    have hp : ∀ d ∈ digits, d ≠ '"' ∧ d ≠ '\\' := fun d hd => (hdi d hd).isPlain.2
    rw [encode_ascii_cons (by decide), encode_ascii_cons (by decide), run_escape hs he,
      encode_append, run_append, run_plains hs he hp, Option.bind_some, ih]

end Scan

/-! ## Parts of documents -/

open Scan

/-- Outside strings, at some depth and after so many tokens. -/
def inside (root : Bool) (depth tokens : Nat) (scalar : Bool) : Scan :=
  ⟨depth, root, tokens, false, false, scalar⟩

/-- A token is counted. -/
def counting (root : Bool) (depth tokens : Nat) (scalar : Bool) : Option Scan :=
  if tokens ≤ maxProtobufJsonTokens then some (inside root depth tokens scalar) else none

/-- The scan finds brackets of this depth and so many tokens in the text. -/
def Counted (root : Bool) (w : Text) (depth tokens : Nat) : Prop :=
  ∀ n t, n ≤ maxProtobufJsonNesting → t ≤ maxProtobufJsonTokens →
    ∃ b, (inside root n t false).run (encode w) =
      if n + depth ≤ maxProtobufJsonNesting then counting root n (t + tokens) b else none

/-- Within the limit of tokens the scan goes on. -/
theorem counting_of_le {root : Bool} {n t : Nat} (h : t ≤ maxProtobufJsonTokens) (b : Bool) :
    counting root n t b = some (inside root n t b) := if_pos h

theorem counting_of_not {root : Bool} {n t : Nat} (h : ¬ t ≤ maxProtobufJsonTokens) (b : Bool) :
    counting root n t b = none := if_neg h

/-- A bracket opens a level, up to the limit. -/
theorem inside_open {c : Char} (hc : c = '[' ∨ c = '{') (n t : Nat) (b : Bool) :
    (inside true n t b).step (ascii c) =
      if n + 1 ≤ maxProtobufJsonNesting then counting true (n + 1) (t + 1) false else none :=
  step_open rfl rfl hc

theorem inside_close {c : Char} (hc : c = ']' ∨ c = '}') (root : Bool) (n t : Nat) (b : Bool) :
    (inside root n t b).step (ascii c) = counting root (n - 1) (t + 1) false :=
  step_close rfl hc

theorem inside_separator {c : Char} (hc : c = ',' ∨ c = ':') (root : Bool) (n t : Nat) (b : Bool) :
    (inside root n t b).step (ascii c) = some (inside root n t false) :=
  step_separator rfl hc

theorem inside_spaces {w : Text} (hw : Spaces w) (root : Bool) (n t : Nat) (b : Bool) :
    ∃ b', (inside root n t b).run (encode w) = some (inside root n t b') ∧ (b = false → b' = false) :=
  run_spaces (s := inside root n t b) rfl hw

namespace Counted

variable {root : Bool} {u v w a b : Text} {depth tokens depth' tokens' : Nat}

theorem spaces (hw : Spaces w) : Counted root w 0 0 := by
  intro n t hn ht
  obtain ⟨b, hr, -⟩ := inside_spaces hw root n t false
  exact ⟨b, by rw [hr, if_pos (show n + 0 ≤ _ from hn), Nat.add_zero, counting_of_le ht]⟩

/-- A scalar is one token. -/
theorem scalar (hne : w ≠ []) (hw : ∀ c ∈ w, IsScalar c) : Counted root w 0 1 := by
  intro n t hn _
  obtain ⟨c, w, rfl⟩ := List.exists_cons_of_ne_nil hne
  obtain ⟨hc, hw⟩ := List.forall_mem_cons.mp hw
  have hs : (inside root n t false).step (ascii c) = counting root n (t + 1) true :=
    step_token rfl (outside_scalar (inside root n t false) hc)
  refine ⟨true, ?_⟩
  rw [encode_ascii_cons hc.1, run_cons, hs, if_pos (show n + 0 ≤ _ from hn)]
  by_cases ht : t + 1 ≤ maxProtobufJsonTokens
  · rw [counting_of_le ht, Option.bind_some]
    exact run_scalar_rest (s := inside root n (t + 1) true) rfl rfl hw
  · rw [counting_of_not ht, Option.bind_none]

theorem string (hw : IsString w) : Counted root w 0 1 := by
  intro n t hn _
  obtain ⟨body, hb, rfl⟩ := hw
  refine ⟨false, ?_⟩
  rw [encode_ascii_cons (by decide), run_cons, step_quote rfl, if_pos (show n + 0 ≤ _ from hn)]
  by_cases ht : t + 1 ≤ maxProtobufJsonTokens
  · have hto : (⟨n, root, t, true, false, false⟩ : Scan).token =
        some ⟨n, root, t + 1, true, false, false⟩ := if_pos ht
    have hc : (⟨n, root, t + 1, true, false, false⟩ : Scan).step (ascii '"') =
        some (inside root n (t + 1) false) := rfl
    have hb : (⟨n, root, t + 1, true, false, false⟩ : Scan).run (encode body) =
        some ⟨n, root, t + 1, true, false, false⟩ := run_body rfl rfl hb
    rw [counting_of_le ht]
    change (Scan.token _).bind _ = _
    rw [encode_append]
    refine (congrArg (Option.bind · _) hto).trans ?_
    rw [Option.bind_some, run_append, hb, Option.bind_some, encode_ascii_cons (by decide)]
    exact run_of_step hc []
  · have hto : (⟨n, root, t, true, false, false⟩ : Scan).token = none := if_neg ht
    rw [counting_of_not ht]
    exact congrArg (Option.bind · _) hto

/-- White space before a value. -/
theorem after_spaces (ha : Spaces a) (hv : Counted root v depth tokens) :
    Counted root (a ++ v) depth tokens := by
  intro n t hn ht
  obtain ⟨b, hr, hb⟩ := inside_spaces ha root n t false
  obtain rfl := hb rfl
  rw [encode_append, run_append, hr, Option.bind_some]
  exact hv n t hn ht

/-- White space after a value. -/
theorem before_spaces (hv : Counted root v depth tokens) (hb : Spaces b) :
    Counted root (v ++ b) depth tokens := by
  intro n t hn ht
  obtain ⟨c, hr⟩ := hv n t hn ht
  obtain ⟨c', hr', -⟩ := inside_spaces hb root n (t + tokens) c
  refine ⟨c', ?_⟩
  rw [encode_append, run_append, hr]
  split
  · by_cases ht' : t + tokens ≤ maxProtobufJsonTokens
    · rw [counting_of_le ht', counting_of_le ht', Option.bind_some, hr']
    · rw [counting_of_not ht', counting_of_not ht', Option.bind_none]
  · rfl

/-- Two parts with a comma or a colon between them. -/
theorem separated (hu : Counted root u depth tokens) (hw : Counted root w depth' tokens') {c : Char}
    (hc : c = ',' ∨ c = ':') : Counted root (u ++ c :: w) (max depth depth') (tokens + tokens') := by
  intro n t hn ht
  have ha : IsAscii c := by rcases hc with rfl | rfl <;> decide
  obtain ⟨b, hr⟩ := hu n t hn ht
  rw [encode_append, run_append, hr, ← Nat.add_assoc]
  by_cases hd : n + depth ≤ maxProtobufJsonNesting
  swap
  · exact ⟨b, by rw [if_neg hd, if_neg (by omega), Option.bind_none]⟩
  rw [if_pos hd]
  by_cases hto : t + tokens ≤ maxProtobufJsonTokens
  · obtain ⟨b', hr'⟩ := hw n (t + tokens) hn hto
    refine ⟨b', ?_⟩
    rw [counting_of_le hto, Option.bind_some, encode_ascii_cons ha,
      run_of_step (inside_separator hc _ _ _ _), hr']
    exact if_congr (by omega) rfl rfl
  · refine ⟨b, ?_⟩
    rw [counting_of_not hto, counting_of_not (by omega), Option.bind_none, ite_self]

/-- A part between brackets. -/
theorem enclosed (hu : Counted true u depth tokens) {c d : Char} (hc : c = '[' ∨ c = '{')
    (hd : d = ']' ∨ d = '}') : Counted true (c :: (u ++ [d])) (depth + 1) (tokens + 2) := by
  intro n t hn ht
  have ha : IsAscii c := by rcases hc with rfl | rfl <;> decide
  have ha' : IsAscii d := by rcases hd with rfl | rfl <;> decide
  refine ⟨false, ?_⟩
  rw [encode_ascii_cons ha, run_cons, inside_open hc]
  by_cases hde : n + 1 ≤ maxProtobufJsonNesting
  swap
  · rw [if_neg hde, if_neg (by omega), Option.bind_none]
  rw [if_pos hde]
  by_cases hto : t + 1 ≤ maxProtobufJsonTokens
  swap
  · rw [counting_of_not hto, counting_of_not (by omega), Option.bind_none, ite_self]
  obtain ⟨b, hr⟩ := hu (n + 1) (t + 1) hde hto
  rw [counting_of_le hto, Option.bind_some, encode_append, run_append, hr]
  by_cases hd' : n + 1 + depth ≤ maxProtobufJsonNesting
  swap
  · rw [if_neg hd', if_neg (by omega), Option.bind_none]
  rw [if_pos hd', if_pos (by omega)]
  by_cases ht' : t + 1 + tokens ≤ maxProtobufJsonTokens
  swap
  · rw [counting_of_not ht', counting_of_not (by omega), Option.bind_none]
  rw [counting_of_le ht', Option.bind_some, encode_ascii_cons ha', run_cons,
    inside_close hd, show t + (tokens + 2) = t + 1 + tokens + 1 by omega, Nat.add_sub_cancel]
  cases counting true n (t + 1 + tokens + 1) false <;> rfl

end Counted

/-! ## Documents -/

theorem isScalar_literal {w : Text} (h : w ∈ literals) : w ≠ [] ∧ ∀ c ∈ w, IsScalar c := by
  revert w
  decide

theorem IsDigit.isScalar {c : Char} (h : IsDigit c) : IsScalar c := by
  have hlt : c.toNat ≤ '9'.toNat := h.2
  refine ⟨Nat.lt_of_le_of_lt hlt (by decide), fun hme => ?_⟩
  have hm : ∀ d ∈ marks, ¬ IsDigit d := by decide
  exact hm c hme h

theorem Numeral.isScalar_magnitude (n : Numeral) : ∀ c ∈ n.magnitude, IsScalar c := by
  have ho : ∀ c ∈ ['.', 'e', 'E', '+', '-'], IsScalar c := by decide
  exact fun c hc => (n.chars c hc).elim IsDigit.isScalar (ho c)

theorem Numeral.isScalar_text (n : Numeral) : n.text ≠ [] ∧ ∀ c ∈ n.text, IsScalar c := by
  rw [Numeral.text]
  split
  · refine ⟨List.cons_ne_nil _ _, List.forall_mem_cons.mpr ⟨by decide, ?_⟩⟩
    exact Numeral.isScalar_magnitude n
  · obtain ⟨d, ds, hn, -⟩ := n.exists_magnitude
    exact ⟨hn ▸ List.cons_ne_nil d ds, Numeral.isScalar_magnitude n⟩

/-- The scan counts what the grammar counts. -/
theorem Derives.counted {symbol : Symbol} {w : Text} {depth tokens : Nat}
    (h : Derives symbol w depth tokens) : Counted true w depth tokens := by
  induction h with
  | literal h => exact .scalar (isScalar_literal h).1 (isScalar_literal h).2
  | number n => exact .scalar (Numeral.isScalar_text n).1 (Numeral.isScalar_text n).2
  | string h => exact .string h
  | emptyArray h => exact (Counted.spaces h).enclosed (.inl rfl) (.inl rfl)
  | array _ ih => exact ih.enclosed (.inl rfl) (.inl rfl)
  | emptyObject h => exact (Counted.spaces h).enclosed (.inr rfl) (.inr rfl)
  | object _ ih => exact ih.enclosed (.inr rfl) (.inr rfl)
  | element ha _ hb ih => exact .after_spaces ha (ih.before_spaces hb)
  | elementCons ha _ hb _ ihv ihw =>
    have := (Counted.after_spaces ha (ihv.before_spaces hb)).separated ihw (.inl rfl)
    simpa only [List.append_assoc] using this
  | member ha hk hb hc _ hd ih =>
    have hn : Counted true _ 0 1 := .string hk
    have hke := Counted.after_spaces ha (hn.before_spaces hb)
    have := hke.separated (Counted.after_spaces hc (ih.before_spaces hd)) (.inr rfl)
    rw [Nat.zero_max, Nat.add_comm 1] at this
    simpa only [List.append_assoc] using this
  | memberCons ha hk hb hc _ hd _ ihv ihw =>
    have hn : Counted true _ 0 1 := .string hk
    have hke := Counted.after_spaces ha (hn.before_spaces hb)
    have hm := hke.separated (Counted.after_spaces hc (ihv.before_spaces hd)) (.inr rfl)
    have := hm.separated ihw (.inl rfl)
    rw [Nat.zero_max, Nat.add_comm 1] at this
    simpa only [List.append_assoc, List.cons_append] using this

/-- The first bracket of a document does not count as a level. -/
theorem run_root {c d : Char} {u : Text} {depth tokens : Nat} (hu : Counted true u depth tokens)
    (hc : c = '[' ∨ c = '{') (hd : d = ']' ∨ d = '}') :
    ∃ b, (inside false 0 0 false).run (encode (c :: (u ++ [d]))) =
      if depth ≤ maxProtobufJsonNesting then counting true 0 (tokens + 2) b else none := by
  have ha : IsAscii c := by rcases hc with rfl | rfl <;> decide
  have ha' : IsAscii d := by rcases hd with rfl | rfl <;> decide
  have hr : (inside false 0 0 false).step (ascii c) = some (inside true 0 1 false) :=
    (step_root rfl rfl hc).trans (if_pos (by decide))
  obtain ⟨b, hru⟩ := hu 0 1 (by decide) (by decide)
  refine ⟨false, ?_⟩
  rw [encode_ascii_cons ha, run_of_step hr, encode_append, run_append, hru, Nat.zero_add]
  split
  swap
  · rfl
  by_cases ht : 1 + tokens ≤ maxProtobufJsonTokens
  swap
  · rw [counting_of_not ht, counting_of_not (by omega), Option.bind_none]
  rw [counting_of_le ht, Option.bind_some, encode_ascii_cons ha', run_cons,
    inside_close hd, show tokens + 2 = 1 + tokens + 1 by omega]
  cases counting true 0 (1 + tokens + 1) false <;> rfl

/-- A value as the whole document. -/
theorem run_value {w : Text} {depth tokens : Nat} (h : Derives .value w depth tokens) :
    ∃ root b, (inside false 0 0 false).run (encode w) =
      if depth ≤ maxProtobufJsonNesting + 1 then counting root 0 tokens b else none := by
  have flat : ∀ {w : Text}, Counted false w 0 1 → ∃ root b,
      (inside false 0 0 false).run (encode w) =
        if 0 ≤ maxProtobufJsonNesting + 1 then counting root 0 1 b else none := by
    intro w hw
    obtain ⟨b, hr⟩ := hw 0 0 (by decide) (by decide)
    exact ⟨false, b, hr⟩
  have nested : ∀ {u : Text} {depth tokens : Nat} {c d : Char}, Counted true u depth tokens →
      (c = '[' ∨ c = '{') → (d = ']' ∨ d = '}') → ∃ root b,
      (inside false 0 0 false).run (encode (c :: (u ++ [d]))) =
        if depth + 1 ≤ maxProtobufJsonNesting + 1 then counting root 0 (tokens + 2) b else none := by
    intro u depth tokens c d hu hc hd
    obtain ⟨b, hr⟩ := run_root hu hc hd
    exact ⟨true, b, hr.trans (if_congr Nat.succ_le_succ_iff.symm rfl rfl)⟩
  cases h with
  | literal h => exact flat (.scalar (isScalar_literal h).1 (isScalar_literal h).2)
  | number n => exact flat (.scalar (Numeral.isScalar_text n).1 (Numeral.isScalar_text n).2)
  | string h => exact flat (.string h)
  | emptyArray h => exact nested (.spaces h) (.inl rfl) (.inl rfl)
  | array h => exact nested (Derives.counted h) (.inl rfl) (.inl rfl)
  | emptyObject h => exact nested (.spaces h) (.inr rfl) (.inr rfl)
  | object h => exact nested (Derives.counted h) (.inr rfl) (.inr rfl)

/-- The documents that the scan admits. -/
theorem validateJsonAdmission_document {text : Text} {depth tokens : Nat}
    (h : Document text depth tokens) : validateJsonAdmission text = .ok () ↔
      depth ≤ maxProtobufJsonNesting + 1 ∧ tokens ≤ maxProtobufJsonTokens := by
  obtain ⟨a, v, b, ha, hv, hb, rfl⟩ := h
  obtain ⟨c, hs, hc⟩ := inside_spaces ha false 0 0 false
  obtain rfl := hc rfl
  obtain ⟨root, c, hr⟩ := run_value hv
  rw [validateJsonAdmission_eq_ok_iff]
  change ((inside false 0 0 false).run _).isSome = true ↔ _
  rw [encode_append, run_append, hs, Option.bind_some, encode_append, run_append, hr]
  by_cases hd : depth ≤ maxProtobufJsonNesting + 1
  swap
  · rw [if_neg hd]
    exact iff_of_false Bool.false_ne_true fun h => hd h.1
  rw [if_pos hd]
  by_cases ht : tokens ≤ maxProtobufJsonTokens
  swap
  · rw [counting_of_not ht]
    exact iff_of_false Bool.false_ne_true fun h => ht h.2
  obtain ⟨c', hr', -⟩ := inside_spaces hb root 0 tokens c
  rw [counting_of_le ht, Option.bind_some, hr']
  exact iff_of_true rfl ⟨hd, ht⟩

end RustTron.Apis.Json
