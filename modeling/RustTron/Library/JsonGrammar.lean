import Mathlib

/-!
# The grammar of JSON

The texts of RFC 8259. A derivation counts two things: how deep the brackets of the text nest, and
how many tokens it has, which are its brackets, strings, numbers and literals.

## Main definitions

* `Rfc8259.IsString`, `Rfc8259.Numeral`: strings and numbers
* `Rfc8259.Derives`: values, and the contents of arrays and objects
* `Rfc8259.Document`: a text with its depth and its tokens
* `Rfc8259.Ends`: what may stand after a value

## Main results

* `Rfc8259.Derives.value_head`: what a value may start with
-/

namespace Rfc8259

/-- What holds of all characters of a text is decided character by character. -/
abbrev decidableForallMem (p : Char → Prop) [DecidablePred p] (w : List Char) :
    Decidable (∀ c ∈ w, p c) := List.decidableBAll p w

attribute [local instance] decidableForallMem

/-- White space. -/
def IsSpace (c : Char) : Prop := c ∈ [' ', '\t', '\n', '\r']

instance (c : Char) : Decidable (IsSpace c) :=
  inferInstanceAs (Decidable (c ∈ [' ', '\t', '\n', '\r']))

/-- Some white space. -/
def Spaces (w : List Char) : Prop := ∀ c ∈ w, IsSpace c

instance (w : List Char) : Decidable (Spaces w) := decidableForallMem IsSpace w

/-- A decimal digit. -/
def IsDigit (c : Char) : Prop := '0'.toNat ≤ c.toNat ∧ c.toNat ≤ '9'.toNat

instance (c : Char) : Decidable (IsDigit c) := inferInstanceAs (Decidable (_ ∧ _))

/-- A hexadecimal digit. -/
def IsHexDigit (c : Char) : Prop :=
  IsDigit c ∨ ('a'.toNat ≤ c.toNat ∧ c.toNat ≤ 'f'.toNat) ∨ ('A'.toNat ≤ c.toNat ∧ c.toNat ≤ 'F'.toNat)

instance (c : Char) : Decidable (IsHexDigit c) := inferInstanceAs (Decidable (_ ∨ _ ∨ _))

/-! ## Strings -/

/-- A character that stands for itself in a string. -/
def IsPlain (c : Char) : Prop := 0x20 ≤ c.toNat ∧ c ≠ '"' ∧ c ≠ '\\'

theorem IsHexDigit.isPlain {c : Char} (h : IsHexDigit c) : IsPlain c := by
  refine ⟨?_, ?_, ?_⟩
  · simp only [IsHexDigit, IsDigit, Char.reduceToNat] at h
    omega
  · rintro rfl
    exact absurd h (by decide)
  · rintro rfl
    exact absurd h (by decide)

/-- What stands between the quotes of a string. -/
inductive Body : List Char → Prop
  | nil : Body []
  | plain {c : Char} {t : List Char} (hc : IsPlain c) (ht : Body t) : Body (c :: t)
  | escape {c : Char} {t : List Char} (hc : c ∈ ['"', '\\', '/', 'b', 'f', 'n', 'r', 't'])
      (ht : Body t) : Body ('\\' :: c :: t)
  | unicode {digits t : List Char} (hlength : digits.length = 4)
      (hdigits : ∀ d ∈ digits, IsHexDigit d) (ht : Body t) : Body ('\\' :: 'u' :: (digits ++ t))

/-- A string with its quotes. -/
def IsString (w : List Char) : Prop := ∃ body, Body body ∧ w = '"' :: (body ++ ['"'])

/-! ## Numbers -/

/-- Some digits. -/
def Digits (w : List Char) : Prop := w ≠ [] ∧ ∀ d ∈ w, IsDigit d

/-- The whole part of a number: zero, or digits of which the first is not zero. -/
def Whole (w : List Char) : Prop := w = ['0'] ∨ (Digits w ∧ w.head? ≠ some '0')

/-- The fraction of a number, if there is one. -/
def Fraction (w : List Char) : Prop := w = [] ∨ ∃ ds, Digits ds ∧ w = '.' :: ds

/-- The exponent of a number, if there is one. -/
def Exponent (w : List Char) : Prop :=
  w = [] ∨ ∃ e sign ds, e ∈ ['e', 'E'] ∧ sign ∈ [[], ['+'], ['-']] ∧ Digits ds ∧ w = e :: (sign ++ ds)

/-- A number. -/
structure Numeral where
  /-- the sign is there -/
  minus : Bool
  whole : List Char
  fraction : List Char
  exponent : List Char
  whole_ok : Whole whole
  fraction_ok : Fraction fraction
  exponent_ok : Exponent exponent

/-- The number without its sign. -/
def Numeral.magnitude (n : Numeral) : List Char := n.whole ++ (n.fraction ++ n.exponent)

/-- The number as it is written. -/
def Numeral.text (n : Numeral) : List Char := if n.minus then '-' :: n.magnitude else n.magnitude

/-- The characters of a number. -/
theorem Numeral.chars (n : Numeral) :
    ∀ c ∈ n.magnitude, IsDigit c ∨ c ∈ ['.', 'e', 'E', '+', '-'] := by
  have hl : ∀ e ∈ ['e', 'E'], e ∈ ['.', 'e', 'E', '+', '-'] := by decide
  have hs : ∀ sign ∈ [[], ['+'], ['-']], ∀ c ∈ sign, c ∈ ['.', 'e', 'E', '+', '-'] := by decide
  intro c hc
  rw [Numeral.magnitude, List.mem_append, List.mem_append] at hc
  rcases hc with hc | hc | hc
  · rcases n.whole_ok with h | ⟨h, -⟩
    · rw [h, List.mem_singleton] at hc
      exact .inl (hc ▸ by decide)
    · exact .inl (h.2 c hc)
  · rcases n.fraction_ok with h | ⟨ds, hds, h⟩ <;> rw [h] at hc
    · cases hc
    · rcases List.mem_cons.mp hc with rfl | hc
      · exact .inr List.mem_cons_self
      · exact .inl (hds.2 c hc)
  · rcases n.exponent_ok with h | ⟨e, sign, ds, he, hsi, hds, h⟩ <;> rw [h] at hc
    · cases hc
    · rcases List.mem_cons.mp hc with rfl | hc
      · exact .inr (hl c he)
      · rcases List.mem_append.mp hc with hc | hc
        · exact .inr (hs sign hsi c hc)
        · exact .inl (hds.2 c hc)

/-! ## Values -/

/-- The literals. -/
def literals : List (List Char) :=
  [['n', 'u', 'l', 'l'], ['t', 'r', 'u', 'e'], ['f', 'a', 'l', 's', 'e']]

/-- What a part of a text is. -/
inductive Symbol where
  | value
  /-- what stands between the brackets of an array that is not empty -/
  | elements
  /-- what stands between the braces of an object that is not empty -/
  | members

/-- The text is such a part of a document, with brackets of this depth and with so many tokens. -/
inductive Derives : Symbol → List Char → Nat → Nat → Prop
  | literal {w : List Char} (h : w ∈ literals) : Derives .value w 0 1
  | number (n : Numeral) : Derives .value n.text 0 1
  | string {w : List Char} (h : IsString w) : Derives .value w 0 1
  | emptyArray {w : List Char} (h : Spaces w) : Derives .value ('[' :: (w ++ [']'])) 1 2
  | array {w : List Char} {depth tokens : Nat} (h : Derives .elements w depth tokens) :
      Derives .value ('[' :: (w ++ [']'])) (depth + 1) (tokens + 2)
  | emptyObject {w : List Char} (h : Spaces w) : Derives .value ('{' :: (w ++ ['}'])) 1 2
  | object {w : List Char} {depth tokens : Nat} (h : Derives .members w depth tokens) :
      Derives .value ('{' :: (w ++ ['}'])) (depth + 1) (tokens + 2)
  | element {a v b : List Char} {depth tokens : Nat} (ha : Spaces a)
      (hv : Derives .value v depth tokens) (hb : Spaces b) :
      Derives .elements (a ++ (v ++ b)) depth tokens
  | elementCons {a v b w : List Char} {depth tokens depth' tokens' : Nat} (ha : Spaces a)
      (hv : Derives .value v depth tokens) (hb : Spaces b)
      (hw : Derives .elements w depth' tokens') :
      Derives .elements (a ++ (v ++ (b ++ ',' :: w))) (max depth depth') (tokens + tokens')
  | member {a k b c v d : List Char} {depth tokens : Nat} (ha : Spaces a) (hk : IsString k)
      (hb : Spaces b) (hc : Spaces c) (hv : Derives .value v depth tokens) (hd : Spaces d) :
      Derives .members (a ++ (k ++ (b ++ ':' :: (c ++ (v ++ d))))) depth (tokens + 1)
  | memberCons {a k b c v d w : List Char} {depth tokens depth' tokens' : Nat} (ha : Spaces a)
      (hk : IsString k) (hb : Spaces b) (hc : Spaces c) (hv : Derives .value v depth tokens)
      (hd : Spaces d) (hw : Derives .members w depth' tokens') :
      Derives .members (a ++ (k ++ (b ++ ':' :: (c ++ (v ++ (d ++ ',' :: w))))))
        (max depth depth') (tokens + 1 + tokens')

/-- A document: a value between white space. -/
def Document (text : List Char) (depth tokens : Nat) : Prop :=
  ∃ a v b, Spaces a ∧ Derives .value v depth tokens ∧ Spaces b ∧ text = a ++ (v ++ b)

/-- What may stand after a value: white space, and then a comma, a closing bracket or nothing. -/
def Ends (rest : List Char) : Prop :=
  ∃ w tail, Spaces w ∧ rest = w ++ tail ∧ (tail = [] ∨ ∃ c t, c ∈ [',', ']', '}'] ∧ tail = c :: t)

/-! ## How texts start -/

/-- What a value may start with. -/
def starts : List Char :=
  ['n', 't', 'f', '"', '[', '{', '-', '0', '1', '2', '3', '4', '5', '6', '7', '8', '9']

theorem IsDigit.mem_starts {c : Char} (h : IsDigit c) : c ∈ starts := by
  have hle : '0'.toNat ≤ c.toNat := h.1
  have hge : c.toNat ≤ '9'.toNat := h.2
  rw [← Char.ofNat_toNat c]
  generalize c.toNat = n at hle hge
  simp only [Char.reduceToNat] at hle hge
  interval_cases n <;> decide

theorem Digits.exists_cons {w : List Char} (h : Digits w) : ∃ d ds, w = d :: ds ∧ IsDigit d := by
  obtain ⟨d, ds, rfl⟩ := List.exists_cons_of_ne_nil h.1
  exact ⟨d, ds, rfl, h.2 d List.mem_cons_self⟩

theorem Numeral.exists_magnitude (n : Numeral) : ∃ d ds, n.magnitude = d :: ds ∧ IsDigit d := by
  rcases n.whole_ok with h | ⟨h, -⟩
  · exact ⟨'0', _, by rw [Numeral.magnitude, h]; rfl, by decide⟩
  · obtain ⟨d, ds, hw, hd⟩ := Digits.exists_cons h
    exact ⟨d, _, by rw [Numeral.magnitude, hw]; rfl, hd⟩

theorem Derives.value_head {w : List Char} {depth tokens : Nat}
    (h : Derives .value w depth tokens) : ∃ c t, w = c :: t ∧ c ∈ starts := by
  cases h with
  | literal h =>
    simp only [literals, List.mem_cons, List.not_mem_nil, or_false] at h
    rcases h with rfl | rfl | rfl <;> exact ⟨_, _, rfl, by decide⟩
  | number n =>
    obtain ⟨d, ds, hn, hd⟩ := n.exists_magnitude
    rw [Numeral.text, hn]
    split
    · exact ⟨_, _, rfl, by decide⟩
    · exact ⟨d, ds, rfl, IsDigit.mem_starts hd⟩
  | string h =>
    obtain ⟨body, -, rfl⟩ := h
    exact ⟨_, _, rfl, by decide⟩
  | emptyArray => exact ⟨_, _, rfl, by decide⟩
  | array => exact ⟨_, _, rfl, by decide⟩
  | emptyObject => exact ⟨_, _, rfl, by decide⟩
  | object => exact ⟨_, _, rfl, by decide⟩

/-- White space and then what a value may start with. -/
def Opens (w : List Char) : Prop := ∃ a c t, Spaces a ∧ w = a ++ c :: t ∧ c ∈ starts

theorem Opens.append {w : List Char} (h : Opens w) (rest : List Char) : Opens (w ++ rest) := by
  obtain ⟨a, c, t, ha, rfl, hc⟩ := h
  exact ⟨a, c, t ++ rest, ha, by rw [List.append_assoc, List.cons_append], hc⟩

theorem Derives.opens {symbol : Symbol} {w : List Char} {depth tokens : Nat}
    (h : Derives symbol w depth tokens) : Opens w := by
  have key : ∀ {k : List Char}, IsString k → ∃ t, k = '"' :: t := fun ⟨_, _, hk⟩ => ⟨_, hk⟩
  cases symbol with
  | value =>
    obtain ⟨c, t, rfl, hc⟩ := h.value_head
    exact ⟨[], c, t, fun _ h => absurd h List.not_mem_nil, rfl, hc⟩
  | elements =>
    cases h with
    | @element a v b _ _ ha hv hb =>
      obtain ⟨c, t, rfl, hc⟩ := hv.value_head
      exact ⟨a, c, t ++ b, ha, rfl, hc⟩
    | @elementCons a v b w _ _ _ _ ha hv hb hw =>
      obtain ⟨c, t, rfl, hc⟩ := hv.value_head
      exact ⟨a, c, _, ha, rfl, hc⟩
  | members =>
    cases h with
    | @member a k b c v d _ _ ha hk =>
      obtain ⟨t, rfl⟩ := key hk
      exact ⟨a, '"', _, ha, rfl, by decide⟩
    | @memberCons a k b c v d w _ _ _ _ ha hk =>
      obtain ⟨t, rfl⟩ := key hk
      exact ⟨a, '"', _, ha, rfl, by decide⟩

end Rfc8259
