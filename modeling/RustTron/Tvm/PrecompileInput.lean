import RustTron.Library.Abi
import RustTron.Primitives.Usize
import RustTron.Tvm.ShieldedFrontier

/-!
# The input of precompiled contracts

The contracts that check signatures, and the one that checks shielded transfers, read arrays from
their input: an offset from the head, a count at the offset, and then the elements, which may be
offsets again. All of these are numbers that a caller makes up. Sums and products are those of the
source, checked where it checks them; where it does not, one beyond 64 bits is an overflow: the
debug build panics there, the release build goes on with the sum wrapped around, and the model stops
at the fault in either case.

## Main definitions

* `Decoded`: what a decoder comes to: a value, a refusal, or a fault
* `word`, `uint`, `int`, `address`, `bytesArray`, `fixedArray`: the decoders of signatures
* `wordU64`, `countAt`, `sliceItems`, `transferParts`: the decoders of shielded transfers
* `fieldAt`, `entryAt`: the number in a word, and an element of an array, without overflows

## Main results

* `uint_eq`, `bytesEntry_eq`: what is read, and where the sums overflow
-/

namespace RustTron.Tvm.Precompile

/-! ## Results of decoders -/

/-- What a decoder runs into: a sum or product beyond 64 bits, or a slice out of range. -/
inductive Fault where
  | overflow
  | outOfRange
  deriving DecidableEq, Repr

/-- What a decoder comes to. -/
inductive Decoded (α : Type) where
  | value (a : α)
  | refused
  | fault (p : Fault)
  deriving DecidableEq, Repr

namespace Decoded

variable {α β : Type}

protected def bind (x : Decoded α) (f : α → Decoded β) : Decoded β :=
  match x with
  | value a => f a
  | refused => refused
  | fault p => fault p

instance : Monad Decoded where
  pure := value
  bind := Decoded.bind

/-- `?` on an `Option`. -/
def ofOption : Option α → Decoded α
  | some a => value a
  | none => refused

/-- A refusal is handed over. -/
def attempt : Decoded α → Decoded (Option α)
  | value a => value (some a)
  | refused => value none
  | fault p => fault p

/-- Refuse under a condition. -/
def refuseIf (p : Prop) [Decidable p] : Decoded Unit := if p then refused else value ()

/-- The decoder runs into a fault. -/
def Faults (x : Decoded α) : Prop := ∃ p, x = fault p

theorem not_faults_value (a : α) : ¬ (value a).Faults := by
  rintro ⟨p, h⟩
  cases h

theorem not_faults_refused : ¬ (refused : Decoded α).Faults := by
  rintro ⟨p, h⟩
  cases h

theorem value_bind (a : α) (f : α → Decoded β) : (value a >>= f) = f a := rfl

theorem fault_bind (p : Fault) (f : α → Decoded β) : ((fault p : Decoded α) >>= f) = fault p := rfl

theorem pure_bind (a : α) (f : α → Decoded β) : ((pure a : Decoded α) >>= f) = f a := rfl

theorem ofOption_some_bind (a : α) (f : α → Decoded β) : (ofOption (some a) >>= f) = f a := rfl

theorem refuseIf_pos_bind {p : Prop} [Decidable p] (h : p) (f : Unit → Decoded β) :
    (refuseIf p >>= f) = refused := by
  rw [refuseIf, if_pos h]
  rfl

theorem refuseIf_neg_bind {p : Prop} [Decidable p] (h : ¬ p) (f : Unit → Decoded β) :
    (refuseIf p >>= f) = f () := by
  rw [refuseIf, if_neg h]
  rfl

theorem not_faults_ofOption (x : Option α) : ¬ (ofOption x).Faults := by
  rintro ⟨p, h⟩
  cases x <;> cases h

end Decoded

open Decoded

/-! ## Arithmetic of a `usize` -/

/-- `+`. -/
def add (a b : Nat) : Decoded Nat := if a + b ≤ usizeMax then .value (a + b) else .fault .overflow

/-- `*`. -/
def mul (a b : Nat) : Decoded Nat := if a * b ≤ usizeMax then .value (a * b) else .fault .overflow

def checkedAdd (a b : Nat) : Decoded Nat := if a + b ≤ usizeMax then .value (a + b) else .refused

def checkedMul (a b : Nat) : Decoded Nat := if a * b ≤ usizeMax then .value (a * b) else .refused

/-- `get` of a range. -/
def get (i : Bytes) (start stop : Nat) : Decoded Bytes :=
  if start ≤ stop ∧ stop ≤ i.length then .value ((i.drop start).take (stop - start)) else .refused

/-- A slice of a range. -/
def slice (i : Bytes) (start stop : Nat) : Decoded Bytes :=
  if start ≤ stop ∧ stop ≤ i.length then .value ((i.drop start).take (stop - start))
  else .fault .outOfRange

/-! ## Signatures -/

def word (i : Bytes) (n : Nat) : Decoded Bytes := do
  let start ← mul n 32
  let offset ← mul n 32
  let stop ← add offset 32
  get i start stop

def uint (i : Bytes) (n : Nat) : Decoded Nat := do
  let w ← word i n
  refuseIf (∃ b ∈ w.take 24, b ≠ 0)
  pure (natOfBe (w.drop 24))

def int (i : Bytes) (n : Nat) : Decoded Int := do
  let w ← word i n
  ofOption (fromBe64 (w.drop 24))

def address (i : Bytes) (n : Nat) : Decoded Bytes := do
  let w ← word i n
  pure (0x41 :: w.drop 12)

/-- The check of the zeros after an element that ends at `stop`. -/
def checkPadding (i : Bytes) (stop : Nat) : Decoded Unit := do
  let rounded ← checkedAdd stop 31
  let padded ← mul (rounded / 32) 32
  refuseIf (padded > i.length)
  let rest ← slice i stop padded
  refuseIf (∃ b ∈ rest, b ≠ 0)

/-- The bytes of an element whose length is at `p`. -/
def bytesContent (i : Bytes) (strict : Bool) (p : Nat) : Decoded Bytes := do
  let len ← uint i (p / 32)
  let start ← add p 32
  let stop ← checkedAdd start len
  refuseIf (stop > i.length)
  if strict then checkPadding i stop else pure ()
  slice i start stop

/-- An element of `bytes_array`, whose count is at `base`. -/
def bytesEntry (i : Bytes) (base : Nat) (strict : Bool) (n : Nat) : Decoded Bytes := do
  let index ← add (base / 32) 1
  let index ← add index n
  let rel ← uint i index
  let p ← checkedAdd base rel
  refuseIf (p % 32 ≠ 0)
  let after ← add p 32
  refuseIf (after > i.length)
  bytesContent i strict p

/-- The elements of an array from the `n`-th on, of which so many are left. -/
def entries (entry : Nat → Decoded Bytes) : Nat → Nat → Decoded (List Bytes)
  | 0, _ => pure []
  | left + 1, n => do
    let b ← entry n
    let bs ← entries entry left (n + 1)
    pure (b :: bs)

def bytesArray (i : Bytes) (head max : Nat) (strict : Bool) : Decoded (List Bytes) := do
  let off ← uint i head
  refuseIf (off % 32 ≠ 0 ∨ off / 32 ≥ i.length / 32)
  let count ← uint i (off / 32)
  refuseIf (count > max)
  let table ← checkedAdd off 32
  let size ← checkedMul count 32
  let table ← checkedAdd table size
  refuseIf (table > i.length)
  entries (bytesEntry i off strict) count 0

/-- An element of `fixed_array`. -/
def fixedEntry (i : Bytes) (off n : Nat) : Decoded Bytes := do
  let index ← add (off / 32) 1
  let index ← add index n
  word i index

def fixedArray (i : Bytes) (head max : Nat) : Decoded (List Bytes) := do
  let off ← uint i head
  refuseIf (off % 32 ≠ 0)
  let count ← uint i (off / 32)
  refuseIf (count > max)
  entries (fixedEntry i off) count 0

/-! ## Shielded transfers -/

/-- `word_u64`, and with it `word_usize`. -/
def wordU64 (data : Bytes) (offset : Nat) : Decoded Nat := do
  let stop ← add offset 32
  let w ← get data offset stop
  refuseIf (∃ b ∈ w.take 24, b ≠ 0)
  pure (natOfBe (w.drop 24))

def wordI64 (data : Bytes) (offset : Nat) : Decoded Nat := do
  let v ← wordU64 data offset
  refuseIf ((v : Int) > i64Max)
  pure v

def countAt (data : Bytes) (offset : Nat) : Decoded Nat := wordU64 data offset

/-- `slice_items`: the range is cut into pieces of one size. -/
def sliceItems (data : Bytes) (offset count size : Nat) : Decoded (List Bytes) := do
  let total ← checkedMul count size
  let stop ← checkedAdd offset total
  let all ← get data offset stop
  pure ((List.range (all.length / size)).map fun k => (all.drop (k * size)).take size)

/-- What `transfer` has read when its checks begin. -/
structure TransferParts where
  spends : List Bytes
  sigs : List Bytes
  outputs : List Bytes
  value : Nat
  leafCount : Nat
  deriving DecidableEq

/-- The lengths that the input of `transfer` may have. -/
def transferLengths : List Nat := [2080, 2368, 2464, 2752]

/-- The first part of `transfer`. The three counts are read before any of them is looked at. -/
def transferParts (data : Bytes) : Decoded TransferParts := do
  refuseIf (data.length ∉ transferLengths)
  let spendOff ← wordU64 data 0
  let sigOff ← wordU64 data 32
  let receiveOff ← wordU64 data 64
  let value ← wordI64 data 192
  let leafCount ← wordU64 data 1280
  let sc ← attempt (countAt data spendOff)
  let sigc ← attempt (countAt data sigOff)
  let rc ← attempt (countAt data receiveOff)
  let sc ← ofOption sc
  let sigc ← ofOption sigc
  let rc ← ofOption rc
  refuseIf (sc ≠ sigc ∨ ¬ (1 ≤ sc ∧ sc ≤ 2) ∨ ¬ (1 ≤ rc ∧ rc ≤ 2))
  let frontierBytes ← slice data 224 1280
  refuseIf (frontierFits frontierBytes leafCount rc = false)
  let spendItems ← checkedAdd spendOff 32
  let sigItems ← checkedAdd sigOff 32
  let receiveItems ← checkedAdd receiveOff 32
  let spends ← sliceItems data spendItems sc 320
  let sigs ← sliceItems data sigItems sigc 64
  let outputs ← sliceItems data receiveItems rc 288
  pure { spends, sigs, outputs, value, leafCount }

/-! ## What is read -/

/-- The longest slice that there is: `isize::MAX`. -/
def isizeMax : Nat := 9223372036854775807

/-- The number in a word, if it has no more than 64 bits. -/
def fieldAt (i : Bytes) (pos : Nat) : Option Nat := (Abi.numberAt i pos).filter (· ≤ usizeMax)

/-- The last word of the address space. -/
def lastWord : Nat := usizeMax - 31

/-- The end of the last word that a byte string reaches into. -/
def paddedEnd (stop : Nat) : Nat := (stop + 31) / 32 * 32

/-- The bytes up to the end of the word are there, and zero. -/
def Padded (i : Bytes) (stop : Nat) : Prop :=
  paddedEnd stop ≤ i.length ∧ ∀ b ∈ (i.drop stop).take (paddedEnd stop - stop), b = 0

instance (i : Bytes) (stop : Nat) : Decidable (Padded i stop) := inferInstanceAs (Decidable (_ ∧ _))

/-- The bytes of an element, if they lie within the input. -/
def contentAt (i : Bytes) (strict : Bool) (p : Nat) : Option Bytes := do
  let len ← fieldAt i p
  if p + 32 + len ≤ i.length ∧ (strict = true → Padded i (p + 32 + len)) then
    some ((i.drop (p + 32)).take len)
  else none

/-- The `n`-th element of an array of byte strings whose count is at `base`, without overflows. -/
def entryAt (i : Bytes) (base : Nat) (strict : Bool) (n : Nat) : Option Bytes := do
  let rel ← fieldAt i (base + 32 + 32 * n)
  if (base + rel) % 32 = 0 ∧ base + rel + 32 ≤ i.length then contentAt i strict (base + rel)
  else none

section

variable {i : Bytes} {n : Nat}

theorem word_eq (i : Bytes) (h : n * 32 + 32 ≤ usizeMax) : word i n =
    if 32 * n + 32 ≤ i.length then .value ((i.drop (32 * n)).take 32) else .refused := by
  have hm : n * 32 ≤ usizeMax := by omega
  have hs : n * 32 + 32 - n * 32 = 32 := by omega
  rw [word, mul, if_pos hm, value_bind, value_bind, add, if_pos h, value_bind, get, hs,
    Nat.mul_comm 32 n]
  exact if_congr (by omega) rfl rfl

theorem word_overflow (i : Bytes) (h : usizeMax < n * 32 + 32) : word i n = .fault .overflow := by
  rw [word, mul]
  split
  · rw [value_bind, value_bind, add, if_neg (by omega)]
    rfl
  · rfl

theorem low_eq_field {w : Bytes} (hw : w.length = 32) :
    (if ∃ b ∈ w.take 24, b ≠ 0 then none else some (natOfBe (w.drop 24))) =
      (some (natOfBe w)).filter (· ≤ usizeMax) := by
  have hs : natOfBe w = natOfBe (w.take 24 ++ w.drop 24) := by rw [List.take_append_drop]
  have hl : (w.drop 24).length = 8 := by rw [List.length_drop, hw]
  have hi := Abi.natOfBe_append_lt_iff (w.take 24) (w.drop 24)
  rw [← hs, hl] at hi
  have hf : natOfBe w ≤ usizeMax ↔ ∀ b ∈ w.take 24, b = 0 := by
    rw [← hi]
    exact Nat.lt_succ_iff.symm
  by_cases hz : ∀ b ∈ w.take 24, b = 0
  · have hn : natOfBe w = natOfBe (w.drop 24) := by
      rw [hs, Abi.natOfBe_append, (Abi.natOfBe_eq_zero_iff _).mpr hz, Nat.zero_mul,
        Nat.zero_add]
    rw [if_neg (by simpa using hz), Option.filter_some, decide_eq_true (hf.mpr hz),
      if_pos rfl, hn]
  · rw [if_pos (by simpa using hz), Option.filter_some,
      decide_eq_false (fun hle => hz (hf.mp hle))]
    rfl

theorem refuse_low {w : Bytes} (hw : w.length = 32) :
    (do
      refuseIf (∃ b ∈ w.take 24, b ≠ 0)
      pure (natOfBe (w.drop 24)) : Decoded Nat) =
        ofOption ((some (natOfBe w)).filter (· ≤ usizeMax)) := by
  rw [← low_eq_field hw]
  split
  · next h => rw [refuseIf_pos_bind h]; rfl
  · next h => rw [refuseIf_neg_bind h]; rfl

/-- **What `uint` reads**, at an index that does not overflow. -/
theorem uint_eq (i : Bytes) (h : n * 32 + 32 ≤ usizeMax) :
    uint i n = ofOption (fieldAt i (32 * n)) := by
  rw [uint, word_eq i h, fieldAt, Abi.numberAt]
  split
  · next hl =>
    rw [value_bind]
    exact refuse_low (by rw [List.length_take, List.length_drop]; omega)
  · rfl

theorem uint_overflow (i : Bytes) (h : usizeMax < n * 32 + 32) : uint i n = .fault .overflow := by
  rw [uint, word_overflow i h]
  rfl

/-- **What `word_u64` reads**, at an offset that does not overflow. -/
theorem wordU64_eq (i : Bytes) (h : n + 32 ≤ usizeMax) : wordU64 i n = ofOption (fieldAt i n) := by
  have hs : n + 32 - n = 32 := by omega
  rw [wordU64, add, if_pos h, value_bind, get, hs, fieldAt, Abi.numberAt]
  by_cases hl : n + 32 ≤ i.length
  · rw [if_pos ⟨by omega, hl⟩, if_pos hl, value_bind]
    exact refuse_low (by rw [List.length_take, List.length_drop]; omega)
  · rw [if_neg (fun hr => hl hr.2), if_neg hl]
    rfl

theorem wordU64_overflow (i : Bytes) (h : usizeMax < n + 32) : wordU64 i n = .fault .overflow := by
  rw [wordU64, add, if_neg (by omega)]
  rfl

theorem fieldAt_le {pos v : Nat} (h : fieldAt i pos = some v) : v ≤ usizeMax := by
  obtain ⟨-, hle⟩ := Option.filter_eq_some_iff.mp h
  exact of_decide_eq_true hle

theorem within_of_fieldAt {pos v : Nat} (h : fieldAt i pos = some v) : pos + 32 ≤ i.length := by
  obtain ⟨hn, -⟩ := Option.filter_eq_some_iff.mp h
  unfold Abi.numberAt at hn
  split at hn
  · assumption
  · cases hn

/-! ## Arrays of byte strings -/

theorem slice_eq {start stop : Nat} (h : start ≤ stop) (h' : stop ≤ i.length) :
    slice i start stop = .value ((i.drop start).take (stop - start)) := if_pos ⟨h, h'⟩

theorem checkPadding_eq (hi : i.length ≤ isizeMax) {stop : Nat} (hs : stop ≤ i.length) :
    checkPadding i stop = refuseIf (¬ Padded i stop) := by
  have hm : isizeMax + 31 ≤ usizeMax := by decide
  have hr : checkedAdd stop 31 = .value (stop + 31) := if_pos (by omega)
  have hp : mul ((stop + 31) / 32) 32 = .value (paddedEnd stop) :=
    if_pos (by omega)
  rw [checkPadding, hr, value_bind, hp, value_bind]
  by_cases he : paddedEnd stop > i.length
  · rw [refuseIf_pos_bind he, refuseIf, if_pos fun h => Nat.not_lt.mpr h.1 he]
  · have hle : stop ≤ paddedEnd stop := by
      unfold paddedEnd
      omega
    rw [refuseIf_neg_bind he, slice_eq hle (Nat.not_lt.mp he), value_bind]
    refine if_congr ?_ rfl rfl
    rw [Padded, not_and, Nat.not_lt.symm]
    simp [he]

theorem bytesContent_eq (hi : i.length ≤ isizeMax) (strict : Bool) {p : Nat} (hp : p % 32 = 0)
    (hl : p + 32 ≤ i.length) : bytesContent i strict p = ofOption (contentAt i strict p) := by
  have hm : isizeMax + 63 ≤ usizeMax := by decide
  have hin : 32 * (p / 32) = p := by omega
  rw [bytesContent, uint_eq i (by omega), hin, contentAt]
  cases hle : fieldAt i p with
  | none => rfl
  | some len =>
    have hst : add p 32 = .value (p + 32) := if_pos (by omega)
    rw [ofOption, value_bind, hst, value_bind, Option.bind_eq_bind, Option.bind_some]
    by_cases hs : p + 32 + len ≤ i.length
    swap
    · rw [if_neg fun h => hs h.1, checkedAdd]
      split
      · rw [value_bind, refuseIf_pos_bind (Nat.not_le.mp hs)]
        rfl
      · rfl
    have hf : p + 32 + len ≤ usizeMax := by omega
    have hsl : slice i (p + 32) (p + 32 + len) = .value ((i.drop (p + 32)).take len) := by
      rw [slice_eq (by omega) hs, Nat.add_sub_cancel_left]
    rw [checkedAdd, if_pos hf, value_bind, refuseIf_neg_bind (Nat.not_lt.mpr hs), hsl]
    cases strict with
    | false => rw [if_neg Bool.false_ne_true, if_pos ⟨hs, fun h => nomatch h⟩]; rfl
    | true =>
      rw [if_pos rfl, checkPadding_eq hi hs]
      by_cases hpa : Padded i (p + 32 + len)
      · rw [refuseIf_neg_bind (not_not_intro hpa), if_pos ⟨hs, fun _ => hpa⟩]
        rfl
      · rw [refuseIf_pos_bind hpa, if_neg fun h => hpa (h.2 rfl)]
        rfl

/-- The offset of the `n`-th element, added to the position of the count, is the last word of the
address space: the sum of this with 32 has no room in 64 bits. -/
def Overflows (i : Bytes) (base n : Nat) : Prop :=
  fieldAt i (base + 32 + 32 * n) = some (lastWord - base)

instance (i : Bytes) (base n : Nat) : Decidable (Overflows i base n) :=
  inferInstanceAs (Decidable (_ = _))

/-- **What an element is read as**, where its offset is within the input. -/
theorem bytesEntry_eq (hi : i.length ≤ isizeMax) (strict : Bool) {base : Nat} (hb : base % 32 = 0)
    (hof : base + 32 + 32 * n + 32 ≤ i.length) : bytesEntry i base strict n =
      if Overflows i base n then .fault .overflow else ofOption (entryAt i base strict n) := by
  have hm : isizeMax + 63 ≤ lastWord := by decide
  have hla : lastWord + 31 = usizeMax := by decide
  have hmo : lastWord % 32 = 0 := by decide
  have hf : add (base / 32) 1 = .value (base / 32 + 1) := if_pos (by omega)
  have hin : add (base / 32 + 1) n = .value (base / 32 + 1 + n) := if_pos (by omega)
  have hp : 32 * (base / 32 + 1 + n) = base + 32 + 32 * n := by omega
  have hif : ∀ {rel}, fieldAt i (base + 32 + 32 * n) = some rel →
      (Overflows i base n ↔ base + rel = lastWord) := by
    intro rel hr
    rw [Overflows, hr, Option.some.injEq]
    omega
  rw [bytesEntry, hf, value_bind, hin, value_bind, uint_eq i (by omega), hp, entryAt]
  cases hr : fieldAt i (base + 32 + 32 * n) with
  | none =>
    have hn : ¬ Overflows i base n := by
      rw [Overflows, hr]
      exact nofun
    rw [if_neg hn]
    rfl
  | some rel =>
    have hle := fieldAt_le hr
    rw [ofOption, value_bind, Option.bind_eq_bind, Option.bind_some]
    by_cases hs : base + rel ≤ usizeMax
    swap
    · rw [checkedAdd, if_neg hs, if_neg fun h => hs (by rw [(hif hr).mp h]; decide),
        if_neg (by omega)]
      rfl
    rw [checkedAdd, if_pos hs, value_bind]
    by_cases ha : (base + rel) % 32 = 0
    swap
    · rw [refuseIf_pos_bind ha, if_neg fun h => ha (by rw [(hif hr).mp h]; decide),
        if_neg fun h => ha h.1]
      rfl
    rw [refuseIf_neg_bind (not_not_intro ha)]
    by_cases ho : base + rel = lastWord
    · rw [add, if_neg (by omega), if_pos ((hif hr).mpr ho)]
      rfl
    rw [if_neg fun h => ho ((hif hr).mp h), add, if_pos (by omega), value_bind]
    by_cases hl : base + rel + 32 ≤ i.length
    · rw [refuseIf_neg_bind (Nat.not_lt.mpr hl), if_pos ⟨ha, hl⟩,
        bytesContent_eq hi strict ha hl]
    · rw [refuseIf_pos_bind (Nat.not_le.mp hl), if_neg fun h => hl h.2]
      rfl

theorem faults_bind_pure {α β : Type} (x : Decoded α) (f : α → β) :
    (x >>= fun a => pure (f a)).Faults ↔ x.Faults := by
  cases x with
  | value a => exact iff_of_false (fun ⟨_, h⟩ => nomatch h) fun ⟨_, h⟩ => nomatch h
  | refused => exact iff_of_false (fun ⟨_, h⟩ => nomatch h) fun ⟨_, h⟩ => nomatch h
  | fault p => exact ⟨fun _ => ⟨p, rfl⟩, fun _ => ⟨p, rfl⟩⟩

/-- The elements of an array are read one after the other, and the first that overflows is the end of
it. -/
theorem faults_entries_iff {entry : Nat → Decoded Bytes} {overflows : Nat → Prop}
    [DecidablePred overflows] {read : Nat → Option Bytes} {left n : Nat}
    (h : ∀ k, k < n + left → entry k =
      if overflows k then .fault .overflow else ofOption (read k)) :
    (entries entry left n).Faults ↔
      ∃ k, n ≤ k ∧ k < n + left ∧ overflows k ∧ ∀ j, n ≤ j → j < k → (read j).isSome := by
  induction left generalizing n with
  | zero =>
    constructor
    · rintro ⟨p, hp⟩
      cases hp
    · rintro ⟨k, hle, hlt, -⟩
      omega
  | succ left ih =>
    have hre := ih (n := n + 1) fun k hk => h k (by omega)
    rw [entries, h n (by omega)]
    by_cases ho : overflows n
    · rw [if_pos ho, fault_bind]
      exact iff_of_true ⟨_, rfl⟩ ⟨n, Nat.le_refl n, by omega, ho, fun j hj hjn => by omega⟩
    rw [if_neg ho]
    cases hr : read n with
    | none =>
      refine iff_of_false (fun ⟨_, hp⟩ => nomatch hp) ?_
      rintro ⟨k, hle, -, hk, ha⟩
      have hne : n ≠ k := fun heq => ho (heq ▸ hk)
      have hs := ha n (Nat.le_refl n) (by omega)
      rw [hr] at hs
      cases hs
    | some b =>
      rw [ofOption, value_bind, faults_bind_pure, hre]
      constructor
      · rintro ⟨k, hle, hlt, hk, ha⟩
        refine ⟨k, by omega, by omega, hk, fun j hj hjk => ?_⟩
        rcases Nat.eq_or_lt_of_le hj with rfl | hj
        · rw [hr]
          rfl
        · exact ha j hj hjk
      · rintro ⟨k, hle, hlt, hk, ha⟩
        have hne : n ≠ k := fun heq => ho (heq ▸ hk)
        exact ⟨k, by omega, by omega, hk, fun j hj hjk => ha j (by omega) hjk⟩

/-- The head of an array of byte strings: the position of its count, and the count. -/
structure ArrayAt (i : Bytes) (head max base count : Nat) : Prop where
  base_eq : fieldAt i (32 * head) = some base
  aligned : base % 32 = 0
  within : base / 32 < i.length / 32
  count_eq : fieldAt i base = some count
  count_le : count ≤ max
  table_le : base + 32 + 32 * count ≤ i.length

/-- What `bytes_array` does when its head is in order, and that it refuses when it is not. -/
theorem bytesArray_eq (hi : i.length ≤ isizeMax) {head : Nat} (max : Nat)
    (hh : head * 32 + 32 ≤ usizeMax) (strict : Bool) :
    (∃ base count, ArrayAt i head max base count ∧
      bytesArray i head max strict = entries (bytesEntry i base strict) count 0) ∨
      ((¬ ∃ base count, ArrayAt i head max base count) ∧
        bytesArray i head max strict = .refused) := by
  have hm : isizeMax + 63 ≤ usizeMax := by decide
  rw [bytesArray, uint_eq i hh]
  cases hb : fieldAt i (32 * head) with
  | none =>
    refine .inr ⟨?_, rfl⟩
    rintro ⟨base, count, h⟩
    rw [h.base_eq] at hb
    cases hb
  | some base =>
    have heq : ∀ {base' count}, ArrayAt i head max base' count → base' = base := by
      intro base' count h
      rw [h.base_eq] at hb
      exact Option.some.inj hb
    rw [ofOption, value_bind]
    -- the table is at a word boundary inside the input
    by_cases hw : base % 32 ≠ 0 ∨ base / 32 ≥ i.length / 32
    · rw [refuseIf_pos_bind hw]
      refine .inr ⟨?_, rfl⟩
      rintro ⟨base', count, h⟩
      rw [heq h] at h
      have ha := h.aligned
      have hwi := h.within
      omega
    obtain ⟨ha, hwi⟩ := not_or.mp hw
    rw [Decidable.not_not] at ha
    have hin : 32 * (base / 32) = base := by omega
    rw [refuseIf_neg_bind hw, uint_eq i (by omega), hin]
    cases hc : fieldAt i base with
    | none =>
      refine .inr ⟨?_, rfl⟩
      rintro ⟨base', count, h⟩
      rw [heq h] at h
      rw [h.count_eq] at hc
      cases hc
    | some count =>
      have hec : ∀ {base' count'}, ArrayAt i head max base' count' → count' = count := by
        intro base' count' h
        rw [heq h] at h
        rw [h.count_eq] at hc
        exact Option.some.inj hc
      rw [ofOption, value_bind]
      -- it has no more entries than the limit
      by_cases hle : count > max
      · rw [refuseIf_pos_bind hle]
        refine .inr ⟨?_, rfl⟩
        rintro ⟨base', count', h⟩
        have hcount_le := h.count_le
        rw [hec h] at hcount_le
        omega
      rw [refuseIf_neg_bind hle]
      have hs : checkedAdd base 32 = .value (base + 32) := if_pos (by omega)
      rw [hs, value_bind]
      -- and the input has room for them
      by_cases ht : base + 32 + 32 * count ≤ i.length
      · have hsi : checkedMul count 32 = .value (32 * count) := by
          rw [checkedMul, Nat.mul_comm, if_pos (by omega)]
        have he : checkedAdd (base + 32) (32 * count) = .value (base + 32 + 32 * count) :=
          if_pos (by omega)
        rw [hsi, value_bind, he, value_bind, refuseIf_neg_bind (Nat.not_lt.mpr ht)]
        exact .inl ⟨base, count, ⟨hb, ha, Nat.not_le.mp hwi, hc,
          Nat.not_lt.mp hle, ht⟩, rfl⟩
      · refine .inr ⟨?_, ?_⟩
        · rintro ⟨base', count', h⟩
          have htable_le := h.table_le
          rw [heq h, hec h] at htable_le
          exact ht htable_le
        · rw [checkedMul]
          split
          · rw [value_bind, checkedAdd]
            split
            · rw [value_bind, refuseIf_pos_bind (by omega)]
            · rfl
          · rfl

end

end RustTron.Tvm.Precompile
