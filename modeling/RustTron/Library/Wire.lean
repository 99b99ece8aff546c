import RustTron.Library.Prog
import Mathlib

/-!
# The protobuf wire format

A message on the wire is a sequence of fields. A field starts with its key, a varint that holds the
number of the field and its wire type, and the wire type says where the field ends. The fields of a
message are delimited by themselves, so what is read off the front of a byte string does not depend
on what follows.

## Main definitions

* `Wire.readVarint`, `Wire.readField`: a varint, and a field that is no group
* `Wire.many`, `Wire.visit`: all fields of a byte string, and a scanner that visits them in turn
* `Wire.readMessageField`: a field as a message decoder reads it, which skips groups
* `Wire.writeVarint`, `Wire.Field.bytes`: the encodings

## Main results

* `many_eq_some_iff`: the byte strings that consist of these fields
* `visit_eq_ok_iff`: what a scanner that comes to its end has visited
* `messageFields_eq`: where a byte string has no groups the decoder and the scanner see the same
* `readVarint_writeVarint`: what is written is read back
-/

namespace Wire

/-- A field: its key, its payload, and all of its bytes. -/
structure Field where
  key : Nat
  payload : List UInt8
  encoded : List UInt8
  deriving DecidableEq, Repr

/-- The number of a field. -/
def Field.number (f : Field) : Nat := f.key / 8

/-- The wire type of a field. -/
def Field.wire (f : Field) : Nat := f.key % 8

/-! ## Reading -/

section Read

/-- A varint from its `i`-th byte on, over the `value` of those before: the value, the bytes of the
varint, and the rest. The tenth byte holds a single bit. -/
def readVarintFrom : Nat → Nat → List UInt8 → Option ((Nat × List UInt8) × List UInt8)
  | _, _, [] => none
  | i, value, b :: rest =>
    if i = 9 ∧ 1 < b.toNat then none
    else if b.toNat < 128 then some ((value + b.toNat * 128 ^ i, [b]), rest)
    else
      match readVarintFrom (i + 1) (value + b.toNat % 128 * 128 ^ i) rest with
      | none => none
      | some ((n, used), rest) => some ((n, b :: used), rest)

/-- A varint. -/
def readVarint (bytes : List UInt8) : Option ((Nat × List UInt8) × List UInt8) :=
  readVarintFrom 0 0 bytes

/-- The first bytes, where there are enough. -/
def readBytes (count : Nat) (bytes : List UInt8) : Option (List UInt8 × List UInt8) :=
  if bytes.length < count then none else some (bytes.take count, bytes.drop count)

/-- What follows a key of this wire type: the payload, its bytes, and the rest. -/
def readBody (wire : Nat) (bytes : List UInt8) :
    Option ((List UInt8 × List UInt8) × List UInt8) :=
  match wire with
  | 0 => (readVarint bytes).map fun read => ((read.1.2, read.1.2), read.2)
  | 1 => (readBytes 8 bytes).map fun read => ((read.1, read.1), read.2)
  | 2 =>
    match readVarint bytes with
    | none => none
    | some ((length, used), rest) =>
      (readBytes length rest).map fun read => ((read.1, used ++ read.1), read.2)
  | 5 => (readBytes 4 bytes).map fun read => ((read.1, read.1), read.2)
  | _ => none

/-- A field that is no group. -/
def readField (bytes : List UInt8) : Option (Field × List UInt8) :=
  match readVarint bytes with
  | none => none
  | some ((key, used), rest) =>
    (readBody (key % 8) rest).map fun read => (⟨key, read.1.1, used ++ read.1.2⟩, read.2)

/-- `p` reads `used a` for `a`, whatever follows. -/
def Whole {α : Type} (p : List UInt8 → Option (α × List UInt8)) (used : α → List UInt8) (a : α) :
    Prop :=
  used a ≠ [] ∧ ∀ rest, p (used a ++ rest) = some (a, rest)

/-- What `p` reads is read the same whatever follows. -/
def Delimited {α : Type} (p : List UInt8 → Option (α × List UInt8)) (used : α → List UInt8) : Prop :=
  ∀ bytes a rest, p bytes = some (a, rest) → bytes = used a ++ rest ∧ Whole p used a

theorem readVarintFrom_delimited (i value : Nat) :
    Delimited (readVarintFrom i value) Prod.snd := by
  intro bytes read rest h
  induction bytes generalizing i value read with
  | nil => cases h
  | cons b bytes ih =>
    rw [readVarintFrom] at h
    split_ifs at h with hl he
    · cases h
      refine ⟨rfl, List.cons_ne_nil _ _, fun rest' => ?_⟩
      rw [List.singleton_append, readVarintFrom, if_neg hl, if_pos he]
    · rcases hr : readVarintFrom (i + 1) (value + b.toNat % 128 * 128 ^ i) bytes with
        _ | ⟨⟨n, used⟩, rest₁⟩ <;> rw [hr] at h <;> cases h
      obtain ⟨hb, -, hw⟩ := ih _ _ _ hr
      refine ⟨congrArg (b :: ·) hb, List.cons_ne_nil _ _, fun rest' => ?_⟩
      simp only [List.cons_append, readVarintFrom, if_neg hl, if_neg he, hw rest']

theorem readVarint_delimited : Delimited readVarint Prod.snd := readVarintFrom_delimited 0 0

theorem readBytes_eq_some {count : Nat} {bytes taken rest : List UInt8}
    (h : readBytes count bytes = some (taken, rest)) :
    bytes = taken ++ rest ∧ taken.length = count := by
  rw [readBytes] at h
  split_ifs at h with hl
  cases h
  exact ⟨(List.take_append_drop _ _).symm, List.length_take_of_le (not_lt.mp hl)⟩

theorem readBytes_append (taken rest : List UInt8) :
    readBytes taken.length (taken ++ rest) = some (taken, rest) := by
  rw [readBytes, if_neg (by simp), List.take_left, List.drop_left]

theorem readBytes_whole {count : Nat} (hc : 0 < count) {bytes taken rest : List UInt8}
    (h : readBytes count bytes = some (taken, rest)) :
    bytes = taken ++ rest ∧ taken ≠ [] ∧
      ∀ rest', readBytes count (taken ++ rest') = some (taken, rest') := by
  obtain ⟨hb, hl⟩ := readBytes_eq_some h
  refine ⟨hb, fun hn => ?_, fun rest' => hl ▸ readBytes_append taken rest'⟩
  rw [hn, List.length_nil] at hl
  exact hc.ne hl

theorem readBody_delimited (wire : Nat) : Delimited (readBody wire) Prod.snd := by
  rintro bytes ⟨payload, used⟩ rest h
  unfold readBody at h
  split at h
  · obtain ⟨⟨⟨n, used'⟩, rest'⟩, hr, heq⟩ := Option.map_eq_some_iff.mp h
    cases heq
    obtain ⟨hb, hne, hw⟩ := readVarint_delimited _ _ _ hr
    exact ⟨hb, hne, fun rest' => by simp only [readBody, hw rest', Option.map_some]⟩
  · obtain ⟨⟨taken, rest'⟩, hr, heq⟩ := Option.map_eq_some_iff.mp h
    cases heq
    obtain ⟨hb, hne, hw⟩ := readBytes_whole (by decide) hr
    exact ⟨hb, hne, fun rest' => by simp only [readBody, hw rest', Option.map_some]⟩
  · rcases hl : readVarint bytes with _ | ⟨⟨length, used'⟩, rest'⟩ <;> rw [hl] at h
    · cases h
    obtain ⟨⟨taken, rest''⟩, hr, heq⟩ := Option.map_eq_some_iff.mp h
    cases heq
    obtain ⟨hb, hne, hw⟩ := readVarint_delimited _ _ _ hl
    obtain ⟨hre, rfl⟩ := readBytes_eq_some hr
    refine ⟨by rw [hb, hre, List.append_assoc], by simp_all, fun rest' => ?_⟩
    simp only at hw
    simp only [readBody, List.append_assoc, hw, readBytes_append, Option.map_some]
  · obtain ⟨⟨taken, rest'⟩, hr, heq⟩ := Option.map_eq_some_iff.mp h
    cases heq
    obtain ⟨hb, hne, hw⟩ := readBytes_whole (by decide) hr
    exact ⟨hb, hne, fun rest' => by simp only [readBody, hw rest', Option.map_some]⟩
  · cases h

theorem readVarintFrom_lt {i value : Nat} (hi : i ≤ 9) (hv : value < 128 ^ i)
    {bytes : List UInt8} {n : Nat} {used rest : List UInt8}
    (h : readVarintFrom i value bytes = some ((n, used), rest)) : n < 2 ^ 64 := by
  induction bytes generalizing i value used with
  | nil => cases h
  | cons b bytes ih =>
    have hg (c : Nat) : value + c * 128 ^ i < (c + 1) * 128 ^ i := by
      rw [add_mul, one_mul]
      omega
    rw [readVarintFrom] at h
    split_ifs at h with hl he
    · cases h
      refine (hg _).trans_le ?_
      rcases Nat.lt_or_eq_of_le hi with hi | rfl
      · calc (b.toNat + 1) * 128 ^ i ≤ 128 * 128 ^ 8 :=
              Nat.mul_le_mul (by omega) (Nat.pow_le_pow_right (by decide) (by omega))
          _ ≤ 2 ^ 64 := by decide
      · calc (b.toNat + 1) * 128 ^ 9 ≤ 2 * 128 ^ 9 := Nat.mul_le_mul_right _ (by omega)
          _ ≤ 2 ^ 64 := by decide
    · rcases hr : readVarintFrom (i + 1) (value + b.toNat % 128 * 128 ^ i) bytes with
        _ | ⟨⟨n', used'⟩, rest'⟩ <;> rw [hr] at h <;> cases h
      refine ih (by omega) ((hg _).trans_le ?_) hr
      rw [pow_succ']
      exact Nat.mul_le_mul_right _ (by omega)

/-- The payload of a length-delimited field is shorter than `2 ^ 64`. -/
theorem length_payload_lt {bytes rest : List UInt8} {f : Field}
    (h : readField bytes = some (f, rest)) (hf : f.wire = 2) : f.payload.length < 2 ^ 64 := by
  rw [readField] at h
  rcases hk : readVarint bytes with _ | ⟨⟨key, used⟩, rest'⟩ <;> rw [hk] at h
  · cases h
  obtain ⟨⟨⟨payload, body⟩, rest''⟩, hb, heq⟩ := Option.map_eq_some_iff.mp h
  cases heq
  have hw : key % 8 = 2 := hf
  rw [hw, readBody] at hb
  rcases hl : readVarint rest' with _ | ⟨⟨length, used'⟩, rest₁⟩ <;> rw [hl] at hb
  · cases hb
  obtain ⟨⟨taken, rest₂⟩, hr, heq⟩ := Option.map_eq_some_iff.mp hb
  cases heq
  obtain ⟨-, rfl⟩ := readBytes_eq_some hr
  exact readVarintFrom_lt (by decide) (by decide) hl

/-- **A field ends where it says.** -/
theorem readField_delimited : Delimited readField Field.encoded := by
  intro bytes f rest h
  rw [readField] at h
  rcases hk : readVarint bytes with _ | ⟨⟨key, used⟩, rest'⟩ <;> rw [hk] at h
  · cases h
  obtain ⟨⟨⟨payload, body⟩, rest''⟩, hbo, heq⟩ := Option.map_eq_some_iff.mp h
  cases heq
  obtain ⟨hb, hne, hw⟩ := readVarint_delimited _ _ _ hk
  obtain ⟨hr, -, hw'⟩ := readBody_delimited _ _ _ _ hbo
  refine ⟨by rw [hb, hr, List.append_assoc], by simp_all, fun rest' => ?_⟩
  simp only at hw hw'
  simp only [readField, List.append_assoc, hw, hw', Option.map_some]

end Read

/-! ## All of a byte string -/

section Many

variable {α β σ ε : Type} {p : List UInt8 → Option (α × List UInt8)} {used : α → List UInt8}
variable {bytes : List UInt8}

def manyFuel (p : List UInt8 → Option (α × List UInt8)) : Nat → List UInt8 → Option (List α)
  | _, [] => some []
  | 0, _ :: _ => none
  | fuel + 1, b :: bytes =>
    match p (b :: bytes) with
    | none => none
    | some (a, rest) => (manyFuel p fuel rest).map (a :: ·)

/-- Everything that `p` reads off a byte string, one after the other. -/
def many (p : List UInt8 → Option (α × List UInt8)) (bytes : List UInt8) : Option (List α) :=
  manyFuel p bytes.length bytes

def visitFuel (p : List UInt8 → Option (α × List UInt8)) (malformed : ε) (step : α → Prog σ ε Unit) :
    Nat → List UInt8 → Prog σ ε Unit
  | _, [] => pure ()
  | 0, _ :: _ => throw malformed
  | fuel + 1, b :: bytes =>
    match p (b :: bytes) with
    | none => throw malformed
    | some (a, rest) => do
      step a
      visitFuel p malformed step fuel rest

/-- A scanner: it reads one thing after the other off a byte string and visits each at once. -/
def visit (p : List UInt8 → Option (α × List UInt8)) (malformed : ε) (step : α → Prog σ ε Unit)
    (bytes : List UInt8) : Prog σ ε Unit :=
  visitFuel p malformed step bytes.length bytes

theorem manyFuel_cons {fuel : Nat} {bytes rest : List UInt8} {a : α} (hb : bytes ≠ [])
    (h : p bytes = some (a, rest)) :
    manyFuel p (fuel + 1) bytes = (manyFuel p fuel rest).map (a :: ·) := by
  obtain ⟨b, bytes, rfl⟩ := List.exists_cons_of_ne_nil hb
  rw [manyFuel, h]

theorem manyFuel_of_whole {as : List α} (has : ∀ a ∈ as, Whole p used a) {fuel : Nat}
    (hf : (as.map used).flatten.length ≤ fuel) :
    manyFuel p fuel (as.map used).flatten = some as := by
  induction as generalizing fuel with
  | nil => cases fuel <;> rfl
  | cons a as ih =>
    obtain ⟨⟨hne, hw⟩, has⟩ := List.forall_mem_cons.mp has
    have hl := List.length_pos_iff.mpr hne
    simp only [List.map_cons, List.flatten_cons, List.length_append] at hf ⊢
    obtain ⟨fuel, rfl⟩ : ∃ k, fuel = k + 1 := ⟨fuel - 1, by omega⟩
    rw [manyFuel_cons (List.append_ne_nil_of_left_ne_nil hne _) (hw _), ih has (by omega)]
    rfl

/-- What is put together from whole parts is read as these parts. -/
theorem many_of_whole {as : List α} (has : ∀ a ∈ as, Whole p used a) :
    many p (as.map used).flatten = some as :=
  manyFuel_of_whole has le_rfl

theorem whole_of_manyFuel (hp : Delimited p used) {fuel : Nat} {as : List α}
    (h : manyFuel p fuel bytes = some as) :
    bytes = (as.map used).flatten ∧ ∀ a ∈ as, Whole p used a := by
  induction fuel generalizing bytes as with
  | zero =>
    cases bytes <;> cases h
    exact ⟨rfl, nofun⟩
  | succ fuel ih =>
    cases bytes with
    | nil =>
      cases h
      exact ⟨rfl, nofun⟩
    | cons b bytes =>
      rw [manyFuel] at h
      rcases hr : p (b :: bytes) with _ | ⟨a, rest⟩ <;> rw [hr] at h
      · cases h
      obtain ⟨as, hre, rfl⟩ := Option.map_eq_some_iff.mp h
      obtain ⟨hb, hw⟩ := hp _ _ _ hr
      obtain ⟨hf, has⟩ := ih hre
      exact ⟨by rw [hb, hf]; rfl, List.forall_mem_cons.mpr ⟨hw, has⟩⟩

/-- **The byte strings that consist of these parts.** -/
theorem many_eq_some_iff (hp : Delimited p used) {as : List α} :
    many p bytes = some as ↔ bytes = (as.map used).flatten ∧ ∀ a ∈ as, Whole p used a := by
  refine ⟨whole_of_manyFuel hp, ?_⟩
  rintro ⟨rfl, has⟩
  exact many_of_whole has

/-- Each part that is read has been read somewhere. -/
theorem of_mem_manyFuel {P : α → Prop} (hP : ∀ bytes a rest, p bytes = some (a, rest) → P a)
    {fuel : Nat} {as : List α} (h : manyFuel p fuel bytes = some as) : ∀ a ∈ as, P a := by
  induction fuel generalizing bytes as with
  | zero =>
    cases bytes <;> cases h
    exact nofun
  | succ fuel ih =>
    cases bytes with
    | nil =>
      cases h
      exact nofun
    | cons b bytes =>
      rw [manyFuel] at h
      rcases hr : p (b :: bytes) with _ | ⟨a, rest⟩ <;> rw [hr] at h
      · cases h
      obtain ⟨as, hre, rfl⟩ := Option.map_eq_some_iff.mp h
      exact List.forall_mem_cons.mpr ⟨hP _ _ _ hr, ih hre⟩

theorem of_mem_many {P : α → Prop} (hP : ∀ bytes a rest, p bytes = some (a, rest) → P a)
    {as : List α} (h : many p bytes = some as) : ∀ a ∈ as, P a :=
  of_mem_manyFuel hP h

theorem manyFuel_agree {q : List UInt8 → Option (α × List UInt8)}
    (hpq : ∀ bytes x y, p bytes = some x → q bytes = some y → x = y) {fuel : Nat} {as bs : List α}
    (hp : manyFuel p fuel bytes = some as) (hq : manyFuel q fuel bytes = some bs) : as = bs := by
  induction fuel generalizing bytes as bs with
  | zero =>
    cases bytes <;> cases hp
    cases hq
    rfl
  | succ fuel ih =>
    cases bytes with
    | nil =>
      cases hp
      cases hq
      rfl
    | cons b bytes =>
      rw [manyFuel] at hp hq
      rcases hr : p (b :: bytes) with _ | ⟨a, rest⟩ <;> rw [hr] at hp
      · cases hp
      rcases hr' : q (b :: bytes) with _ | ⟨a', rest'⟩ <;> rw [hr'] at hq
      · cases hq
      obtain ⟨as, has, rfl⟩ := Option.map_eq_some_iff.mp hp
      obtain ⟨bs, hbs, rfl⟩ := Option.map_eq_some_iff.mp hq
      cases hpq _ _ _ hr hr'
      rw [ih has hbs]

/-- Two readers that never disagree read the same parts. -/
theorem many_agree {q : List UInt8 → Option (α × List UInt8)}
    (hpq : ∀ bytes x y, p bytes = some x → q bytes = some y → x = y) {as bs : List α}
    (hp : many p bytes = some as) (hq : many q bytes = some bs) : as = bs :=
  manyFuel_agree hpq hp hq

theorem visitFuel_run {malformed : ε} {step : α → Prog σ ε Unit} {fuel : Nat} {as : List α}
    (h : manyFuel p fuel bytes = some as) :
    visitFuel p malformed step fuel bytes = as.forM step := by
  induction fuel generalizing bytes as with
  | zero =>
    cases bytes <;> cases h
    rfl
  | succ fuel ih =>
    cases bytes with
    | nil =>
      cases h
      rfl
    | cons b bytes =>
      rw [manyFuel] at h
      rw [visitFuel]
      rcases hr : p (b :: bytes) with _ | ⟨a, rest⟩ <;> rw [hr] at h
      · cases h
      obtain ⟨as, hre, rfl⟩ := Option.map_eq_some_iff.mp h
      dsimp only
      rw [ih hre]
      rfl

/-- A scanner of a byte string that consists of these parts visits them in turn. -/
theorem visit_run {malformed : ε} {step : α → Prog σ ε Unit} {as : List α}
    (h : many p bytes = some as) : visit p malformed step bytes = as.forM step :=
  visitFuel_run h

theorem many_of_visitFuel {malformed : ε} {step : α → Prog σ ε Unit} {fuel : Nat} {s s' : σ}
    (h : visitFuel p malformed step fuel bytes s = (.ok (), s')) :
    ∃ as, manyFuel p fuel bytes = some as := by
  induction fuel generalizing bytes s with
  | zero =>
    cases bytes with
    | nil => exact ⟨[], rfl⟩
    | cons b bytes => cases h
  | succ fuel ih =>
    cases bytes with
    | nil => exact ⟨[], rfl⟩
    | cons b bytes =>
      rw [visitFuel] at h
      rw [manyFuel]
      rcases hr : p (b :: bytes) with _ | ⟨a, rest⟩ <;> rw [hr] at h
      · cases h
      dsimp only at h
      rw [Prog.bind_run] at h
      rcases hs : step a s with ⟨e | _, s₁⟩ <;> rw [hs] at h
      · cases h
      obtain ⟨as, has⟩ := ih h
      exact ⟨a :: as, by dsimp only; rw [has]; rfl⟩

/-- **A scanner that comes to its end** has visited all parts in turn. -/
theorem visit_eq_ok_iff {malformed : ε} {step : α → Prog σ ε Unit} {s s' : σ} :
    visit p malformed step bytes s = (.ok (), s') ↔
      ∃ as, many p bytes = some as ∧ as.forM step s = (.ok (), s') := by
  constructor
  · intro h
    obtain ⟨as, has⟩ := many_of_visitFuel h
    exact ⟨as, has, by rwa [visit_run has] at h⟩
  · rintro ⟨as, has, hr⟩
    rw [visit_run has]
    exact hr

end Many

/-! ## Message decoders -/

section Messages

/-- A key of a message: it fits 32 bits, and its number is not 0. -/
def readKey (bytes : List UInt8) : Option ((Nat × List UInt8) × List UInt8) :=
  match readVarint bytes with
  | none => none
  | some ((key, used), rest) =>
    if key < 2 ^ 32 ∧ 8 ≤ key then some ((key, used), rest) else none

/-- The fields of the groups with these numbers, the innermost first, up to where the last of them
ends. -/
def skipGroups : Nat → List Nat → List UInt8 → Option (List UInt8 × List UInt8)
  | _, [], bytes => some ([], bytes)
  | 0, _ :: _, _ => none
  | fuel + 1, number :: groups, bytes =>
    match readKey bytes with
    | none => none
    | some ((key, used), rest) =>
      if key % 8 = 3 then
        (skipGroups fuel (key / 8 :: number :: groups) rest).map fun read => (used ++ read.1, read.2)
      else if key % 8 = 4 then
        if key / 8 = number then
          (skipGroups fuel groups rest).map fun read => (used ++ read.1, read.2)
        else none
      else
        match readBody (key % 8) rest with
        | none => none
        | some ((_, body), rest) =>
          (skipGroups fuel (number :: groups) rest).map fun read =>
            (used ++ (body ++ read.1), read.2)

/-- A field as a message decoder reads it. A group is skipped as a whole. -/
def readMessageField (bytes : List UInt8) : Option (Field × List UInt8) :=
  match readKey bytes with
  | none => none
  | some ((key, used), rest) =>
    if key % 8 = 3 then
      (skipGroups rest.length [key / 8] rest).map fun read => (⟨key, [], used ++ read.1⟩, read.2)
    else (readBody (key % 8) rest).map fun read => (⟨key, read.1.1, used ++ read.1.2⟩, read.2)

/-- The fields of a message. -/
def messageFields (bytes : List UInt8) : Option (List Field) := many readMessageField bytes

/-- The key of the field is one of a message. -/
def Field.InMessage (f : Field) : Prop := f.key < 2 ^ 32 ∧ 8 ≤ f.key

instance (f : Field) : Decidable f.InMessage := inferInstanceAs (Decidable (_ ∧ _))

theorem readKey_eq_some {bytes : List UInt8} {key : Nat} {used rest : List UInt8}
    (h : readKey bytes = some ((key, used), rest)) :
    readVarint bytes = some ((key, used), rest) ∧ key < 2 ^ 32 ∧ 8 ≤ key := by
  rw [readKey] at h
  rcases hk : readVarint bytes with _ | ⟨⟨key', used'⟩, rest'⟩ <;> rw [hk] at h
  · cases h
  dsimp only at h
  split_ifs at h with hr
  cases h
  exact ⟨rfl, hr⟩

theorem readMessageField_inMessage (bytes : List UInt8) (f : Field) (rest : List UInt8)
    (h : readMessageField bytes = some (f, rest)) : f.InMessage := by
  rw [readMessageField] at h
  rcases hk : readKey bytes with _ | ⟨⟨key, used⟩, rest'⟩ <;> rw [hk] at h
  · cases h
  have hr := (readKey_eq_some hk).2
  dsimp only at h
  split_ifs at h
  · obtain ⟨_, -, heq⟩ := Option.map_eq_some_iff.mp h
    cases heq
    exact hr
  · obtain ⟨_, -, heq⟩ := Option.map_eq_some_iff.mp h
    cases heq
    exact hr

/-- A field that is no group is the same to a message decoder, where its key is one of a message. -/
theorem readMessageField_of_readField {bytes : List UInt8} {f : Field} {rest : List UInt8}
    (h : readField bytes = some (f, rest)) (hf : f.InMessage) :
    readMessageField bytes = some (f, rest) := by
  rw [readField] at h
  rw [readMessageField, readKey]
  rcases hk : readVarint bytes with _ | ⟨⟨key, used⟩, rest'⟩ <;> rw [hk] at h
  · cases h
  obtain ⟨⟨⟨payload, body⟩, rest''⟩, hb, heq⟩ := Option.map_eq_some_iff.mp h
  cases heq
  have hg : key % 8 ≠ 3 := by
    intro h3
    rw [h3] at hb
    cases hb
  have hr : key < 2 ^ 32 ∧ 8 ≤ key := hf
  dsimp only
  rw [if_pos hr]
  dsimp only
  rw [if_neg hg, hb]
  rfl

/-- A scanner and a message decoder never disagree on a field. -/
theorem readField_agree (bytes : List UInt8) (x y : Field × List UInt8)
    (hx : readField bytes = some x) (hy : readMessageField bytes = some y) : x = y := by
  obtain ⟨f, rest⟩ := x
  obtain ⟨g, rest'⟩ := y
  have hk : f.key = g.key := by
    rw [readField] at hx
    rw [readMessageField, readKey] at hy
    rcases hke : readVarint bytes with _ | ⟨⟨key, used⟩, rest''⟩ <;> rw [hke] at hx hy
    · cases hx
    obtain ⟨_, -, heq⟩ := Option.map_eq_some_iff.mp hx
    cases heq
    dsimp only at hy
    split_ifs at hy
    dsimp only at hy
    split_ifs at hy <;>
      obtain ⟨_, -, heq⟩ := Option.map_eq_some_iff.mp hy <;> cases heq <;> rfl
  have hf : f.InMessage := by
    rw [Field.InMessage, hk]
    exact readMessageField_inMessage _ _ _ hy
  exact Option.some.inj ((readMessageField_of_readField hx hf).symm.trans hy)

/-- **Without groups** a message decoder reads the fields that a scanner reads, where their keys are
those of a message. -/
theorem messageFields_eq {bytes : List UInt8} {fs : List Field} (h : many readField bytes = some fs)
    (hfs : ∀ f ∈ fs, f.InMessage) : messageFields bytes = some fs := by
  obtain ⟨rfl, hw⟩ := (many_eq_some_iff readField_delimited).mp h
  exact many_of_whole fun f hf => ⟨(hw f hf).1, fun rest =>
    readMessageField_of_readField ((hw f hf).2 rest) (hfs f hf)⟩

/-- Where a message decoder and a scanner accept a byte string, they read the same fields. -/
theorem messageFields_agree {bytes : List UInt8} {fs gs : List Field}
    (hfs : many readField bytes = some fs) (hgs : messageFields bytes = some gs) :
    gs = fs ∧ ∀ f ∈ fs, f.InMessage := by
  obtain rfl := many_agree readField_agree hfs hgs
  exact ⟨rfl, of_mem_many readMessageField_inMessage hgs⟩

end Messages

/-! ## Writing -/

section Write

def writeVarintFuel : Nat → Nat → List UInt8
  | 0, _ => []
  | fuel + 1, n =>
    if n < 128 then [UInt8.ofNat n] else UInt8.ofNat (128 + n % 128) :: writeVarintFuel fuel (n / 128)

/-- A number of at most 64 bits as a varint. -/
def writeVarint (n : Nat) : List UInt8 := writeVarintFuel 10 n

/-- The length-delimited field with this number and this payload. -/
def Field.bytes (number : Nat) (payload : List UInt8) : Field where
  key := 8 * number + 2
  payload := payload
  encoded := writeVarint (8 * number + 2) ++ (writeVarint payload.length ++ payload)

theorem readVarintFrom_writeVarintFuel (fuel i value n : Nat) (hf : i + fuel = 10)
    (hn : n < 2 ^ (64 - 7 * i)) (hi : i ≤ 9) (rest : List UInt8) :
    readVarintFrom i value (writeVarintFuel fuel n ++ rest) =
      some ((value + n * 128 ^ i, writeVarintFuel fuel n), rest) := by
  induction fuel generalizing i value n with
  | zero => omega
  | succ fuel ih =>
    by_cases he : n < 128
    · have htn : (UInt8.ofNat n).toNat = n := by simp; omega
      have hl : ¬ (i = 9 ∧ 1 < n) := by
        rintro ⟨rfl, h1⟩
        norm_num at hn
        omega
      rw [writeVarintFuel, if_pos he, List.singleton_append, readVarintFrom, htn, if_neg hl,
        if_pos he]
    · have htn : (UInt8.ofNat (128 + n % 128)).toNat = 128 + n % 128 := by simp; omega
      have hi8 : i ≤ 8 := by
        by_contra h
        obtain rfl : i = 9 := by omega
        norm_num at hn
        omega
      have hd : n / 128 < 2 ^ (64 - 7 * (i + 1)) := by
        have hp : 2 ^ (64 - 7 * i) = 128 * 2 ^ (64 - 7 * (i + 1)) := by
          rw [show 64 - 7 * i = 7 + (64 - 7 * (i + 1)) by omega, pow_add]
          rfl
        rw [hp] at hn
        exact Nat.div_lt_of_lt_mul hn
      have hlo : (128 + n % 128) % 128 = n % 128 := by omega
      have hv : value + n % 128 * 128 ^ i + n / 128 * 128 ^ (i + 1) = value + n * 128 ^ i := by
        rw [pow_succ, add_assoc, show n / 128 * (128 ^ i * 128) = n / 128 * 128 * 128 ^ i by ring,
          ← add_mul, Nat.mod_add_div']
      rw [writeVarintFuel, if_neg he, List.cons_append, readVarintFrom, htn,
        if_neg (by omega), if_neg (by omega), hlo,
        ih (i + 1) _ _ (by omega) hd (by omega)]
      simp only [hv]

/-- **A varint is read back.** -/
theorem readVarint_writeVarint {n : Nat} (hn : n < 2 ^ 64) (rest : List UInt8) :
    readVarint (writeVarint n ++ rest) = some ((n, writeVarint n), rest) := by
  rw [readVarint, writeVarint, readVarintFrom_writeVarintFuel 10 0 0 n rfl hn (by decide)]
  simp only [pow_zero, mul_one, zero_add]

theorem writeVarint_ne_nil (n : Nat) : writeVarint n ≠ [] := by
  rw [writeVarint, writeVarintFuel]
  split_ifs <;> exact List.cons_ne_nil _ _

@[simp] theorem Field.number_bytes (number : Nat) (payload : List UInt8) :
    (Field.bytes number payload).number = number := by
  simp only [Field.number, Field.bytes]
  omega

@[simp] theorem Field.wire_bytes (number : Nat) (payload : List UInt8) :
    (Field.bytes number payload).wire = 2 := by
  simp only [Field.wire, Field.bytes]
  omega

@[simp] theorem Field.payload_bytes (number : Nat) (payload : List UInt8) :
    (Field.bytes number payload).payload = payload := rfl

/-- **A length-delimited field is read back.** -/
theorem Field.bytes_whole {number : Nat} {payload : List UInt8} (hn : 8 * number + 2 < 2 ^ 64)
    (hp : payload.length < 2 ^ 64) :
    Whole readField Field.encoded (Field.bytes number payload) := by
  refine ⟨List.append_ne_nil_of_left_ne_nil (writeVarint_ne_nil _) _, fun rest => ?_⟩
  have hw : (8 * number + 2) % 8 = 2 := by omega
  simp only [Field.bytes, List.append_assoc, readField, readVarint_writeVarint hn, hw,
    readBody, readVarint_writeVarint hp, readBytes_append, Option.map_some]

end Write

/-! ## Messages -/

section Codecs

variable {M : Type}

/-- A message type: its default value, the merge of more bytes into a value, and its encoding. -/
structure Codec (M : Type) where
  default : M
  merge : M → List UInt8 → Option M
  encode : M → List UInt8

/-- A message from its bytes. -/
def Codec.decode (c : Codec M) (bytes : List UInt8) : Option M := c.merge c.default bytes

/-- What is encoded is decoded again, and an encoding fits in memory. -/
structure Codec.Lawful (c : Codec M) : Prop where
  decode_encode : ∀ m, c.decode (c.encode m) = some m
  length_encode : ∀ m, (c.encode m).length < 2 ^ 64

/-- The fields of a byte string merged one by one. -/
def mergeFields (step : M → Field → Option M) (m : M) (bytes : List UInt8) : Option M :=
  (messageFields bytes).bind (List.foldlM step m)

/-- **The encoding of a message** that consists of length-delimited fields is decoded field by
field. -/
theorem mergeFields_flatten {step : M → Field → Option M} {m : M} {fs : List Field}
    (hfs : ∀ f ∈ fs, Whole readField Field.encoded f ∧ f.InMessage) :
    mergeFields step m (fs.map Field.encoded).flatten = fs.foldlM step m := by
  rw [mergeFields, messageFields_eq (many_of_whole fun f hf => (hfs f hf).1) fun f hf => (hfs f hf).2]
  rfl

theorem Field.bytes_inMessage {number : Nat} (hn : 0 < number) (hlt : number < 2 ^ 29)
    (payload : List UInt8) : (Field.bytes number payload).InMessage := by
  simp only [Field.InMessage, Field.bytes]
  omega

end Codecs

end Wire
