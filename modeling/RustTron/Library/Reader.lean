import RustTron.Library.Prog
import Mathlib

/-!
# Readers of byte strings

A reader takes what it needs off the front of its input. It may fail with an error of its own, and
it panics where an index is outside of a slice. It also notes for how many elements it reserves
room, and how much of the input is left at that point.

## Main definitions

* `Reader E α`: readers with errors `E`
* `Reader.take`, `Reader.number`: a slice, and a number in big-endian bytes
* `Reader.Reads x bytes after a`: `x` reads `a` off `bytes`, if at least `after` bytes follow
* `Reader.Safe x`: `x` never panics, and reserves no more than the rest of its input can fill

## Main results

* `natOfBe_beBytes`: a number is read back as it was written
* `Reads.bind`, `Reads.loop`: what a reader reads, by its steps
* `Safe.bind`, `Safe.loop`: safety, by the steps
-/

/-- What a reader stops with. -/
inductive ReadStop (E : Type) where
  | error (e : E)
  | panic
  deriving DecidableEq, Repr

/-- Room for `count` elements of at least `size` bytes each, when `left` bytes were left. -/
structure Reservation where
  count : Nat
  size : Nat
  left : Nat
  deriving DecidableEq, Repr

/-- The rest of the input, and what has been reserved. -/
structure ReadState where
  input : List UInt8
  reserved : List Reservation := []
  deriving DecidableEq, Repr

/-- Readers with errors `E`. -/
abbrev Reader (E α : Type) : Type := Prog ReadState (ReadStop E) α

/-! ## Numbers in big-endian bytes -/

/-- The last `width` bytes of a number, most significant first. -/
def beBytes : (width : Nat) → Nat → List UInt8
  | 0, _ => []
  | width + 1, n => beBytes width (n / 256) ++ [UInt8.ofNat n]

/-- The number of a byte string, most significant first. -/
def natOfBe (bytes : List UInt8) : Nat := bytes.foldl (fun n b => n * 256 + b.toNat) 0

@[simp] theorem length_beBytes (width n : Nat) : (beBytes width n).length = width := by
  induction width generalizing n with
  | zero => rfl
  | succ width ih => simp [beBytes, ih]

theorem natOfBe_beBytes {width n : Nat} (h : n < 256 ^ width) : natOfBe (beBytes width n) = n := by
  induction width generalizing n with
  | zero =>
    rw [Nat.pow_zero] at h
    have hz : n = 0 := by omega
    exact hz.symm
  | succ width ih =>
    have hd : n / 256 < 256 ^ width := by
      rw [Nat.div_lt_iff_lt_mul (by decide), ← Nat.pow_succ]
      exact h
    unfold natOfBe at ih ⊢
    rw [beBytes, List.foldl_append, ih hd]
    simp only [List.foldl_cons, List.foldl_nil, UInt8.toNat_ofNat']
    omega

theorem natOfBe_lt (bytes : List UInt8) : natOfBe bytes < 256 ^ bytes.length := by
  have hf : ∀ (n : Nat) (bytes : List UInt8),
      bytes.foldl (fun n b => n * 256 + b.toNat) n < (n + 1) * 256 ^ bytes.length := by
    intro n bytes
    induction bytes generalizing n with
    | nil => simp
    | cons b bytes ih =>
      have hb := b.toNat_lt
      have hs : n * 256 + b.toNat + 1 ≤ (n + 1) * 256 := by omega
      rw [List.foldl_cons, List.length_cons, Nat.pow_succ', ← Nat.mul_assoc]
      exact (ih _).trans_le (Nat.mul_le_mul_right _ hs)
  have hlt := hf 0 bytes
  rwa [Nat.zero_add, Nat.one_mul] at hlt

namespace Reader

variable {E α β : Type}

/-- An error of the reader. -/
def fail (e : E) : Reader E α := throw (.error e)

/-- The rest of the input. -/
def rest : Reader E (List UInt8) := do return (← get).input

/-- Reserve room for `count` elements of at least `size` bytes, in each of some collections. -/
def reserve (collections count size : Nat) : Reader E Unit := modify fun s =>
  { s with reserved := s.reserved ++ List.replicate collections ⟨count, size, s.input.length⟩ }

/-- `split_at`: the first `count` bytes of the input are taken off. -/
def splitAt (count : Nat) : Reader E (List UInt8) := do
  let input ← rest
  if input.length < count then throw .panic
  else do
    modify fun s => { s with input := input.drop count }
    pure (input.take count)

/-- A slice of `count` bytes, or an error where the input is too short. -/
def take (short : E) (count : Nat) : Reader E (List UInt8) := do
  let input ← rest
  if input.length < count then fail short else splitAt count

theorem take_run (short : E) (count : Nat) (s : ReadState) : take short count s =
    if s.input.length < count then (.error (.error short), s)
    else (.ok (s.input.take count), { s with input := s.input.drop count }) := by
  have hr : (rest : Reader E _) s = (.ok s.input, s) := rfl
  rw [take, Prog.bind_of_ok hr]
  split
  · rfl
  · rename_i hl
    rw [splitAt, Prog.bind_of_ok hr, if_neg hl]
    rfl

/-- The byte at an index of a slice. -/
def index (bytes : List UInt8) (i : Nat) : Reader E UInt8 :=
  match bytes[i]? with
  | some b => pure b
  | none => throw .panic

/-- The number of a slice of exactly `width` bytes. -/
def fromBe (width : Nat) (bytes : List UInt8) : Reader E Nat :=
  if bytes.length = width then pure (natOfBe bytes) else throw .panic

/-- A number of `width` bytes. -/
def number (short : E) (width : Nat) : Reader E Nat := take short width >>= fromBe width

/-- One byte. -/
def byte (short : E) : Reader E UInt8 := take short 1 >>= fun bytes => index bytes 0

/-- A slice behind its length in four bytes. -/
def sized (short : E) : Reader E (List UInt8) := number short 4 >>= take short

/-- A slice behind its length, copied. -/
def sizedVec (short : E) : Reader E (List UInt8) := do
  let input ← rest
  let bytes ← sized short
  modify fun s => { s with reserved := s.reserved ++ [⟨bytes.length, 1, input.length⟩] }
  pure bytes

/-- A count in four bytes of elements of at least `size` bytes each. -/
def counted (short tooMany : E) (most size : Nat) : Reader E Nat := do
  let count ← number short 4
  let input ← rest
  if most < count ∨ input.length / size < count then fail tooMany else pure count

/-- A count of elements, and room for them in some collections. -/
def countedRoom (short tooMany : E) (most size collections : Nat) : Reader E Nat := do
  let count ← counted short tooMany most size
  reserve collections count size
  pure count

/-- A counted loop. -/
def loop {σ : Type} (body : σ → Reader E σ) : Nat → σ → Reader E σ
  | 0, acc => pure acc
  | n + 1, acc => body acc >>= loop body n

/-! ## What a reader reads -/

/-- The reader reads `a` off `bytes`, if at least `after` bytes follow. -/
def Reads (x : Reader E α) (bytes : List UInt8) (after : Nat) (a : α) : Prop :=
  ∀ more reserved, after ≤ more.length →
    ∃ reserved', x ⟨bytes ++ more, reserved⟩ = (.ok a, ⟨more, reserved'⟩)

namespace Reads

variable {x : Reader E α} {f : α → Reader E β} {bytes bytes' : List UInt8} {after : Nat} {a : α}
  {b : β}

theorem pure : Reads (Pure.pure a : Reader E α) [] after a := fun _ reserved _ => ⟨reserved, rfl⟩

theorem bind (hx : Reads x bytes (bytes'.length + after) a) (hf : Reads (f a) bytes' after b) :
    Reads (x >>= f) (bytes ++ bytes') after b := by
  intro more reserved hm
  obtain ⟨reserved₁, hr₁⟩ := hx (bytes' ++ more) reserved (by rw [List.length_append]; omega)
  obtain ⟨reserved₂, hr₂⟩ := hf more reserved₁ hm
  refine ⟨reserved₂, ?_⟩
  rw [List.append_assoc, Prog.bind_of_ok hr₁, hr₂]

/-- A step that takes nothing. -/
theorem bind_nil (hx : Reads x [] (bytes'.length + after) a) (hf : Reads (f a) bytes' after b) :
    Reads (x >>= f) bytes' after b := bind hx hf

/-- The last step of a reader may take everything. -/
theorem bind_pure {g : α → β} (hx : Reads x bytes after a) :
    Reads (x >>= fun a => Pure.pure (g a)) bytes after (g a) := by
  intro more reserved hm
  obtain ⟨reserved', hr⟩ := hx more reserved hm
  exact ⟨reserved', Prog.bind_of_ok hr⟩

theorem mono {after' : Nat} (hx : Reads x bytes after a) (h : after ≤ after') :
    Reads x bytes after' a := fun more reserved hm => hx more reserved (h.trans hm)

theorem ite_neg {c : Prop} [Decidable c] {y : Reader E α} (hc : ¬ c) (hx : Reads x bytes after a) :
    Reads (if c then y else x) bytes after a := by rwa [if_neg hc]

theorem take (short : E) {count : Nat} (h : bytes.length = count) :
    Reads (take short count) bytes after bytes := by
  intro more reserved _
  subst h
  have hl : ¬ (bytes ++ more).length < bytes.length := by rw [List.length_append]; omega
  exact ⟨reserved, by rw [take_run, if_neg hl, List.drop_left, List.take_left]⟩

theorem number (short : E) {width n : Nat} (h : n < 256 ^ width) :
    Reads (number short width) (beBytes width n) after n := by
  have ht : Reads (Reader.take short width) (beBytes width n) after (beBytes width n) :=
    take short (length_beBytes width n)
  intro more reserved hm
  obtain ⟨reserved', hr⟩ := ht more reserved hm
  refine ⟨reserved', ?_⟩
  rw [Reader.number, Prog.bind_of_ok hr, fromBe, if_pos (length_beBytes width n),
    natOfBe_beBytes h]
  rfl

theorem byte (short : E) (b : UInt8) : Reads (byte short) [b] after b := by
  have ht : Reads (Reader.take short 1) [b] after [b] := take short rfl
  intro more reserved hm
  obtain ⟨reserved', hr⟩ := ht more reserved hm
  exact ⟨reserved', Prog.bind_of_ok hr⟩

theorem sized (short : E) (h : bytes.length < 2 ^ 32) :
    Reads (sized short) (beBytes 4 bytes.length ++ bytes) after bytes :=
  bind (number short h) (take short rfl)

theorem sizedVec (short : E) (h : bytes.length < 2 ^ 32) :
    Reads (sizedVec short) (beBytes 4 bytes.length ++ bytes) after bytes := by
  intro more reserved hm
  obtain ⟨reserved', hr⟩ := sized short h more reserved hm
  refine ⟨reserved' ++ [⟨bytes.length, 1, (beBytes 4 bytes.length ++ bytes ++ more).length⟩], ?_⟩
  simp only [Reader.sizedVec, rest, Prog.bind_run, Prog.get_run, Prog.pure_run, hr,
    Prog.modify_run]

theorem counted (short tooMany : E) {most size count : Nat} (hc : count < 2 ^ 32)
    (hmo : count ≤ most) (hs : 0 < size) (hl : count * size ≤ after) :
    Reads (counted short tooMany most size) (beBytes 4 count) after count := by
  intro more reserved hm
  have hn : Reads (Reader.number short 4) (beBytes 4 count) 0 count := number short hc
  obtain ⟨reserved', hru⟩ := hn more reserved (Nat.zero_le _)
  have hr : ¬ (most < count ∨ more.length / size < count) := by
    rintro (h | h)
    · omega
    · exact absurd ((Nat.le_div_iff_mul_le hs).mpr (hl.trans hm)) (by omega)
  refine ⟨reserved', ?_⟩
  simp only [Reader.counted, rest, Prog.bind_run, hru, Prog.get_run, Prog.pure_run, hr,
    if_false]

theorem countedRoom (short tooMany : E) {most size count : Nat} (collections : Nat)
    (hc : count < 2 ^ 32) (hmo : count ≤ most) (hs : 0 < size)
    (hl : count * size ≤ after) :
    Reads (countedRoom short tooMany most size collections) (beBytes 4 count) after count := by
  intro more reserved hm
  obtain ⟨reserved', hr⟩ := counted short tooMany hc hmo hs hl more reserved hm
  refine ⟨reserved' ++ List.replicate collections ⟨count, size, more.length⟩, ?_⟩
  rw [Reader.countedRoom, Prog.bind_of_ok hr]
  rfl

/-- A counted loop reads a list, if its body reads each element in turn. -/
theorem loop {σ ι : Type} {body : σ → Reader E σ} {write : ι → List UInt8} (acc : List ι → σ)
    {items : List ι} (h : ∀ done item more, items = done ++ item :: more →
      Reads (body (acc done)) (write item) 0 (acc (done ++ [item]))) :
    Reads (loop body items.length (acc [])) (items.flatMap write) after (acc items) := by
  have hl : ∀ more done, items = done ++ more →
      Reads (Reader.loop body more.length (acc done)) (more.flatMap write) after (acc items) := by
    intro more
    induction more with
    | nil =>
      intro done hi
      rw [hi, List.append_nil]
      exact pure
    | cons item more ih =>
      intro done hi
      rw [List.flatMap_cons]
      exact bind ((h done item more hi).mono (Nat.zero_le _))
        (ih (done ++ [item]) (by simpa using hi))
  exact hl items [] rfl

end Reads

/-! ## Safety -/

/-- The reader does not panic, takes only from the front of its input, reserves room for no more
than what is left of it can fill, and returns values with `R`. -/
def Safe (x : Reader E α) (R : α → Prop) : Prop :=
  ∀ s, (x s).1 ≠ .error .panic ∧ (x s).2.input.length ≤ s.input.length ∧
    (∃ new, (x s).2.reserved = s.reserved ++ new ∧
      ∀ r ∈ new, r.count * r.size ≤ r.left ∧ r.left ≤ s.input.length) ∧
    ∀ a, (x s).1 = .ok a → R a

namespace Safe

variable {x : Reader E α} {f : α → Reader E β} {R R' : α → Prop} {P : β → Prop}

theorem pure {a : α} (h : R a) : Safe (Pure.pure a : Reader E α) R := fun _ =>
  ⟨nofun, le_rfl, ⟨[], (List.append_nil _).symm, nofun⟩, fun _ ha => Except.ok.inj ha ▸ h⟩

theorem fail (e : E) : Safe (Reader.fail e : Reader E α) R := fun _ =>
  ⟨nofun, le_rfl, ⟨[], (List.append_nil _).symm, nofun⟩, nofun⟩

theorem bind (hx : Safe x R) (hf : ∀ a, R a → Safe (f a) P) : Safe (x >>= f) P := by
  intro s
  obtain ⟨hp, hi, ⟨new, hn, hro⟩, hR⟩ := hx s
  rcases hru : x s with ⟨e | a, s₁⟩
  · rw [hru] at hp hi hn
    rw [Prog.bind_of_error hru]
    exact ⟨fun h => hp (by cases h; rfl), hi, ⟨new, hn, hro⟩, nofun⟩
  · rw [hru] at hi hn hR
    obtain ⟨hp', hi', ⟨new', hn', hr'⟩, hP⟩ := hf a (hR a rfl) s₁
    rw [Prog.bind_of_ok hru]
    refine ⟨hp', hi'.trans hi, ⟨new ++ new', ?_, fun r hr => ?_⟩, hP⟩
    · rw [hn', hn, List.append_assoc]
    · rcases List.mem_append.mp hr with h | h
      · exact hro r h
      · exact ⟨(hr' r h).1, (hr' r h).2.trans hi⟩

theorem mono (hx : Safe x R) (h : ∀ a, R a → R' a) : Safe x R' := fun s =>
  ⟨(hx s).1, (hx s).2.1, (hx s).2.2.1, fun a ha => h a ((hx s).2.2.2 a ha)⟩

theorem ite {c : Prop} [Decidable c] {y : Reader E α} (hx : c → Safe x R) (hy : ¬ c → Safe y R) :
    Safe (if c then x else y) R := by
  split
  · exact hx ‹_›
  · exact hy ‹_›

theorem take (short : E) (count : Nat) :
    Safe (take short count) fun bytes => bytes.length = count := by
  intro s
  by_cases h : s.input.length < count
  · rw [take_run, if_pos h]
    exact ⟨nofun, le_rfl, ⟨[], (List.append_nil _).symm, nofun⟩, nofun⟩
  · rw [take_run, if_neg h]
    refine ⟨nofun, by rw [List.length_drop]; omega, ⟨[], (List.append_nil _).symm, nofun⟩, ?_⟩
    intro bytes hb
    cases hb
    rw [List.length_take]
    omega

theorem number (short : E) (width : Nat) :
    Safe (number short width) fun n => n < 256 ^ width := by
  refine bind (take short width) fun bytes hb => ?_
  unfold fromBe
  rw [if_pos hb]
  exact pure (hb ▸ natOfBe_lt bytes)

theorem byte (short : E) : Safe (byte short) fun _ => True := by
  refine bind (take short 1) fun bytes hb => ?_
  obtain ⟨b, rfl⟩ := List.length_eq_one_iff.mp hb
  exact pure trivial

theorem sized (short : E) : Safe (sized short) fun bytes => bytes.length < 2 ^ 32 :=
  bind (number short 4) fun n hn => (take short n).mono fun _ hb => hb ▸ hn

/-- A slice that was taken is no longer than what was left. -/
theorem take_le {short : E} {count : Nat} {bytes : List UInt8} {s s' : ReadState}
    (h : Reader.take short count s = (.ok bytes, s')) : bytes.length ≤ s.input.length := by
  rw [take_run] at h
  split at h
  · cases h
  · cases h
    exact List.length_take_le' _ _

theorem sized_le {short : E} {bytes : List UInt8} {s s' : ReadState}
    (h : Reader.sized short s = (.ok bytes, s')) : bytes.length ≤ s.input.length := by
  rcases hr : Reader.number short 4 s with ⟨e | n, s₁⟩
  · rw [Reader.sized, Prog.bind_of_error hr] at h
    cases h
  · rw [Reader.sized, Prog.bind_of_ok hr] at h
    have hs := (number short 4 s).2.1
    rw [hr] at hs
    exact (take_le h).trans hs

theorem sizedVec (short : E) : Safe (sizedVec short) fun bytes => bytes.length < 2 ^ 32 := by
  intro s
  obtain ⟨hp, hi, ⟨new, hn, hro⟩, hR⟩ := sized short s
  have hre : (Reader.rest : Reader E _) s = (.ok s.input, s) := rfl
  rw [Reader.sizedVec, Prog.bind_of_ok hre]
  rcases hru : Reader.sized short s with ⟨e | bytes, s₁⟩
  · rw [hru] at hp hi hn
    rw [Prog.bind_of_error hru]
    exact ⟨fun h => hp (by cases h; rfl), hi, ⟨new, hn, hro⟩, nofun⟩
  · rw [hru] at hi hn hR
    rw [Prog.bind_of_ok hru]
    have ht : bytes.length ≤ s.input.length := sized_le hru
    refine ⟨nofun, hi, ⟨new ++ [⟨bytes.length, 1, s.input.length⟩], ?_, fun r hr => ?_⟩, ?_⟩
    · show s₁.reserved ++ _ = _
      rw [hn, List.append_assoc]
    · rcases List.mem_append.mp hr with h | h
      · exact hro r h
      · cases List.mem_singleton.mp h
        exact ⟨by rw [Nat.mul_one]; exact ht, le_rfl⟩
    · intro bytes' h
      cases h
      exact hR _ rfl

theorem rest : Safe (rest : Reader E (List UInt8)) fun _ => True := fun _ =>
  ⟨nofun, le_rfl, ⟨[], (List.append_nil _).symm, nofun⟩, fun _ _ => trivial⟩

/-- A count that was checked against what is left. -/
theorem counted_left {short tooMany : E} {most size count : Nat} {s s' : ReadState}
    (h : Reader.counted short tooMany most size s = (.ok count, s')) :
    count * size ≤ s'.input.length := by
  rcases hru : Reader.number short 4 s with ⟨e | n, s₁⟩
  · rw [Reader.counted, Prog.bind_of_error hru] at h
    cases h
  · have hre : (Reader.rest : Reader E _) s₁ = (.ok s₁.input, s₁) := rfl
    rw [Reader.counted, Prog.bind_of_ok hru, Prog.bind_of_ok hre] at h
    split at h
    · cases h
    · rename_i hr
      cases h
      rw [not_or, not_lt, not_lt] at hr
      exact (Nat.mul_le_mul_right _ hr.2).trans (Nat.div_mul_le_self _ _)

theorem counted (short tooMany : E) (most size : Nat) :
    Safe (counted short tooMany most size) fun count => count ≤ most := by
  refine bind (number short 4) fun count _ => ?_
  exact bind rest fun input _ => ite (fun _ => fail _) fun h => pure (by omega)

theorem countedRoom (short tooMany : E) (most size collections : Nat) :
    Safe (countedRoom short tooMany most size collections) fun count => count ≤ most := by
  intro s
  obtain ⟨hp, hi, ⟨new, hn, hro⟩, hR⟩ := counted short tooMany most size s
  rcases hru : Reader.counted short tooMany most size s with ⟨e | count, s₁⟩
  · rw [hru] at hp hi hn
    rw [Reader.countedRoom, Prog.bind_of_error hru]
    exact ⟨fun h => hp (by cases h; rfl), hi, ⟨new, hn, hro⟩, nofun⟩
  · rw [hru] at hi hn hR
    rw [Reader.countedRoom, Prog.bind_of_ok hru]
    refine ⟨nofun, hi,
      ⟨new ++ List.replicate collections ⟨count, size, s₁.input.length⟩, ?_, fun r hr => ?_⟩, ?_⟩
    · show s₁.reserved ++ _ = _
      rw [hn, List.append_assoc]
    · rcases List.mem_append.mp hr with h | h
      · exact hro r h
      · cases List.eq_of_mem_replicate h
        exact ⟨counted_left hru, hi⟩
    · intro count' h
      cases h
      exact hR _ rfl

/-- A loop keeps the invariant of its body. -/
theorem loop {σ : Type} {body : σ → Reader E σ} {I : σ → Prop}
    (hb : ∀ acc, I acc → Safe (body acc) I) :
    ∀ n acc, I acc → Safe (Reader.loop body n acc) I
  | 0, _, ha => pure ha
  | n + 1, acc, ha => bind (hb acc ha) fun acc' ha' => loop hb n acc' ha'

end Safe

end Reader
