import RustTron.Execution.OnWire.Transaction
import RustTron.Library.Radix
import RustTron.Library.Results
import Mathlib

/-!
# Addresses in Base58

A byte string is a number in base 256, its text the same number in base 58 with a character for each
digit.  Leading zero bytes are counted apart, each is a leading `1`.  In the checked form the first
four bytes of a double digest follow the payload.

The digest of the engine is a parameter, and texts are their bytes.

## Main definitions

* `encodeBase58`, `decodeBase58`: the two directions
* `encodeBase58check`, `decodeBase58check`: with a checksum
* `encodeAddressBase58check`, `decodeAddressBase58check`: of an address

## Main results

* `decodeBase58_encodeBase58`, `encodeBase58_of_decodeBase58`: the round trips
* `base58_round_trips`: with the checked forms
-/

namespace RustTron.Crypto

open Radix
open Execution.OnWire (CryptoEngine)

/-! ### The model -/

def base58Alphabet : Bytes :=
  ['1', '2', '3', '4', '5', '6', '7', '8', '9', 'A', 'B', 'C', 'D', 'E', 'F', 'G', 'H', 'J', 'K',
    'L', 'M', 'N', 'P', 'Q', 'R', 'S', 'T', 'U', 'V', 'W', 'X', 'Y', 'Z', 'a', 'b', 'c', 'd', 'e',
    'f', 'g', 'h', 'i', 'j', 'k', 'm', 'n', 'o', 'p', 'q', 'r', 's', 't', 'u', 'v', 'w', 'x', 'y',
    'z'].map fun c => UInt8.ofNat c.toNat

inductive AddressError
  | invalidLength
  | invalidPrefix
  | invalidBase58Character
  | invalidChecksum
  deriving DecidableEq

structure TronAddress21 where
  bytes : Bytes
  length_eq : bytes.length = 21
  deriving DecidableEq

def tronAddressPrefix : UInt8 := 0x41

def base58AddressLength : Nat := 34

def validateAddress (bytes : Bytes) : Except AddressError TronAddress21 :=
  if h : bytes.length = 21 then
    if bytes.head? ≠ some tronAddressPrefix then .error .invalidPrefix else .ok ⟨bytes, h⟩
  else .error .invalidLength

/-- The character of a digit. -/
def characterOf (digit : Nat) : UInt8 := base58Alphabet.getD digit 0

/-- The bytes from the first that is not zero on, as digits. -/
def bytesFrom (start : Nat) (input : Bytes) : Digits 256 := ⟨input.drop start, fun d _ => d.toNat_lt⟩

def encodeBase58 (input : Bytes) : Bytes :=
  if input.isEmpty then []
  else
    let zeros := (input.takeWhile (· == 0)).length
    let encoded := (convert 58 (by decide) (by decide) (bytesFrom zeros input)).map characterOf
    (encoded ++ List.replicate zeros (characterOf 0)).reverse

theorem idxOf_lt {byte : UInt8} (h : byte ∈ base58Alphabet) :
    (UInt8.ofNat (base58Alphabet.idxOf byte)).toNat = base58Alphabet.idxOf byte ∧
      base58Alphabet.idxOf byte < 58 := by
  have hlt : base58Alphabet.idxOf byte < 58 := List.idxOf_lt_length_of_mem h
  rw [UInt8.toNat_ofNat', Nat.mod_eq_of_lt (by omega)]
  exact ⟨rfl, hlt⟩

/-- A digit before others. -/
def consDigit (byte : UInt8) (h : byte ∈ base58Alphabet) (rest : Digits 58) : Digits 58 where
  digits := UInt8.ofNat (base58Alphabet.idxOf byte) :: rest.digits
  lt := fun d hd => by
    rcases List.mem_cons.mp hd with rfl | hd
    · exact (idxOf_lt h).1.trans_lt (idxOf_lt h).2
    · exact rest.lt d hd

/-- The digits of some characters. -/
def digitsOf : Bytes → Except AddressError (Digits 58)
  | [] => .ok ⟨[], fun _ h => absurd h List.not_mem_nil⟩
  | byte :: bytes =>
    if h : byte ∈ base58Alphabet then do
      let rest ← digitsOf bytes
      return consDigit byte h rest
    else .error .invalidBase58Character

/-- The digits from a position on. -/
def digitsFrom (start : Nat) (l : Digits 58) : Digits 58 :=
  ⟨l.digits.drop start, fun d hd => l.lt d (List.mem_of_mem_drop hd)⟩

def decodeBase58 (input : Bytes) : Except AddressError Bytes :=
  if input.isEmpty then .ok []
  else do
    let zeros := (input.takeWhile (· == characterOf 0)).length
    let digits ← digitsOf input
    let decoded := (convert 256 (by decide) (by decide) (digitsFrom zeros digits)).map UInt8.ofNat
    return (decoded ++ List.replicate zeros 0).reverse

section Checked

variable (digest : CryptoEngine → Bytes → Hash32)

def selectedDigestTwice (engine : CryptoEngine) (input : Bytes) : Bytes :=
  (digest engine (digest engine input).bytes).bytes

def encodeBase58check (engine : CryptoEngine) (payload : Bytes) : Bytes :=
  encodeBase58 (payload ++ (selectedDigestTwice digest engine payload).take 4)

def decodeBase58check (engine : CryptoEngine) (encoded : Bytes) : Except AddressError Bytes := do
  let checked ← decodeBase58 encoded
  if checked.length ≤ 4 then throw .invalidLength
  let split := checked.length - 4
  let checksum := selectedDigestTwice digest engine (checked.take split)
  if checked.drop split ≠ checksum.take 4 then throw .invalidChecksum
  return checked.take split

def encodeAddressBase58check (engine : CryptoEngine) (address : TronAddress21) : Bytes :=
  encodeBase58check digest engine address.bytes

def decodeAddressBase58check (engine : CryptoEngine) (encoded : Bytes) :
    Except AddressError TronAddress21 := do
  if encoded.length ≠ base58AddressLength then throw .invalidLength
  let bytes ← decodeBase58check digest engine encoded
  validateAddress bytes

end Checked

/-! ### The alphabet -/

theorem base58Alphabet_nodup : base58Alphabet.Nodup := by decide

theorem idxOf_characterOf {d : Nat} (h : d < 58) : base58Alphabet.idxOf (characterOf d) = d := by
  have hl : d < base58Alphabet.length := h
  rw [characterOf, List.getD_eq_getElem _ _ hl]
  exact base58Alphabet_nodup.idxOf_getElem d hl

theorem characterOf_mem {d : Nat} (h : d < 58) : characterOf d ∈ base58Alphabet := by
  have hl : d < base58Alphabet.length := h
  rw [characterOf, List.getD_eq_getElem _ _ hl]
  exact List.getElem_mem hl

theorem characterOf_idxOf {byte : UInt8} (h : byte ∈ base58Alphabet) :
    characterOf (base58Alphabet.idxOf byte) = byte := by
  have hl := List.idxOf_lt_length_of_mem h
  rw [characterOf, List.getD_eq_getElem _ _ hl]
  exact List.getElem_idxOf hl

theorem characterOf_eq_zero {d : Nat} (h : d < 58) (hd : characterOf d = characterOf 0) : d = 0 := by
  have hi := congrArg base58Alphabet.idxOf hd
  rwa [idxOf_characterOf h, idxOf_characterOf (by decide)] at hi

/-- The characters of some digits. -/
def textOf (l : Digits 58) : Bytes := l.digits.map fun d => characterOf d.toNat

theorem digitsOf_textOf (digits : Bytes) (h : ∀ d ∈ digits, d.toNat < 58) :
    digitsOf (digits.map fun d => characterOf d.toNat) = .ok ⟨digits, h⟩ := by
  induction digits with
  | nil => rfl
  | cons d digits ih =>
    have hd := h d List.mem_cons_self
    rw [List.map_cons, digitsOf, dif_pos (characterOf_mem hd),
      ih fun x hx => h x (List.mem_cons_of_mem d hx), ok_bind, pure_eq_ok_iff]
    simp only [consDigit, idxOf_characterOf hd, UInt8.ofNat_toNat]

theorem textOf_of_digitsOf {input : Bytes} {l : Digits 58} (h : digitsOf input = .ok l) :
    input = textOf l := by
  induction input generalizing l with
  | nil =>
    cases h
    rfl
  | cons byte input ih =>
    rw [digitsOf] at h
    split at h
    next hm =>
      obtain ⟨rest, hr, h⟩ := bind_eq_ok_iff.mp h
      rw [pure_eq_ok_iff] at h
      rw [← h, textOf, consDigit, List.map_cons, (idxOf_lt hm).1, characterOf_idxOf hm,
        ← textOf, ← ih hr]
    next => cases h

theorem exists_digitsOf {input : Bytes} (h : ∀ byte ∈ input, byte ∈ base58Alphabet) :
    ∃ l, digitsOf input = .ok l := by
  induction input with
  | nil => exact ⟨_, rfl⟩
  | cons byte input ih =>
    obtain ⟨rest, hr⟩ := ih fun b hb => h b (List.mem_cons_of_mem byte hb)
    refine ⟨consDigit byte (h byte List.mem_cons_self) rest, ?_⟩
    rw [digitsOf, dif_pos (h byte List.mem_cons_self), hr]
    rfl

/-! ### Leading zeros -/

section Leading

variable {a : UInt8} {l m : Bytes}

theorem drop_takeWhile (p : UInt8 → Bool) (l : Bytes) :
    l.drop (l.takeWhile p).length = l.dropWhile p := by
  induction l with
  | nil => rfl
  | cons b l ih =>
    rw [List.takeWhile_cons, List.dropWhile_cons]
    split
    next => exact ih
    next => rfl

theorem replicate_append_drop (a : UInt8) (l : Bytes) :
    List.replicate (l.takeWhile (· == a)).length a ++ l.drop (l.takeWhile (· == a)).length = l := by
  have hr : l.takeWhile (· == a) = List.replicate (l.takeWhile (· == a)).length a :=
    List.eq_replicate_iff.mpr ⟨rfl, fun b hb => by simpa using List.mem_takeWhile_imp hb⟩
  rw [← hr, drop_takeWhile, List.takeWhile_append_dropWhile]

theorem head?_drop_ne (a : UInt8) (l : Bytes) :
    ∀ b ∈ (l.drop (l.takeWhile (· == a)).length).head?, b ≠ a := by
  intro b hb
  have hh := List.head?_dropWhile_not (· == a) l
  rw [drop_takeWhile, Option.mem_def] at hb
  rw [hb] at hh
  simpa using hh

theorem length_takeWhile_replicate_append (n : Nat) (h : ∀ b ∈ m.head?, b ≠ a) :
    ((List.replicate n a ++ m).takeWhile (· == a)).length = n := by
  rw [List.takeWhile_append_of_pos fun b hb => by simpa using List.eq_of_mem_replicate hb]
  cases m with
  | nil => simp
  | cons b m =>
    have hb : b ≠ a := h b rfl
    rw [List.takeWhile_cons_of_neg (by simpa using hb), List.append_nil, List.length_replicate]

end Leading

/-! ### Round trips -/

/-- The text of a byte string: a `1` for each leading zero, and the digits of the rest. -/
theorem encodeBase58_replicate_append (n : Nat) (l : Digits 256) (h : l.Leading) :
    encodeBase58 (List.replicate n 0 ++ l.digits) = List.replicate n (characterOf 0) ++
      textOf (l.toBase 58 (by decide) (by decide) (by decide)) := by
  rw [encodeBase58]
  split
  next he =>
    rw [List.isEmpty_iff, List.append_eq_nil_iff] at he
    obtain ⟨hn, hl⟩ := he
    rw [List.replicate_eq_nil_iff] at hn
    rw [hn, textOf, l.toBase_of_nil _ _ _ hl]
    rfl
  next =>
    have hb : bytesFrom n (List.replicate n 0 ++ l.digits) = l := by
      simp [bytesFrom]
    have ht : textOf (l.toBase 58 (by decide) (by decide) (by decide)) =
        ((convert 58 (by decide) (by decide) l).map characterOf).reverse := by
      rw [textOf, Digits.toBase, List.map_reverse, List.map_map]
      congr 1
      refine List.map_congr_left fun d hd => ?_
      have hlt := l.convert_lt (by decide) (by decide) d hd
      rw [Function.comp_apply, UInt8.toNat_ofNat', Nat.mod_eq_of_lt (by omega)]
    rw [length_takeWhile_replicate_append n h]
    simp only [hb]
    rw [ht, List.reverse_append, List.reverse_replicate]

theorem decodeBase58_replicate_append (n : Nat) (l : Digits 58) (h : l.Leading) :
    decodeBase58 (List.replicate n (characterOf 0) ++ textOf l) =
      .ok (List.replicate n 0 ++ (l.toBase 256 (by decide) (by decide) (by decide)).digits) := by
  have ha : ∀ d ∈ List.replicate n 0 ++ l.digits, d.toNat < 58 := fun d hd => by
    rcases List.mem_append.mp hd with hd | hd
    · rw [List.eq_of_mem_replicate hd]
      decide
    · exact l.lt d hd
  have ht : List.replicate n (characterOf 0) ++ textOf l =
      (List.replicate n 0 ++ l.digits).map fun d : UInt8 => characterOf d.toNat := by
    rw [List.map_append, List.map_replicate]
    rfl
  have hle : ∀ b ∈ (textOf l).head?, b ≠ characterOf 0 := by
    intro b hb hz
    rw [textOf, List.head?_map, Option.mem_def, Option.map_eq_some_iff] at hb
    obtain ⟨d, hd, rfl⟩ := hb
    refine h d hd (UInt8.toNat_inj.mp ?_)
    exact characterOf_eq_zero (l.lt d (List.mem_of_mem_head? hd)) hz
  rw [decodeBase58]
  split
  next he =>
    rw [List.isEmpty_iff, List.append_eq_nil_iff, List.replicate_eq_nil_iff, textOf,
      List.map_eq_nil_iff] at he
    obtain ⟨hn, hl⟩ := he
    rw [hn, l.toBase_of_nil _ _ _ hl]
    rfl
  next =>
    have hdi := digitsOf_textOf (List.replicate n 0 ++ l.digits) ha
    have hf : digitsFrom n ⟨List.replicate n 0 ++ l.digits, ha⟩ = l := by
      simp [digitsFrom]
    rw [length_takeWhile_replicate_append n hle, ht, hdi, ok_bind]
    simp only [hf]
    rw [List.reverse_append, List.reverse_replicate]
    rfl

theorem leading_bytesFrom (input : Bytes) :
    (bytesFrom (input.takeWhile (· == 0)).length input).Leading := head?_drop_ne 0 input

theorem decodeBase58_encodeBase58 (input : Bytes) : decodeBase58 (encodeBase58 input) = .ok input := by
  have hl := leading_bytesFrom input
  have he := encodeBase58_replicate_append (input.takeWhile (· == 0)).length _ hl
  have hi : List.replicate (input.takeWhile (· == 0)).length 0 ++
      (bytesFrom (input.takeWhile (· == 0)).length input).digits = input :=
    replicate_append_drop 0 input
  rw [hi] at he
  rw [he, decodeBase58_replicate_append _ _ (Digits.leading_toBase _ _ _ _ hl),
    Digits.toBase_toBase _ _ _ (by decide) _ hl, hi]

theorem exists_textOf {input : Bytes} {all : Digits 58} (h : digitsOf input = .ok all) :
    ∃ n, ∃ l : Digits 58, l.Leading ∧ input = List.replicate n (characterOf 0) ++ textOf l := by
  have ht := textOf_of_digitsOf h
  have hr (n : Nat) : textOf (digitsFrom n all) = input.drop n := by
    rw [ht, textOf, textOf, digitsFrom, List.map_drop]
  refine ⟨(input.takeWhile (· == characterOf 0)).length,
    digitsFrom (input.takeWhile (· == characterOf 0)).length all, ?_, ?_⟩
  · intro d hd hz
    refine head?_drop_ne (characterOf 0) input (characterOf d.toNat) ?_ (by rw [hz]; rfl)
    rw [← hr, textOf, List.head?_map, Option.mem_def.mp hd]
    rfl
  · rw [hr]
    exact (replicate_append_drop (characterOf 0) input).symm

theorem encodeBase58_of_decodeBase58 {input output : Bytes} (h : decodeBase58 input = .ok output) :
    encodeBase58 output = input := by
  have ha : ∃ all, digitsOf input = .ok all := by
    rw [decodeBase58] at h
    split at h
    next he =>
      rw [List.isEmpty_iff.mp he]
      exact ⟨_, rfl⟩
    next =>
      obtain ⟨all, ha, -⟩ := bind_eq_ok_iff.mp h
      exact ⟨all, ha⟩
  obtain ⟨all, ha⟩ := ha
  obtain ⟨n, l, hl, ht⟩ := exists_textOf ha
  rw [ht, decodeBase58_replicate_append n l hl, Except.ok.injEq] at h
  have hb : ((l.toBase 256 (by decide) (by decide) (by decide)).toBase 58 (by decide) (by decide)
      (by decide)).digits = l.digits := Digits.toBase_toBase _ _ _ (by decide) l hl
  rw [← h, ht, encodeBase58_replicate_append n _ (Digits.leading_toBase _ _ _ _ hl),
    textOf, textOf, hb]

theorem exists_decodeBase58 {input : Bytes} (h : ∀ byte ∈ input, byte ∈ base58Alphabet) :
    ∃ output, decodeBase58 input = .ok output := by
  obtain ⟨l, hl⟩ := exists_digitsOf h
  rw [decodeBase58]
  split
  next => exact ⟨_, rfl⟩
  next => exact ⟨_, by rw [hl]; rfl⟩

/-! ### With a checksum -/

section Checked

variable (digest : CryptoEngine → Bytes → Hash32)

theorem length_checksum (engine : CryptoEngine) (input : Bytes) :
    ((selectedDigestTwice digest engine input).take 4).length = 4 := by
  rw [List.length_take, selectedDigestTwice, Hash32.length_eq]
  rfl

theorem decodeBase58check_encodeBase58check (engine : CryptoEngine) {payload : Bytes}
    (h : payload ≠ []) :
    decodeBase58check digest engine (encodeBase58check digest engine payload) = .ok payload := by
  have hl := length_checksum digest engine payload
  have hp := List.length_pos_of_ne_nil h
  generalize hc : (selectedDigestTwice digest engine payload).take 4 = checksum at hl
  have hs : (payload ++ checksum).length - 4 = payload.length := by
    rw [List.length_append, hl]
    omega
  rw [decodeBase58check, encodeBase58check, hc, decodeBase58_encodeBase58, ok_bind,
    if_neg (by rw [List.length_append]; omega)]
  simp only [hs, List.take_left, List.drop_left, hc]
  rw [if_neg (not_not_intro rfl), pure_eq_ok_iff]

theorem encodeBase58check_of_decodeBase58check (engine : CryptoEngine) {encoded payload : Bytes}
    (h : decodeBase58check digest engine encoded = .ok payload) :
    encodeBase58check digest engine payload = encoded := by
  rw [decodeBase58check] at h
  obtain ⟨checked, hch, h⟩ := bind_eq_ok_iff.mp h
  split at h
  next => cases h
  next hl =>
    simp only [] at h
    split at h
    next => cases h
    next hc =>
      rw [pure_eq_ok_iff] at h
      rw [ne_eq, not_not] at hc
      rw [← h, encodeBase58check, ← hc, List.take_append_drop]
      exact encodeBase58_of_decodeBase58 hch

theorem length_digits_address {rest : Bytes} (h : rest.length = 24) :
    (Nat.digits 58 (value 256 (tronAddressPrefix :: rest))).length = 34 := by
  have hv : value 256 (tronAddressPrefix :: rest) = 65 * 256 ^ 24 + value 256 rest := by
    rw [value_cons, h]
    rfl
  have hr : value 256 rest < 256 ^ 24 := by
    have := Nat.ofDigits_lt_base_pow_length (b := 256) (by decide)
      (l := (rest.map UInt8.toNat).reverse) fun n hn => by
        obtain ⟨d, -, rfl⟩ := List.mem_map.mp (List.mem_reverse.mp hn)
        exact d.toNat_lt
    rwa [List.length_reverse, List.length_map, h] at this
  have hle : (Nat.digits 58 (value 256 (tronAddressPrefix :: rest))).length ≤ 34 :=
    (Nat.digits_length_le_iff (by decide) _).mpr (by rw [hv]; omega)
  have hlt : 33 < (Nat.digits 58 (value 256 (tronAddressPrefix :: rest))).length :=
    (Nat.lt_digits_length_iff (by decide) _).mpr (by rw [hv]; omega)
  omega

theorem length_encodeAddressBase58check (engine : CryptoEngine) {address : TronAddress21}
    (h : address.bytes.head? = some tronAddressPrefix) :
    (encodeAddressBase58check digest engine address).length = base58AddressLength := by
  obtain ⟨rest, hr⟩ : ∃ rest, address.bytes = tronAddressPrefix :: rest := by
    cases hb : address.bytes with
    | nil => simp [hb] at h
    | cons b rest =>
      rw [hb, List.head?_cons, Option.some_inj] at h
      exact ⟨rest, by rw [h]⟩
  have hle := address.length_eq
  rw [hr, List.length_cons] at hle
  have hch := length_checksum digest engine address.bytes
  generalize hc : (selectedDigestTwice digest engine address.bytes).take 4 = checksum at hch
  let l : Digits 256 := ⟨tronAddressPrefix :: (rest ++ checksum), fun d _ => d.toNat_lt⟩
  have hl : l.Leading := fun d hd => by
    cases hd
    decide
  have he := encodeBase58_replicate_append 0 l hl
  have hdi : ((l.toBase 58 (by decide) (by decide) (by decide)).digits.map UInt8.toNat).reverse =
      Nat.digits 58 (value 256 l.digits) := l.toNat_toBase _ _ _ hl
  have hla := congrArg List.length hdi
  rw [length_digits_address (by rw [List.length_append]; omega), List.length_reverse,
    List.length_map] at hla
  have ht : encodeAddressBase58check digest engine address =
      textOf (l.toBase 58 (by decide) (by decide) (by decide)) := by
    rw [encodeAddressBase58check, encodeBase58check, hc, hr]
    exact he
  rw [ht, textOf, List.length_map, hla]
  rfl

theorem decodeAddressBase58check_encode (engine : CryptoEngine) {address : TronAddress21}
    (h : address.bytes.head? = some tronAddressPrefix) :
    decodeAddressBase58check digest engine (encodeAddressBase58check digest engine address) =
      .ok address := by
  have hne : address.bytes ≠ [] := by
    intro hn
    rw [hn] at h
    cases h
  rw [decodeAddressBase58check, length_encodeAddressBase58check digest engine h,
    if_neg (not_not_intro rfl), encodeAddressBase58check,
    decodeBase58check_encodeBase58check digest engine hne, ok_bind, validateAddress,
    dif_pos address.length_eq, if_neg (not_not_intro h)]

end Checked

/-- Base58 loses nothing in either direction, nor do its checked forms, and the text of a mainnet
address has 34 characters. -/
theorem base58_round_trips (digest : CryptoEngine → Bytes → Hash32) :
    (∀ input, decodeBase58 (encodeBase58 input) = .ok input) ∧
    (∀ input : Bytes, (∀ byte ∈ input, byte ∈ base58Alphabet) →
      ∃ output, decodeBase58 input = .ok output ∧ encodeBase58 output = input) ∧
    (∀ engine payload, payload ≠ [] →
      decodeBase58check digest engine (encodeBase58check digest engine payload) = .ok payload) ∧
    (∀ engine encoded payload, decodeBase58check digest engine encoded = .ok payload →
      encodeBase58check digest engine payload = encoded) ∧
    ∀ engine (address : TronAddress21), address.bytes.head? = some tronAddressPrefix →
      decodeAddressBase58check digest engine (encodeAddressBase58check digest engine address) =
        .ok address ∧
      (encodeAddressBase58check digest engine address).length = base58AddressLength := by
  refine ⟨decodeBase58_encodeBase58, fun input h => ?_, fun engine payload h => ?_,
    fun engine encoded payload h => ?_, fun engine address h => ⟨?_, ?_⟩⟩
  · obtain ⟨output, houtput⟩ := exists_decodeBase58 h
    exact ⟨output, houtput, encodeBase58_of_decodeBase58 houtput⟩
  · exact decodeBase58check_encodeBase58check digest engine h
  · exact encodeBase58check_of_decodeBase58check digest engine h
  · exact decodeAddressBase58check_encode digest engine h
  · exact length_encodeAddressBase58check digest engine h

/-- Leading zeros, and the text `1A`; the address of twenty zero bytes, with any digest. -/
theorem base58_round_trips_sample :
    decodeBase58 (encodeBase58 [0, 0, 7]) = .ok [0, 0, 7] ∧
    (∃ output, decodeBase58 [0x31, 0x41] = .ok output ∧ encodeBase58 output = [0x31, 0x41]) ∧
    decodeBase58check (fun _ _ => .zero) .secp256k1
      (encodeBase58check (fun _ _ => .zero) .secp256k1 [7]) = .ok [7] ∧
    (encodeAddressBase58check (fun _ _ => .zero) .secp256k1
      ⟨0x41 :: List.replicate 20 0, rfl⟩).length = 34 := by
  obtain ⟨htext, halphabet, hpayload, -, haddress⟩ := base58_round_trips fun _ _ => Hash32.zero
  exact ⟨htext [0, 0, 7], halphabet [0x31, 0x41] (by simp [base58Alphabet]), hpayload _ [7] (by decide),
    (haddress _ ⟨0x41 :: List.replicate 20 0, rfl⟩ rfl).2⟩

end RustTron.Crypto
