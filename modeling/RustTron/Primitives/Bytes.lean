import RustTron.Primitives.I64
import Mathlib

/-!
# Byte strings, hashes and block ids

A block id is the digest of the raw header with the height written over its first eight bytes.

## Main definitions

* `keyLe`: the order of the keys of a store
* `be64`, `fromBe64`: `i64::to_be_bytes` and `i64::from_be_bytes`
* `validUtf8`: the byte strings that are text
* `Hash32`, `BlockId`: 32 bytes
* `BlockId.new`, `BlockId.height`: the height over a digest, and read back

## Main results

* `fromBe64_be64`, `BlockId.height_new`: a number is read back as it was written
-/

namespace RustTron

/-- Byte strings. -/
abbrev Bytes := List UInt8

instance : LawfulBEq Bytes := inferInstanceAs (LawfulBEq (List UInt8))

/-- The order of the keys of a store: byte by byte. -/
def keyLe (a b : Bytes) : Prop := a.map UInt8.toNat ≤ b.map UInt8.toNat

instance : DecidableRel keyLe := fun _ _ => inferInstanceAs (Decidable (_ ≤ _))

instance : IsTrans Bytes keyLe := ⟨fun _ _ _ => le_trans⟩

instance : Std.Total keyLe := ⟨fun _ _ => le_total _ _⟩

instance : Std.Antisymm keyLe where
  antisymm _ _ h h' :=
    List.map_injective_iff.mpr (fun _ _ => UInt8.toNat_inj.mp) (le_antisymm h h')

/-- The eight bytes of the two's-complement representation of `x`, most significant first. -/
def be64 (x : Int) : Bytes :=
  [56, 48, 40, 32, 24, 16, 8, 0].map fun k => UInt8.ofNat ((x % 2 ^ 64).toNat / 2 ^ k)

@[simp] theorem length_be64 (x : Int) : (be64 x).length = 8 := rfl

/-- `i32::to_be_bytes`. -/
def be32 (x : Int) : Bytes := (be64 x).drop 4

/-- `i64::from_be_bytes`, of a byte string of length eight. -/
def fromBe64 (bytes : Bytes) : Option Int :=
  if bytes.length = 8 then
    let n : Nat := bytes.foldl (fun n b => n * 256 + b.toNat) 0
    some (if n < 2 ^ 63 then n else (n : Int) - 2 ^ 64)
  else none

/-- `i32::from_be_bytes`, of a byte string of length four. -/
def fromBe32 (bytes : Bytes) : Option Int :=
  if bytes.length = 4 then
    let n : Nat := bytes.foldl (fun n b => n * 256 + b.toNat) 0
    some (if n < 2 ^ 31 then n else (n : Int) - 2 ^ 32)
  else none

theorem foldl_be64 (x : Int) :
    (be64 x).foldl (fun n b => n * 256 + b.toNat) 0 = (x % 2 ^ 64).toNat := by
  have hlt : (x % 2 ^ 64).toNat < 2 ^ 64 := by omega
  generalize hm : (x % 2 ^ 64).toNat = m at hlt
  have top : m / 2 ^ 56 % 2 ^ 8 = m / 2 ^ 56 := Nat.mod_eq_of_lt (Nat.div_lt_of_lt_mul hlt)
  have digit (k : Nat) : m / 2 ^ (k + 8) * 256 + m / 2 ^ k % 2 ^ 8 = m / 2 ^ k := by
    rw [Nat.pow_add, ← Nat.div_div_eq_div_mul]
    exact Nat.div_add_mod' _ _
  simp only [be64, hm, List.map_cons, List.map_nil, List.foldl_cons, List.foldl_nil,
    UInt8.toNat_ofNat']
  rw [zero_mul, zero_add, top, digit 48, digit 40, digit 32, digit 24, digit 16, digit 8, digit 0,
    Nat.pow_zero, Nat.div_one]

/-- A number is read back as it was written. -/
theorem fromBe64_be64 {x : Int} (h : InI64 x) : fromBe64 (be64 x) = some x := by
  rw [fromBe64, if_pos (length_be64 x), foldl_be64]
  simp only [InI64, i64Min, i64Max] at h
  simp only [Option.some.injEq]
  split <;> omega

theorem fromBe32_be32 {x : Int} (h : -2 ^ 31 ≤ x) (h' : x < 2 ^ 31) :
    fromBe32 (be32 x) = some x := by
  have hlo : (be32 x).foldl (fun n b => n * 256 + b.toNat) 0 = (x % 2 ^ 32).toNat := by
    have hmo : (x % 2 ^ 64).toNat % 2 ^ 32 = (x % 2 ^ 32).toNat := by omega
    generalize hm : (x % 2 ^ 64).toNat = m at hmo
    simp only [be32, be64, hm, List.map_cons, List.map_nil, List.drop_succ_cons, List.drop_zero,
      List.foldl_cons, List.foldl_nil, UInt8.toNat_ofNat']
    omega
  have hl : (be32 x).length = 4 := rfl
  rw [fromBe32, if_pos hl, hlo]
  simp only [Option.some.injEq]
  split <;> omega

/-- The ranges of the bytes that follow a first byte in UTF-8. -/
def utf8Following (b : UInt8) : Option (List (UInt8 × UInt8)) :=
  if 0xc2 ≤ b ∧ b ≤ 0xdf then some [(0x80, 0xbf)]
  else if b = 0xe0 then some [(0xa0, 0xbf), (0x80, 0xbf)]
  else if b = 0xed then some [(0x80, 0x9f), (0x80, 0xbf)]
  else if 0xe1 ≤ b ∧ b ≤ 0xef then some [(0x80, 0xbf), (0x80, 0xbf)]
  else if b = 0xf0 then some [(0x90, 0xbf), (0x80, 0xbf), (0x80, 0xbf)]
  else if 0xf1 ≤ b ∧ b ≤ 0xf3 then some [(0x80, 0xbf), (0x80, 0xbf), (0x80, 0xbf)]
  else if b = 0xf4 then some [(0x80, 0x8f), (0x80, 0xbf), (0x80, 0xbf)]
  else none

/-- The bytes are UTF-8 after a character of which bytes in the ranges `pending` are still to come. -/
def validUtf8From : List (UInt8 × UInt8) → Bytes → Bool
  | [], [] => true
  | _ :: _, [] => false
  | (lo, hi) :: pending, b :: bytes => lo ≤ b && b ≤ hi && validUtf8From pending bytes
  | [], b :: bytes =>
    if b < 0x80 then validUtf8From [] bytes
    else
      match utf8Following b with
      | some pending => validUtf8From pending bytes
      | none => false

/-- `String::from_utf8` accepts the bytes. -/
def validUtf8 (bytes : Bytes) : Bool := validUtf8From [] bytes

structure Hash32 where
  bytes : Bytes
  length_eq : bytes.length = 32
  deriving DecidableEq

namespace Hash32

theorem length_replicate (byte : UInt8) : (List.replicate 32 byte).length = 32 :=
  List.length_replicate

/-- `Hash32::try_from`. -/
def ofBytes? (bytes : Bytes) : Option Hash32 :=
  if h : bytes.length = 32 then some ⟨bytes, h⟩ else none

def zero : Hash32 := ⟨List.replicate 32 0, by simp⟩

theorem ext {a b : Hash32} (h : a.bytes = b.bytes) : a = b := by
  cases a
  cases b
  simpa using h

@[simp] theorem ofBytes?_bytes (a : Hash32) : ofBytes? a.bytes = some a := dif_pos a.length_eq

end Hash32

/-- `BlockId`: equality is that of all 32 bytes. -/
abbrev BlockId := Hash32

namespace BlockId

def new (height : Int) (hash : Hash32) : BlockId where
  bytes := be64 height ++ hash.bytes.drop 8
  length_eq := by simp [hash.length_eq]

def height (id : BlockId) : Int := (fromBe64 (id.bytes.take 8)).getD 0

theorem height_new {x : Int} (h : InI64 x) (hash : Hash32) : (new x hash).height = x := by
  have ht : (be64 x ++ hash.bytes.drop 8).take 8 = be64 x := List.take_left' (length_be64 x)
  rw [height, new, ht, fromBe64_be64 h]
  rfl

end BlockId

end RustTron
