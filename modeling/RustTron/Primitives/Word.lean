import RustTron.Primitives.Bytes

/-!
# Words of the virtual machine

A word is a 256-bit integer. Where the machine needs an amount or a count it reads the word as an
`i64` or an `i32`, and one that is too large as the largest of these.

## Main definitions

* `Word`, `Word.fromBeBytes`, `Word.toBeBytes`: words, and their 32 bytes
* `Word.toI64Safe`, `Word.toI32Safe`: a word as an `i64` or an `i32`
* `Word.toTronAddress`, `Word.addressWord`: words and addresses
* `Word.signedDiv`, `Word.shl`, `Word.signExtend`, ..: the arithmetic of the machine
-/

namespace RustTron

abbrev Word : Type := BitVec 256

namespace Word

/-! ## Conversions -/

def toI64Safe (word : Word) : Int := if (word.toNat : Int) > i64Max then i64Max else word.toNat

def toI32Safe (word : Word) : Nat :=
  if word.toNat > 2147483647 then 2147483647 else word.toNat

def fromBeBytes (bytes : Bytes) : Word :=
  BitVec.ofNat 256 (bytes.foldl (fun n b => n * 256 + b.toNat) 0)

def toBeBytes (word : Word) : Bytes :=
  (List.range 32).map fun i => UInt8.ofNat (word.toNat / 256 ^ (31 - i))

/-- `from_u64`, of an amount that is not negative: `v.max(0) as u64`. -/
def ofI64 (n : Int) : Word := BitVec.ofNat 256 n.toNat

/-- `from_u64`, of a length. -/
def ofLength (n : Nat) : Word := BitVec.ofNat 256 n

def leadingZeros (word : Word) : Nat :=
  256 - if word.toNat = 0 then 0 else word.toNat.log2 + 1

def bytesOccupied (word : Word) : Nat := (256 - word.leadingZeros + 7) / 8

def noLeadingZeroBytes (word : Word) : Bytes := word.toBeBytes.dropWhile (· = 0)

/-- `to_tron_address`: the last twenty bytes under the prefix of the network. -/
def toTronAddress (word : Word) : Bytes := 0x41 :: word.toBeBytes.drop 12

def addressWord (address : Bytes) : Word := fromBeBytes (address.drop 1)

/-- One or zero. -/
def ofBool (b : Bool) : Word := if b then 1 else 0

/-! ## Arithmetic -/

def bit (word : Word) (index : Nat) : Bool := word.getLsbD index

def isNegative (word : Word) : Bool := word.bit 255

def unsignedDiv (a b : Word) : Word := if b = 0 then 0 else a / b

def unsignedRem (a b : Word) : Word := if b = 0 then 0 else a % b

def signedCmp (a b : Word) : Ordering :=
  match a.isNegative, b.isNegative with
  | true, false => .lt
  | false, true => .gt
  | _, _ => compare a.toNat b.toNat

/-- The magnitude of a word read as signed. -/
def magnitude (word : Word) : Word := if word.isNegative then -word else word

def signedDiv (a b : Word) : Word :=
  if b = 0 then 0
  else
    let q := unsignedDiv a.magnitude b.magnitude
    if a.isNegative ^^ b.isNegative then -q else q

def signedRem (a b : Word) : Word :=
  if b = 0 then 0
  else
    let r := unsignedRem a.magnitude b.magnitude
    if a.isNegative then -r else r

def shl (word shift : Word) : Word :=
  if shift.toI32Safe ≥ 256 then 0 else word <<< shift.toI32Safe

def shr (word shift : Word) : Word :=
  if shift.toI32Safe ≥ 256 then 0 else word >>> shift.toI32Safe

def sar (word shift : Word) : Word :=
  let s := shift.toI32Safe
  if s ≥ 256 then if word.isNegative then BitVec.allOnes 256 else 0
  else if word.isNegative then word >>> s ||| BitVec.allOnes 256 <<< (256 - s)
  else word.shr shift

def signExtend (word byte : Word) : Word :=
  let b := byte.toI32Safe
  if b ≥ 32 then word
  else
    let bit := b * 8 + 7
    if word.bit bit then word ||| BitVec.allOnes 256 <<< (bit + 1)
    else word &&& ((1 : Word) <<< (bit + 1) - 1)

/-- `add_mod`, of two words below the modulus. -/
def addMod (a b m : Word) : Word :=
  let gap := m - b
  if a ≥ gap then a - gap else a + b

/-- The loop of `modular`: multiplication by doubling and adding, one bit of `b` at a time. -/
def mulModLoop (m : Word) : Nat → Word → Word → Word → Word
  | 0, out, _, _ => out
  | n + 1, out, a, b =>
    if b = 0 then out
    else mulModLoop m n (if b.bit 0 then addMod out a m else out) (addMod a a m) (b.shr 1)

def modular (a b m : Word) (multiply : Bool) : Word :=
  if m = 0 then 0
  else
    let a := unsignedRem a m
    let b := unsignedRem b m
    if multiply then mulModLoop m 256 0 a b else addMod a b m

/-- The loop of `exp`: squaring and multiplying, one bit of the exponent at a time. -/
def expLoop : Nat → Word → Word → Word → Word
  | 0, out, _, _ => out
  | n + 1, out, a, p =>
    if p = 0 then out else expLoop n (if p.bit 0 then out * a else out) (a * a) (p.shr 1)

/-- The power that `EXP` pushes. -/
def exp (a p : Word) : Word := expLoop 256 1 a p

end Word

end RustTron
