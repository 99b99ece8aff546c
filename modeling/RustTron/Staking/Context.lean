import RustTron.Library.Results
import RustTron.State.Account

/-!
# The context of an actuator

What an actuator may ask of the stores it runs on: accounts, dynamic properties, checked
arithmetic and the reward callback, with the errors each of them gives. An actuator that fails
leaves no state behind, since its session is revoked, so a computation here is a state or an error.
Sums that the source leaves unchecked wrap around, as they do in a release build.

## Main definitions

* `ActuatorError`, `Outcome`: the errors of an actuator, and its results
* `checkedAdd`, `checkedSub`, `checkedMul`, `checkedSum`: arithmetic that reports an overflow
* `wrap`: what unchecked arithmetic leaves in an `i64`
* `account`, `dynamicLong`, `putDynamicLong`, `enabled`: the reads and writes of a context
* `RewardCallback`: the reward accounting that an actuator calls before it changes votes or stake

## Main results

* `checkedAdd_eq_ok_iff`, `dynamicLong_eq_ok_iff`: what a successful computation has computed
-/

namespace RustTron.Actuator

/-! ## Errors and results -/

inductive ActuatorErrorKind where
  | contract
  | store
  | validation
  | execution
  | arithmetic
  deriving DecidableEq, Repr

structure ActuatorError where
  kind : ActuatorErrorKind
  message : String
  deriving DecidableEq, Repr

def ActuatorError.validation (message : String) : ActuatorError := ⟨.validation, message⟩

def ActuatorError.execution (message : String) : ActuatorError := ⟨.execution, message⟩

def ActuatorError.arithmetic (message : String) : ActuatorError := ⟨.arithmetic, message⟩

/-- `Result<α, ActuatorError>`. -/
abbrev Outcome (α : Type) : Type := Except ActuatorError α

/-- An early return of `Err` where the condition holds. -/
def refuseIf (p : Prop) [Decidable p] (message : String) : Outcome Unit :=
  if p then .error (.validation message) else .ok ()

theorem refuseIf_eq_ok_iff {p : Prop} [Decidable p] {message : String} {u : Unit} :
    refuseIf p message = .ok u ↔ ¬ p := by
  unfold refuseIf
  split <;> simp_all

/-! ## Arithmetic -/

def checkedAdd (x y : Int) : Outcome Int :=
  if InI64 (x + y) then .ok (x + y) else .error (.arithmetic "long overflow")

def checkedSub (x y : Int) : Outcome Int :=
  if InI64 (x - y) then .ok (x - y) else .error (.arithmetic "long overflow")

def checkedMul (x y : Int) : Outcome Int :=
  if InI64 (x * y) then .ok (x * y) else .error (.arithmetic "long overflow")

def checkedSum (xs : List Int) : Outcome Int := xs.foldlM checkedAdd 0

/-- The `i64` that unchecked arithmetic leaves, where the exact result is `x`. -/
def wrap (x : Int) : Int := (x + 2 ^ 63) % 2 ^ 64 - 2 ^ 63

/-- An `i64` cut to the range, as `saturating_sub` does. -/
def saturate (x : Int) : Int := max i64Min (min i64Max x)

theorem checkedAdd_eq_ok_iff {x y z : Int} :
    checkedAdd x y = .ok z ↔ InI64 (x + y) ∧ z = x + y := by
  unfold checkedAdd
  split <;> simp_all [eq_comm]

theorem checkedSub_eq_ok_iff {x y z : Int} :
    checkedSub x y = .ok z ↔ InI64 (x - y) ∧ z = x - y := by
  unfold checkedSub
  split <;> simp_all [eq_comm]

theorem checkedMul_eq_ok_iff {x y z : Int} :
    checkedMul x y = .ok z ↔ InI64 (x * y) ∧ z = x * y := by
  unfold checkedMul
  split <;> simp_all [eq_comm]

theorem wrap_of_inI64 {x : Int} (h : InI64 x) : wrap x = x := by
  simp only [InI64, i64Min, i64Max] at h
  unfold wrap
  omega

/-! ## Addresses -/

/-- `valid_address`: 21 bytes, the first of them `0x41`. -/
def validAddress (address : Bytes) : Bool := address.length = 21 ∧ address.head? = some 0x41

def hex (bytes : Bytes) : String :=
  String.ofList (bytes.flatMap fun b => [Nat.digitChar (b.toNat / 16), Nat.digitChar (b.toNat % 16)])

/-! ## Stores -/

/-- `context.decode(StoreKind::Account, ..)`. -/
def account (w : World) (address : Bytes) : Outcome Account :=
  match w.accounts.get address with
  | some a => .ok a
  | none => .error (.validation "Account does not exist")

def save (w : World) (a : Account) : World := { w with accounts := w.accounts.put a }

theorem account_eq_ok_iff {w : World} {address : Bytes} {a : Account} :
    account w address = .ok a ↔ w.accounts.get address = some a := by
  unfold account
  split <;> simp_all

/-- `i32::from_be_bytes`, of a byte string of length four. -/
def fromBe32 (bytes : Bytes) : Option Int :=
  if bytes.length = 4 then
    let n : Nat := bytes.foldl (fun n b => n * 256 + b.toNat) 0
    some (if n < 2 ^ 31 then n else (n : Int) - 2 ^ 32)
  else none

/-- A property through its reader, with the errors of a missing and of a malformed row. -/
def dynamicWith (read : Bytes → Option Int) (w : World) (p : Property) : Outcome Int :=
  match w.dynamicProperties.lookup p with
  | none => .error (.execution ("missing dynamic property " ++ p.name))
  | some bytes =>
    match read bytes with
    | some value => .ok value
    | none => .error (.execution
        ("invalid dynamic property " ++ p.name ++ " length " ++ toString bytes.length))

def dynamicLong : World → Property → Outcome Int := dynamicWith fromBe64

def dynamicInt : World → Property → Outcome Int := dynamicWith fromBe32

def putDynamicLong (w : World) (p : Property) (value : Int) : World :=
  { w with dynamicProperties := w.dynamicProperties.insert p (be64 value) }

def enabled (w : World) (p : Property) : Bool :=
  match dynamicLong w p with
  | .ok value => value = 1
  | .error _ => false

def longOr (w : World) (p : Property) (default : Int) : Int :=
  match dynamicLong w p with
  | .ok value => value
  | .error _ => default

theorem dynamicLong_eq_ok_iff {w : World} {p : Property} {x : Int} :
    dynamicLong w p = .ok x ↔ (w.dynamicProperties.lookup p).bind fromBe64 = some x := by
  unfold dynamicLong dynamicWith
  cases w.dynamicProperties.lookup p with
  | none => simp
  | some bytes => cases h : fromBe64 bytes <;> simp [h]

/-- A property read depends on the property store alone. -/
theorem dynamicLong_congr {w w' : World} (h : w'.dynamicProperties = w.dynamicProperties)
    (p : Property) : dynamicLong w' p = dynamicLong w p := by
  simp only [dynamicLong, dynamicWith, h]

theorem enabled_congr {w w' : World} (h : w'.dynamicProperties = w.dynamicProperties)
    (p : Property) : enabled w' p = enabled w p := by
  simp only [enabled, dynamicLong_congr h]

/-! ## Configuration -/

/-- The account store after a reward: the allowance of the account at `address` may have moved. -/
def Rewarded (address : Bytes) (s s' : Accounts) : Prop :=
  s' = s ∨ ∃ a allowance, s.get address = some a ∧ s' = s.put { a with allowance }

/-- `RewardCallback`: it may credit the allowance of the account it is called for, and touches no
other row of these stores. -/
structure RewardCallback where
  withdrawReward : World → Bytes → Outcome World
  pays : ∀ {w w' : World} {address : Bytes}, withdrawReward w address = .ok w' →
    ∃ accounts, Rewarded address w.accounts accounts ∧ w' = { w with accounts }

/-- The floating-point expressions of the source, as functions of the integers in them. -/
structure FloatArithmetic where
  usageBalance : Int → Int → Int → Int
  scaleVote : Int → Int → Int → Int

structure ExecutionConfig where
  rewardCallback : Option RewardCallback
  float : FloatArithmetic

def withdrawReward (cfg : ExecutionConfig) (w : World) (address : Bytes) : Outcome World :=
  match cfg.rewardCallback with
  | some callback => callback.withdrawReward w address
  | none => .ok w

theorem withdrawReward_pays {cfg : ExecutionConfig} {w w' : World} {address : Bytes}
    (h : withdrawReward cfg w address = .ok w') :
    ∃ accounts, Rewarded address w.accounts accounts ∧ w' = { w with accounts } := by
  unfold withdrawReward at h
  split at h
  · next callback _ => exact callback.pays h
  · cases h
    exact ⟨w.accounts, .inl rfl, rfl⟩

end RustTron.Actuator
