import RustTron.Library.FMap
import RustTron.Primitives.Bytes

/-!
# Accounts, delegations and the properties of the chain

The rows of the stores that staking, voting and billing read and write, decoded. An account is
always stored under its own address: `Accounts` carries that as a field, so that a state with a
misplaced account cannot be built.

## Main definitions

* `Account`, `AccountResource`, `Frozen`, `FreezeV2`, `UnFreezeV2`, `Vote`: the account messages
* `Votes`, `Witness`, `DelegatedResource`, `DelegatedResourceAccountIndex`, `SmartContract`: the
  other rows
* `ResourceCode`: bandwidth, energy and TRON power
* `Accounts`: the account store
* `Property`: the dynamic properties that the modelled code uses
* `World`: the stores together

## Main results

* `Accounts.get_address`: a stored account is stored under its own address
* `Accounts.total_put`: how a sum over the accounts moves when one account is saved
-/

namespace RustTron

/-- `TRX_PRECISION`: one TRX in sun. -/
def trxPrecision : Int := 1000000

inductive ResourceCode where
  | bandwidth
  | energy
  | tronPower
  deriving DecidableEq, Repr

namespace ResourceCode

/-- The number of a resource on the wire. -/
def toI32 : ResourceCode → Int
  | bandwidth => 0
  | energy => 1
  | tronPower => 2

/-- `ResourceCode::try_from`. -/
def ofI32? : Int → Option ResourceCode
  | 0 => some bandwidth
  | 1 => some energy
  | 2 => some tronPower
  | _ => none

def asStrName : ResourceCode → String
  | bandwidth => "BANDWIDTH"
  | energy => "ENERGY"
  | tronPower => "TRON_POWER"

theorem toI32_injective {k k' : ResourceCode} (h : k.toI32 = k'.toI32) : k = k' := by
  cases k <;> cases k' <;> simp_all [toI32]

@[simp] theorem ofI32?_toI32 (k : ResourceCode) : ofI32? k.toI32 = some k := by
  cases k <;> rfl

end ResourceCode

inductive AccountType where
  | normal
  | assetIssue
  | contract
  deriving DecidableEq, Repr

structure Frozen where
  frozenBalance : Int := 0
  expireTime : Int := 0
  deriving DecidableEq, Repr

structure FreezeV2 where
  type : Int := 0
  amount : Int := 0
  deriving DecidableEq, Repr

structure UnFreezeV2 where
  type : Int := 0
  unfreezeAmount : Int := 0
  unfreezeExpireTime : Int := 0
  deriving DecidableEq, Repr

structure Vote where
  voteAddress : Bytes
  voteCount : Int
  deriving DecidableEq, Repr

structure AccountResource where
  energyUsage : Int := 0
  frozenBalanceForEnergy : Option Frozen := none
  latestConsumeTimeForEnergy : Int := 0
  acquiredDelegatedFrozenBalanceForEnergy : Int := 0
  delegatedFrozenBalanceForEnergy : Int := 0
  energyWindowSize : Int := 0
  delegatedFrozenV2BalanceForEnergy : Int := 0
  acquiredDelegatedFrozenV2BalanceForEnergy : Int := 0
  energyWindowOptimized : Bool := false
  deriving DecidableEq, Repr

/-- A key of a `Permission`: an address and its weight. -/
structure PermissionKey where
  address : Bytes
  weight : Int
  deriving DecidableEq, Repr

structure Permission where
  id : Int := 0
  threshold : Int := 0
  keys : List PermissionKey := []
  deriving DecidableEq, Repr

/-- `Account`. The names of the tokens in `assetV2` are the bytes of UTF-8 strings. -/
structure Account where
  address : Bytes
  type : AccountType := .normal
  balance : Int := 0
  votes : List Vote := []
  assetV2 : FMap Bytes Int := ∅
  assetOptimized : Bool := false
  frozen : List Frozen := []
  netUsage : Int := 0
  acquiredDelegatedFrozenBalanceForBandwidth : Int := 0
  delegatedFrozenBalanceForBandwidth : Int := 0
  oldTronPower : Int := 0
  tronPower : Option Frozen := none
  latestOprationTime : Int := 0
  allowance : Int := 0
  freeNetUsage : Int := 0
  latestConsumeTime : Int := 0
  latestConsumeFreeTime : Int := 0
  netWindowSize : Int := 0
  netWindowOptimized : Bool := false
  accountResource : Option AccountResource := none
  frozenV2 : List FreezeV2 := []
  unfrozenV2 : List UnFreezeV2 := []
  delegatedFrozenV2BalanceForBandwidth : Int := 0
  acquiredDelegatedFrozenV2BalanceForBandwidth : Int := 0
  latestWithdrawTime : Int := 0
  ownerPermission : Option Permission := none
  witnessPermission : Option Permission := none
  activePermission : List Permission := []
  deriving DecidableEq

/-- The energy part of an account; an absent one reads as its default. -/
def Account.resource (a : Account) : AccountResource := a.accountResource.getD {}

/-- `Votes`: the votes of an account before and after its changes in the current period. -/
structure Votes where
  address : Bytes
  oldVotes : List Vote
  newVotes : List Vote
  deriving DecidableEq, Repr

structure Witness where
  address : Bytes
  voteCount : Int := 0
  totalProduced : Int := 0
  totalMissed : Int := 0
  latestBlockNum : Int := 0
  latestSlotNum : Int := 0
  isJobs : Bool := false
  deriving DecidableEq, Repr

structure DelegatedResource where
  sender : Bytes
  receiver : Bytes
  frozenBalanceForBandwidth : Int := 0
  frozenBalanceForEnergy : Int := 0
  expireTimeForBandwidth : Int := 0
  expireTimeForEnergy : Int := 0
  deriving DecidableEq, Repr

structure DelegatedResourceAccountIndex where
  account : Bytes
  fromAccounts : List Bytes := []
  toAccounts : List Bytes := []
  timestamp : Int := 0
  deriving DecidableEq, Repr

/-- `SmartContract`, as it is stored: the ABI has a row of its own. -/
structure SmartContract where
  originAddress : Bytes
  contractAddress : Bytes
  consumeUserResourcePercent : Int := 0
  codeHash : Bytes := []
  trxHash : Bytes := []
  version : Int := 0
  deriving DecidableEq, Repr

/-! ## The account store -/

/-- The account store: every account is stored under its own address. -/
structure Accounts where
  rows : FMap Bytes Account
  keyed : ∀ k a, rows.lookup k = some a → a.address = k

namespace Accounts

/-- The account at an address. -/
def get (s : Accounts) (address : Bytes) : Option Account := s.rows.lookup address

/-- The account store with no account. -/
def empty : Accounts := ⟨∅, by simp⟩

/-- Store an account under its address. -/
def put (s : Accounts) (a : Account) : Accounts where
  rows := s.rows.insert a.address a
  keyed := by
    intro k b h
    by_cases hk : k = a.address
    · subst hk
      rw [Finmap.lookup_insert, Option.some.injEq] at h
      rw [← h]
    · rw [Finmap.lookup_insert_of_ne _ hk] at h
      exact s.keyed k b h

theorem get_address {s : Accounts} {k : Bytes} {a : Account} (h : s.get k = some a) :
    a.address = k := s.keyed k a h

@[simp] theorem get_empty (k : Bytes) : empty.get k = none := rfl

@[simp] theorem get_put_self (s : Accounts) (a : Account) : (s.put a).get a.address = some a :=
  Finmap.lookup_insert _

theorem get_put_of_ne (s : Accounts) {a : Account} {k : Bytes} (h : k ≠ a.address) :
    (s.put a).get k = s.get k := Finmap.lookup_insert_of_ne _ h

theorem get_put (s : Accounts) (a : Account) (k : Bytes) :
    (s.put a).get k = if k = a.address then some a else s.get k := by
  split
  · subst k
    exact get_put_self s a
  · exact get_put_of_ne s ‹_›

theorem ext_get {s s' : Accounts} (h : ∀ k, s.get k = s'.get k) : s = s' := by
  cases s
  cases s'
  simp only [mk.injEq]
  exact Finmap.ext_lookup h

theorem put_put (s : Accounts) {a b : Account} (h : b.address = a.address) :
    (s.put a).put b = s.put b := by
  refine ext_get fun k => ?_
  simp only [get_put, h]
  split <;> rfl

theorem put_comm (s : Accounts) {a b : Account} (h : a.address ≠ b.address) :
    (s.put a).put b = (s.put b).put a := by
  refine ext_get fun k => ?_
  simp only [get_put]
  split_ifs <;> simp_all

/-- The sum of `f` over the accounts. -/
def total (f : Account → Int) (s : Accounts) : Int := s.rows.total fun _ a => f a

@[simp] theorem total_empty (f : Account → Int) : total f empty = 0 := rfl

/-- Saving an account that exists replaces its part of the sum. -/
theorem total_put (f : Account → Int) {s : Accounts} {old a : Account}
    (h : s.get a.address = some old) : total f (s.put a) = total f s - f old + f a := by
  have hs := FMap.total_insert (fun _ a => f a) s.rows a.address a
  have hg : s.rows.lookup a.address = some old := h
  simp only [hg] at hs
  simp only [total, put]
  omega

end Accounts

/-! ## The stores together -/

/-- The dynamic properties of the modelled code, by their names. -/
inductive Property where
  | totalNetWeight
  | totalEnergyWeight
  | totalTronPowerWeight
  | totalNetLimit
  | totalEnergyCurrentLimit
  | latestBlockHeaderTimestamp
  | unfreezeDelayDays
  | maxDelegateLockPeriod
  | minFrozenTime
  | maxFrozenTime
  | allowNewResourceModel
  | allowNewReward
  | allowDelegateResource
  | allowDelegateOptimization
  | allowCancelAllUnfreezeV2
  | allowTvmConstantinople
  | allowTvmSolidity059
  | removeThePowerOfTheGr
  | changeDelegation
  | currentCycleNumber
  | witnessStandbyAllowance
  | energyFee
  deriving DecidableEq, Repr

/-- The name of a property in the store. -/
def Property.name : Property → String
  | totalNetWeight => "TOTAL_NET_WEIGHT"
  | totalEnergyWeight => "TOTAL_ENERGY_WEIGHT"
  | totalTronPowerWeight => "TOTAL_TRON_POWER_WEIGHT"
  | totalNetLimit => "TOTAL_NET_LIMIT"
  | totalEnergyCurrentLimit => "TOTAL_ENERGY_CURRENT_LIMIT"
  | latestBlockHeaderTimestamp => "LATEST_BLOCK_HEADER_TIMESTAMP"
  | unfreezeDelayDays => "UNFREEZE_DELAY_DAYS"
  | maxDelegateLockPeriod => "MAX_DELEGATE_LOCK_PERIOD"
  | minFrozenTime => "MIN_FROZEN_TIME"
  | maxFrozenTime => "MAX_FROZEN_TIME"
  | allowNewResourceModel => "ALLOW_NEW_RESOURCE_MODEL"
  | allowNewReward => "ALLOW_NEW_REWARD"
  | allowDelegateResource => "ALLOW_DELEGATE_RESOURCE"
  | allowDelegateOptimization => "ALLOW_DELEGATE_OPTIMIZATION"
  | allowCancelAllUnfreezeV2 => "ALLOW_CANCEL_ALL_UNFREEZE_V2"
  | allowTvmConstantinople => "ALLOW_TVM_CONSTANTINOPLE"
  | allowTvmSolidity059 => "ALLOW_TVM_SOLIDITY_059"
  | removeThePowerOfTheGr => "REMOVE_THE_POWER_OF_THE_GR"
  | changeDelegation => "CHANGE_DELEGATION"
  | currentCycleNumber => "CURRENT_CYCLE_NUMBER"
  | witnessStandbyAllowance => "WITNESS_STANDBY_ALLOWANCE"
  | energyFee => "ENERGY_FEE"

/-- The stores that staking and voting work on. -/
structure World where
  accounts : Accounts := .empty
  delegatedResources : FMap Bytes DelegatedResource := ∅
  accountIndexes : FMap Bytes DelegatedResourceAccountIndex := ∅
  votes : FMap Bytes Votes := ∅
  witnesses : FMap Bytes Witness := ∅
  activeWitnesses : List Bytes := []
  contracts : FMap Bytes SmartContract := ∅
  dynamicProperties : FMap Property Bytes := ∅

end RustTron
