import RustTron.Consensus.Voting
import RustTron.State.Stores

/-!
# Proposals

A witness proposes new values for the parameters of the chain, and the other witnesses approve of
the proposal or not. The proposals stand in a store of their own; their checks and the writes of
their parameters read the properties under their names.

## Main definitions

* `Proposal`, `Governance`: a proposal, and the stores of proposals
* `Governance.dynamicLong`, `saveDynamicLong`: the properties under their names
* `validateProposalParameter`: the checks of a parameter
* `ProposalCreate`, `ProposalApprove`, `ProposalDelete`: the actuators

## Main results

* `dynamicRaw_putDynamic_self`, `dynamicRaw_putDynamic_of_ne`: a property is read as it was written
-/

namespace RustTron

open Actuator (Outcome)
open Consensus (StateError)

/-! ## State -/

/-- `proposal::State`. -/
inductive ProposalState where
  | pending
  | disapproved
  | approved
  | canceled
  deriving DecidableEq, Repr

structure Proposal where
  proposalId : Int
  proposerAddress : Bytes
  parameters : FMap Int Int
  expirationTime : Int
  createTime : Int
  approvals : List Bytes
  state : ProposalState

/-- The names of the properties, `dynamic::KEYS`. -/
def dynamicKeys : List String :=
  ["LATEST_BLOCK_HEADER_TIMESTAMP", "LATEST_BLOCK_HEADER_NUMBER", "LATEST_BLOCK_HEADER_HASH",
    "STATE_FLAG", "LATEST_SOLIDIFIED_BLOCK_NUM", "LATEST_PROPOSAL_NUM", "LATEST_EXCHANGE_NUM",
    "BLOCK_FILLED_SLOTS", "BLOCK_FILLED_SLOTS_INDEX", "NEXT_MAINTENANCE_TIME", "MAX_FROZEN_TIME",
    "MIN_FROZEN_TIME", "MAX_FROZEN_SUPPLY_NUMBER", "MAX_FROZEN_SUPPLY_TIME",
    "MIN_FROZEN_SUPPLY_TIME", "WITNESS_ALLOWANCE_FROZEN_TIME", "MAINTENANCE_TIME_INTERVAL",
    "ACCOUNT_UPGRADE_COST", "WITNESS_PAY_PER_BLOCK", "WITNESS_127_PAY_PER_BLOCK",
    "WITNESS_STANDBY_ALLOWANCE", "ENERGY_FEE", "MAX_CPU_TIME_OF_ONE_TX", "CREATE_ACCOUNT_FEE",
    "CREATE_NEW_ACCOUNT_FEE_IN_SYSTEM_CONTRACT", "CREATE_NEW_ACCOUNT_BANDWIDTH_RATE",
    "TRANSACTION_FEE", "ASSET_ISSUE_FEE", "UPDATE_ACCOUNT_PERMISSION_FEE", "MULTI_SIGN_FEE",
    "SHIELDED_TRANSACTION_FEE", "SHIELDED_TRANSACTION_CREATE_ACCOUNT_FEE",
    "TOTAL_SHIELDED_POOL_VALUE", "EXCHANGE_CREATE_FEE", "EXCHANGE_BALANCE_LIMIT",
    "TOTAL_TRANSACTION_COST", "TOTAL_CREATE_ACCOUNT_COST", "TOTAL_CREATE_WITNESS_COST",
    "TOTAL_STORAGE_POOL", "TOTAL_STORAGE_TAX", "TOTAL_STORAGE_RESERVED",
    "STORAGE_EXCHANGE_TAX_RATE", "VERSION_NUMBER", "REMOVE_THE_POWER_OF_THE_GR",
    "ALLOW_DELEGATE_RESOURCE", "ALLOW_ADAPTIVE_ENERGY", "ALLOW_UPDATE_ACCOUNT_NAME",
    "ALLOW_SAME_TOKEN_NAME", "ALLOW_CREATION_OF_CONTRACTS", "TOTAL_SIGN_NUM", "ALLOW_MULTI_SIGN",
    "TOKEN_ID_NUM", "TOKEN_UPDATE_DONE", "ABI_MOVE_DONE", "ALLOW_TVM_TRANSFER_TRC10",
    "ALLOW_SHIELDED_TRANSACTION", "ALLOW_SHIELDED_TRC20_TRANSACTION", "ALLOW_TVM_ISTANBUL",
    "ALLOW_TVM_CONSTANTINOPLE", "ALLOW_TVM_SOLIDITY_059", "FORBID_TRANSFER_TO_CONTRACT",
    "ALLOW_PROTO_FILTER_NUM", "AVAILABLE_CONTRACT_TYPE", "ACTIVE_DEFAULT_OPERATIONS",
    "ALLOW_ACCOUNT_STATE_ROOT", "CURRENT_CYCLE_NUMBER", "CHANGE_DELEGATION", "ALLOW_PBFT",
    "ALLOW_MARKET_TRANSACTION", "MARKET_SELL_FEE", "MARKET_CANCEL_FEE", "MARKET_QUANTITY_LIMIT",
    "ALLOW_TRANSACTION_FEE_POOL", "TRANSACTION_FEE_POOL", "MAX_FEE_LIMIT", "BURN_TRX_AMOUNT",
    "ALLOW_BLACKHOLE_OPTIMIZATION", "ALLOW_NEW_RESOURCE_MODEL", "ALLOW_TVM_FREEZE",
    "ALLOW_TVM_VOTE", "ALLOW_TVM_LONDON", "ALLOW_TVM_COMPATIBLE_EVM",
    "NEW_REWARD_ALGORITHM_EFFECTIVE_CYCLE", "ALLOW_ACCOUNT_ASSET_OPTIMIZATION",
    "ALLOW_ASSET_OPTIMIZATION", "ENERGY_PRICE_HISTORY", "ENERGY_PRICE_HISTORY_DONE",
    "BANDWIDTH_PRICE_HISTORY", "BANDWIDTH_PRICE_HISTORY_DONE", "SET_BLACKHOLE_ACCOUNT_PERMISSION",
    "ALLOW_HIGHER_LIMIT_FOR_MAX_CPU_TIME_OF_ONE_TX", "ALLOW_NEW_REWARD", "MEMO_FEE",
    "MEMO_FEE_HISTORY", "ALLOW_DELEGATE_OPTIMIZATION", "ALLOW_DYNAMIC_ENERGY",
    "DYNAMIC_ENERGY_THRESHOLD", "DYNAMIC_ENERGY_INCREASE_FACTOR", "DYNAMIC_ENERGY_MAX_FACTOR",
    "UNFREEZE_DELAY_DAYS", "ALLOW_OPTIMIZED_RETURN_VALUE_OF_CHAIN_ID", "ALLOW_TVM_SHANGHAI",
    "ALLOW_CANCEL_ALL_UNFREEZE_V2", "MAX_DELEGATE_LOCK_PERIOD", "ALLOW_OLD_REWARD_OPT",
    "ALLOW_ENERGY_ADJUSTMENT", "MAX_CREATE_ACCOUNT_TX_SIZE", "ALLOW_STRICT_MATH",
    "CONSENSUS_LOGIC_OPTIMIZATION", "ALLOW_TVM_CANCUN", "ALLOW_TVM_BLOB", "PROPOSAL_EXPIRE_TIME",
    "ALLOW_TVM_SELFDESTRUCT_RESTRICTION", "ALLOW_TVM_OSAKA", "ALLOW_TVM_PRAGUE",
    "BLOCK_HASH_HISTORY_INSTALLED", "ALLOW_HARDEN_RESOURCE_CALCULATION",
    "ALLOW_HARDEN_EXCHANGE_CALCULATION", "TURKISH_KEY_MIGRATION_DONE", "ONE_DAY_NET_LIMIT",
    "PUBLIC_NET_USAGE", "PUBLIC_NET_LIMIT", "PUBLIC_NET_TIME", "FREE_NET_LIMIT",
    "TOTAL_NET_WEIGHT", "TOTAL_NET_LIMIT", "TOTAL_ENERGY_TARGET_LIMIT",
    "TOTAL_ENERGY_CURRENT_LIMIT", "TOTAL_ENERGY_AVERAGE_USAGE", "TOTAL_ENERGY_AVERAGE_TIME",
    "TOTAL_ENERGY_WEIGHT", "TOTAL_TRON_POWER_WEIGHT", "TOTAL_ENERGY_LIMIT", "BLOCK_ENERGY_USAGE",
    "ADAPTIVE_RESOURCE_LIMIT_MULTIPLIER", "ADAPTIVE_RESOURCE_LIMIT_TARGET_RATIO"]
/-- The stores that proposals work on: a property that staking and voting read is a row of theirs,
and every other one stands under its name. -/
structure Governance where
  world : World := {}
  proposals : FMap Int Proposal := ∅
  properties : FMap String Bytes := ∅

/-- The property of staking and voting with this name. -/
def propertyOf (name : String) : Option Property := Property.all.find? fun p => p.name = name

theorem propertyOf_eq_some {name : String} {p : Property} (h : propertyOf name = some p) :
    p.name = name := by
  simpa using List.find?_some h

namespace Governance

/-- The row of a property. -/
def dynamicRaw (g : Governance) (name : String) : Option Bytes :=
  match propertyOf name with
  | some p => g.world.dynamicProperties.lookup p
  | none => g.properties.lookup name

/-- Write the row of a property. -/
def putDynamic (g : Governance) (name : String) (bytes : Bytes) : Governance :=
  match propertyOf name with
  | some p =>
    { g with
      world := { g.world with dynamicProperties := g.world.dynamicProperties.insert p bytes } }
  | none => { g with properties := g.properties.insert name bytes }

variable {g : Governance} {name name' : String} {bytes : Bytes}

theorem dynamicRaw_putDynamic_self : (g.putDynamic name bytes).dynamicRaw name = some bytes := by
  unfold putDynamic dynamicRaw
  cases hp : propertyOf name <;> exact Finmap.lookup_insert _

theorem dynamicRaw_putDynamic_of_ne (h : name' ≠ name) :
    (g.putDynamic name bytes).dynamicRaw name' = g.dynamicRaw name' := by
  unfold putDynamic dynamicRaw
  cases hp : propertyOf name with
  | none =>
    cases propertyOf name' with
    | none => exact Finmap.lookup_insert_of_ne _ h
    | some p' => rfl
  | some p =>
    cases hp' : propertyOf name' with
    | none => rfl
    | some p' =>
      apply Finmap.lookup_insert_of_ne
      rintro rfl
      exact h ((propertyOf_eq_some hp').symm.trans (propertyOf_eq_some hp))

@[simp] theorem proposals_putDynamic : (g.putDynamic name bytes).proposals = g.proposals := by
  unfold putDynamic
  split <;> rfl

/-- `dynamic_long`, of the consensus. -/
def dynamicLong (g : Governance) (name : String) : Except StateError Int :=
  match if name ∈ dynamicKeys then g.dynamicRaw name else none with
  | none => .error (.missingDynamic name)
  | some bytes =>
    match fromBe64 bytes with
    | some value => .ok value
    | none => .error (.invalidDynamic name bytes.length)

/-- `dynamic_long`, with `unwrap_or`. -/
def longOr (g : Governance) (name : String) (default : Int) : Int :=
  (g.dynamicLong name).toOption.getD default

def saveDynamicLong (g : Governance) (name : String) (value : Int) : Except StateError Governance :=
  if name ∈ dynamicKeys then .ok (g.putDynamic name (be64 value))
  else .error (.missingDynamic name)

def saveDynamicInt (g : Governance) (name : String) (value : Int) : Except StateError Governance :=
  if name ∈ dynamicKeys then .ok (g.putDynamic name (be32 value))
  else .error (.missingDynamic name)

/-- `dynamic_long`, of an actuator. -/
def long (g : Governance) (name : String) : Outcome Int :=
  if name ∈ dynamicKeys then
    match g.dynamicRaw name with
    | none => .error (.execution ("missing dynamic property " ++ name))
    | some bytes =>
      match fromBe64 bytes with
      | some value => .ok value
      | none => .error (.execution
          ("invalid dynamic property " ++ name ++ " length " ++ toString bytes.length))
  else .error (.execution ("unknown dynamic property " ++ name))

/-- `enabled`, of the checks of a parameter. -/
def enabled (g : Governance) (name : String) : Bool := g.longOr name 0 ≠ 0

theorem dynamicLong_congr {g' : Governance} (h : g'.dynamicRaw name = g.dynamicRaw name) :
    g'.dynamicLong name = g.dynamicLong name := by
  unfold dynamicLong
  rw [h]

theorem longOr_congr {g' : Governance} (h : g'.dynamicRaw name = g.dynamicRaw name)
    (default : Int) : g'.longOr name default = g.longOr name default := by
  rw [longOr, longOr, dynamicLong_congr h]

theorem longOr_of_long {x : Int} (h : g.long name = .ok x) (default : Int) :
    g.longOr name default = x := by
  unfold long at h
  split at h
  · next hk =>
    rw [longOr, dynamicLong, if_pos hk]
    rcases hr : g.dynamicRaw name with _ | bytes <;> rw [hr] at h
    · cases h
    · dsimp only at h ⊢
      rcases hx : fromBe64 bytes with _ | y <;> rw [hx] at h
      · cases h
      · cases h
        rfl
  · cases h

theorem longOr_putDynamic_self {x : Int} (hk : name ∈ dynamicKeys) (hx : InI64 x)
    (default : Int) : (g.putDynamic name (be64 x)).longOr name default = x := by
  simp [longOr, dynamicLong, hk, dynamicRaw_putDynamic_self, fromBe64_be64 hx, Except.toOption]

end Governance

/-! ## The parameters of a proposal -/

namespace Actuator

/-- `hex_bytes` and `require_account`. -/
def requireAccount (g : Governance) (address : Bytes) : Outcome Unit :=
  refuseIf (g.world.accounts.get address = none) ("Account[" ++ hex address ++ "] not exists")

def requireWitness (g : Governance) (address : Bytes) : Outcome Unit :=
  refuseIf (g.world.witnesses.lookup address = none) ("Witness[" ++ hex address ++ "] not exists")

def proposal (g : Governance) (id : Int) : Outcome Proposal :=
  match g.proposals.lookup id with
  | some p => .ok p
  | none => .error (.validation ("Proposal[" ++ toString id ++ "] not exists"))

def one (value : Int) (name : String) : Outcome Unit :=
  refuseIf (value ≠ 1) ("This value[" ++ name ++ "] is only allowed to be 1")

def boolean (value : Int) (name : String) : Outcome Unit :=
  refuseIf (value ≠ 0 ∧ value ≠ 1) ("This value[" ++ name ++ "] is only allowed to be 1 or 0")

def range (value min max : Int) : Outcome Unit :=
  refuseIf (value < min ∨ max < value)
    ("Bad chain parameter value, valid range is [" ++ toString min ++ "," ++ toString max ++ "]")

def longValue : Int := 100000000000000000

def validIds : List Int :=
  [0, 1, 2, 3, 4, 5, 6, 7, 8, 9, 10, 11, 12, 13, 14, 15, 16, 17, 18, 19, 20, 21, 22, 23, 24, 25,
    26, 29, 30, 32, 33, 35, 39, 40, 41, 44, 45, 46, 47, 48, 49, 51, 52, 53, 59, 60, 61, 62, 63,
    65, 66, 67, 68, 69, 70, 71, 72, 73, 74, 75, 76, 77, 78, 79, 81, 82, 83, 87, 88, 89, 92, 94,
    95, 96, 97, 98]

/-- The parameters whose only check is `one`. -/
def oneIds : List (Int × String) :=
  [(9, "ALLOW_CREATION_OF_CONTRACTS"), (14, "ALLOW_UPDATE_ACCOUNT_NAME"),
    (15, "ALLOW_SAME_TOKEN_NAME"), (16, "ALLOW_DELEGATE_RESOURCE"), (20, "ALLOW_MULTI_SIGN"),
    (21, "ALLOW_ADAPTIVE_ENERGY"), (40, "ALLOW_PBFT"), (41, "ALLOW_TVM_ISTANBUL"),
    (44, "ALLOW_MARKET_TRANSACTION"), (51, "ALLOW_NEW_RESOURCE_MODEL"),
    (53, "ALLOW_ACCOUNT_ASSET_OPTIMIZATION"), (60, "ALLOW_TVM_COMPATIBLE_EVM"),
    (63, "ALLOW_TVM_LONDON"), (65, "ALLOW_HIGHER_LIMIT_FOR_MAX_CPU_TIME_OF_ONE_TX"),
    (66, "ALLOW_ASSET_OPTIMIZATION"), (67, "ALLOW_NEW_REWARD"), (69, "ALLOW_DELEGATE_OPTIMIZATION"),
    (71, "ALLOW_OPTIMIZED_RETURN_VALUE_OF_CHAIN_ID"), (76, "ALLOW_TVM_SHANGHAI"),
    (79, "ALLOW_OLD_REWARD_OPT"), (81, "ALLOW_ENERGY_ADJUSTMENT"), (83, "ALLOW_TVM_CANCUN"),
    (87, "ALLOW_STRICT_MATH"), (88, "CONSENSUS_LOGIC_OPTIMIZATION"), (89, "ALLOW_TVM_BLOB"),
    (94, "ALLOW_TVM_SELFDESTRUCT_RESTRICTION"), (96, "ALLOW_TVM_OSAKA"),
    (97, "ALLOW_HARDEN_RESOURCE_CALCULATION")]

/-- The parameters checked by `one` and then by what must be enabled before them. -/
def dependentIds : List (Int × String × List String) :=
  [(18, "ALLOW_TVM_TRANSFER_TRC10", ["ALLOW_SAME_TOKEN_NAME"]),
    (26, "ALLOW_TVM_CONSTANTINOPLE", ["ALLOW_TVM_TRANSFER_TRC10"]),
    (32, "ALLOW_TVM_SOLIDITY_059", ["ALLOW_CREATION_OF_CONTRACTS"]),
    (35, "FORBID_TRANSFER_TO_CONTRACT", ["ALLOW_CREATION_OF_CONTRACTS"]),
    (52, "ALLOW_TVM_FREEZE", ["ALLOW_DELEGATE_RESOURCE", "ALLOW_MULTI_SIGN",
      "ALLOW_TVM_CONSTANTINOPLE", "ALLOW_TVM_SOLIDITY_059"]),
    (59, "ALLOW_TVM_VOTE", ["ALLOW_CHANGE_DELEGATION"]),
    (77, "ALLOW_CANCEL_ALL_UNFREEZE_V2", ["UNFREEZE_DELAY_DAYS"])]

/-- The parameters whose only check is a range. -/
def rangeIds : List (Int × Int × Int) :=
  [(0, 81000, 86400000), (1, 0, longValue), (2, 0, longValue), (3, 0, longValue),
    (4, 0, longValue), (5, 0, longValue), (6, 0, longValue), (7, 0, longValue), (8, 0, longValue),
    (11, 0, longValue), (17, 0, longValue), (19, 0, longValue), (22, 0, 100000000000),
    (23, 0, 100000000000), (29, 1, 10000), (31, 0, longValue), (33, 1, 1000),
    (45, 0, 10000000000), (46, 0, 10000000000), (61, 0, 100000), (62, 0, 1000000000000),
    (68, 0, 1000000000), (70, 1, 365), (73, 0, longValue), (74, 0, 10000), (75, 0, 100000)]

/-- What must be enabled before a parameter can be proposed. -/
def requireEnabled (g : Governance) (name : String) : List String → Outcome Unit
  | [] => pure ()
  | dependency :: rest => do
    refuseIf (¬ g.enabled dependency) ("[" ++ dependency ++
      "] proposal must be approved before [" ++ name ++ "] can be proposed")
    requireEnabled g name rest

/-- The checks of the parameters that share theirs with no other. -/
def validateSingle (g : Governance) (code value : Int) : Outcome Unit :=
  match code with
  | 10 => do
    refuseIf (g.longOr "REMOVE_THE_POWER_OF_THE_GR" 0 = -1) ("This proposal has been executed " ++
      "before and is only allowed to be executed once")
    one value "REMOVE_THE_POWER_OF_THE_GR"
  | 13 => range value 10
      (if g.enabled "ALLOW_HIGHER_LIMIT_FOR_MAX_CPU_TIME_OF_ONE_TX" then 400 else 100)
  | 47 => range value 0 (if g.enabled "ALLOW_TVM_LONDON" then longValue else 10000000000)
  | 78 =>
    match (g.dynamicRaw "MAX_DELEGATE_LOCK_PERIOD").bind fromBe64 with
    | none => .error (.validation "Bad chain parameter id [MAX_DELEGATE_LOCK_PERIOD]")
    | some current => do
      refuseIf (value ≤ current ∨ value > 10512000)
        ("This value[MAX_DELEGATE_LOCK_PERIOD] is only allowed to be greater than " ++
          toString current ++ " and less than or equal to 10512000 !")
      requireEnabled g "MAX_DELEGATE_LOCK_PERIOD" ["UNFREEZE_DELAY_DAYS"]
  | 82 => refuseIf (value < 500 ∨ 10000 < value)
      ("This value[MAX_CREATE_ACCOUNT_TX_SIZE] is only allowed to be greater than or equal to " ++
        "500 and less than or equal to 10000!")
  | 92 => refuseIf (value ≤ 0 ∨ 31536003000 ≤ value) "Invalid PROPOSAL_EXPIRE_TIME"
  | 95 => do
    refuseIf (¬ g.enabled "ALLOW_TVM_SHANGHAI")
      "[ALLOW_TVM_PRAGUE] requires [ALLOW_TVM_SHANGHAI] to be enacted first"
    one value "ALLOW_TVM_PRAGUE"
  | _ => pure ()

def validateProposalParameter (g : Governance) (code value : Int) : Outcome Unit := do
  refuseIf (code ∉ validIds) "Bad chain parameter id"
  match oneIds.lookup code, dependentIds.lookup code, rangeIds.lookup code with
  | some name, _, _ => one value name
  | none, some (name, dependencies), _ => do
    one value name
    requireEnabled g name dependencies
  | none, none, some (min, max) => range value min max
  | none, none, none =>
    if code ∈ [24, 25, 30, 39, 48, 49, 72, 98] then boolean value "proposal"
    else validateSingle g code value

/-- The checks of all parameters, in the order of their ids. -/
def validateProposalParameters (g : Governance) : List (Int × Int) → Outcome Unit
  | [] => pure ()
  | (code, value) :: rest => do
    validateProposalParameter g code value
    validateProposalParameters g rest

/-! ## The actuators -/

/-- `put_message`, of a proposal. -/
def putProposal (g : Governance) (id : Int) (p : Proposal) : Governance :=
  { g with proposals := g.proposals.insert id p }

/-- `ProposalCreateContract`. -/
structure ProposalCreate where
  ownerAddress : Bytes
  parameters : FMap Int Int

def ProposalCreate.validate (c : ProposalCreate) (g : Governance) : Outcome Unit := do
  refuseIf (¬ validAddress c.ownerAddress) "Invalid address"
  requireAccount g c.ownerAddress
  requireWitness g c.ownerAddress
  refuseIf (FMap.sortedRows (· ≤ ·) c.parameters = []) "This proposal has no parameter."
  validateProposalParameters g (FMap.sortedRows (· ≤ ·) c.parameters)

/-- The expiration time of a proposal made at `now`: the first maintenance time after the whole
periods of `expire`. -/
def expirationTime (now next interval expire : Int) : Int :=
  let round := (wrap (now + expire - next)).tdiv interval
  wrap (next + wrap (wrap (round + 1) * interval))

def ProposalCreate.executeIn (c : ProposalCreate) (g : Governance) : Outcome Governance := do
  let id ← checkedAdd (← g.long "LATEST_PROPOSAL_NUM") 1
  let now ← g.long "LATEST_BLOCK_HEADER_TIMESTAMP"
  let next ← g.long "NEXT_MAINTENANCE_TIME"
  let interval ← g.long "MAINTENANCE_TIME_INTERVAL"
  let expire := g.longOr "PROPOSAL_EXPIRE_TIME" 259200000
  let _ ← checkedAdd now expire
  -- the division of the source panics here
  if interval = 0 then throw (.execution "attempt to divide by zero")
  let proposal : Proposal :=
    { proposalId := id
      proposerAddress := c.ownerAddress
      parameters := c.parameters
      expirationTime := expirationTime now next interval expire
      createTime := now
      approvals := []
      state := .pending }
  pure ((putProposal g id proposal).putDynamic "LATEST_PROPOSAL_NUM" (be64 id))

/-- `ProposalApproveContract`. -/
structure ProposalApprove where
  ownerAddress : Bytes
  proposalId : Int
  isAddApproval : Bool

def ProposalApprove.validate (c : ProposalApprove) (g : Governance) : Outcome Unit := do
  refuseIf (¬ validAddress c.ownerAddress) "Invalid address"
  requireAccount g c.ownerAddress
  requireWitness g c.ownerAddress
  let p ← proposal g c.proposalId
  let now ← g.long "LATEST_BLOCK_HEADER_TIMESTAMP"
  refuseIf (now ≥ p.expirationTime) ("Proposal[" ++ toString c.proposalId ++ "] expired")
  refuseIf (p.state = .canceled) ("Proposal[" ++ toString c.proposalId ++ "] canceled")
  refuseIf (c.isAddApproval ∧ c.ownerAddress ∈ p.approvals) ("Witness[" ++ hex c.ownerAddress ++
    "]has approved proposal[" ++ toString c.proposalId ++ "] before")
  refuseIf (¬ c.isAddApproval ∧ c.ownerAddress ∉ p.approvals) ("Witness[" ++ hex c.ownerAddress ++
    "]has not approved proposal[" ++ toString c.proposalId ++ "] before")

def ProposalApprove.executeIn (c : ProposalApprove) (g : Governance) : Outcome Governance := do
  let p ← proposal g c.proposalId
  let approvals :=
    if c.isAddApproval then p.approvals ++ [c.ownerAddress]
    else p.approvals.filter (· ≠ c.ownerAddress)
  pure (putProposal g p.proposalId { p with approvals })

/-- `ProposalDeleteContract`. -/
structure ProposalDelete where
  ownerAddress : Bytes
  proposalId : Int

def ProposalDelete.validate (c : ProposalDelete) (g : Governance) : Outcome Unit := do
  refuseIf (¬ validAddress c.ownerAddress) "Invalid address"
  requireAccount g c.ownerAddress
  let p ← proposal g c.proposalId
  refuseIf (p.proposerAddress ≠ c.ownerAddress) ("Proposal[" ++ toString c.proposalId ++
    "] is not proposed by " ++ hex c.ownerAddress)
  let now ← g.long "LATEST_BLOCK_HEADER_TIMESTAMP"
  refuseIf (now ≥ p.expirationTime) ("Proposal[" ++ toString c.proposalId ++ "] expired")
  refuseIf (p.state = .canceled) ("Proposal[" ++ toString c.proposalId ++ "] canceled")

def ProposalDelete.executeIn (c : ProposalDelete) (g : Governance) : Outcome Governance := do
  let p ← proposal g c.proposalId
  pure (putProposal g p.proposalId { p with state := .canceled })

end Actuator

end RustTron
