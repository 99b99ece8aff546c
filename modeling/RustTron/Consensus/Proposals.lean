import RustTron.Consensus.Governance

/-!
# The decision of proposals

A scan in every block decides the proposals that are due at the next maintenance time: those with
enough approvals of active witnesses write their parameters. The scan goes down from the newest
proposal and stops at the first one that has been decided. It runs before the maintenance of the
block, which moves the next maintenance time on.

## Main definitions

* `processExpiredProposals`: the scan
* `applyMaintenanceBlock`: the maintenance of a block, due or not
* `Block.apply`: the part of a block that concerns proposals, in the order of the hooks
-/

namespace RustTron.Consensus

open Actuator (ActuatorError Outcome ProposalCreate ProposalApprove ProposalDelete putProposal)

/-! ## The scan -/

structure ParameterRule where
  dynamic : String
  dependsOn : Option (Int × Int)
  oneShot : Bool

def canonicalParameterRules : List (Int × ParameterRule) :=
  rows.map fun row => (row.1, ⟨row.2, none, row.1 ∈ [10, 20, 21, 44, 77]⟩)
where
  /-- The parameters and the properties they are written to. -/
  rows : List (Int × String) :=
    [(0, "MAINTENANCE_TIME_INTERVAL"), (1, "ACCOUNT_UPGRADE_COST"), (2, "CREATE_ACCOUNT_FEE"),
      (3, "TRANSACTION_FEE"), (4, "ASSET_ISSUE_FEE"), (5, "WITNESS_PAY_PER_BLOCK"),
      (6, "WITNESS_STANDBY_ALLOWANCE"), (7, "CREATE_NEW_ACCOUNT_FEE_IN_SYSTEM_CONTRACT"),
      (8, "CREATE_NEW_ACCOUNT_BANDWIDTH_RATE"), (9, "ALLOW_CREATION_OF_CONTRACTS"),
      (10, "REMOVE_THE_POWER_OF_THE_GR"), (11, "ENERGY_FEE"), (12, "EXCHANGE_CREATE_FEE"),
      (13, "MAX_CPU_TIME_OF_ONE_TX"), (14, "ALLOW_UPDATE_ACCOUNT_NAME"),
      (15, "ALLOW_SAME_TOKEN_NAME"), (16, "ALLOW_DELEGATE_RESOURCE"), (17, "TOTAL_ENERGY_LIMIT"),
      (18, "ALLOW_TVM_TRANSFER_TRC10"), (19, "TOTAL_ENERGY_LIMIT"), (20, "ALLOW_MULTI_SIGN"),
      (21, "ALLOW_ADAPTIVE_ENERGY"), (22, "UPDATE_ACCOUNT_PERMISSION_FEE"), (23, "MULTI_SIGN_FEE"),
      (24, "ALLOW_PROTO_FILTER_NUM"), (25, "ALLOW_ACCOUNT_STATE_ROOT"),
      (26, "ALLOW_TVM_CONSTANTINOPLE"), (29, "ADAPTIVE_RESOURCE_LIMIT_MULTIPLIER"),
      (30, "CHANGE_DELEGATION"), (31, "WITNESS_127_PAY_PER_BLOCK"), (32, "ALLOW_TVM_SOLIDITY_059"),
      (33, "ADAPTIVE_RESOURCE_LIMIT_TARGET_RATIO"), (35, "FORBID_TRANSFER_TO_CONTRACT"),
      (39, "ALLOW_SHIELDED_TRC20_TRANSACTION"), (40, "ALLOW_PBFT"), (41, "ALLOW_TVM_ISTANBUL"),
      (44, "ALLOW_MARKET_TRANSACTION"), (45, "MARKET_SELL_FEE"), (46, "MARKET_CANCEL_FEE"),
      (47, "MAX_FEE_LIMIT"), (48, "ALLOW_TRANSACTION_FEE_POOL"),
      (49, "ALLOW_BLACKHOLE_OPTIMIZATION"), (51, "ALLOW_NEW_RESOURCE_MODEL"),
      (52, "ALLOW_TVM_FREEZE"), (53, "ALLOW_ACCOUNT_ASSET_OPTIMIZATION"), (59, "ALLOW_TVM_VOTE"),
      (60, "ALLOW_TVM_COMPATIBLE_EVM"), (61, "FREE_NET_LIMIT"), (62, "TOTAL_NET_LIMIT"),
      (63, "ALLOW_TVM_LONDON"), (65, "ALLOW_HIGHER_LIMIT_FOR_MAX_CPU_TIME_OF_ONE_TX"),
      (66, "ALLOW_ASSET_OPTIMIZATION"), (67, "ALLOW_NEW_REWARD"), (68, "MEMO_FEE"),
      (69, "ALLOW_DELEGATE_OPTIMIZATION"), (70, "UNFREEZE_DELAY_DAYS"),
      (71, "ALLOW_OPTIMIZED_RETURN_VALUE_OF_CHAIN_ID"), (72, "ALLOW_DYNAMIC_ENERGY"),
      (73, "DYNAMIC_ENERGY_THRESHOLD"), (74, "DYNAMIC_ENERGY_INCREASE_FACTOR"),
      (75, "DYNAMIC_ENERGY_MAX_FACTOR"), (76, "ALLOW_TVM_SHANGHAI"),
      (77, "ALLOW_CANCEL_ALL_UNFREEZE_V2"), (78, "MAX_DELEGATE_LOCK_PERIOD"),
      (79, "ALLOW_OLD_REWARD_OPT"), (81, "ALLOW_ENERGY_ADJUSTMENT"),
      (82, "MAX_CREATE_ACCOUNT_TX_SIZE"), (83, "ALLOW_TVM_CANCUN"), (87, "ALLOW_STRICT_MATH"),
      (88, "CONSENSUS_LOGIC_OPTIMIZATION"), (89, "ALLOW_TVM_BLOB"), (92, "PROPOSAL_EXPIRE_TIME"),
      (94, "ALLOW_TVM_SELFDESTRUCT_RESTRICTION"), (95, "ALLOW_TVM_PRAGUE"), (96, "ALLOW_TVM_OSAKA"),
      (97, "ALLOW_HARDEN_RESOURCE_CALCULATION"), (98, "ALLOW_HARDEN_EXCHANGE_CALCULATION")]
structure ProposalHistory where
  id : Int
  approved : Bool
  activeApprovals : Nat
  activeWitnesses : Nat
  writes : List (String × Int)

structure ProposalScan where
  examined : List Int
  history : List ProposalHistory

def approvalThreshold (active : Nat) : Nat := active * 7 / 10

/-- The approvals that are of active witnesses. -/
def activeApprovals (p : Proposal) (active : List Bytes) : Nat :=
  p.approvals.countP (· ∈ active)

/-- A dependency of a rule is not met: its value in the proposal, or else in the state, is another
one than required. -/
def dependencyMissing (rules : List (Int × ParameterRule)) (g : Governance) (params : FMap Int Int)
    (rule : ParameterRule) : Bool :=
  match rule.dependsOn with
  | none => false
  | some (dependency, required) =>
    let stored := (rules.lookup dependency).bind fun r => (g.dynamicLong r.dynamic).toOption
    ((params.lookup dependency <|> stored).getD 0) ≠ required

/-- The loop of `apply_parameters`, with the writes so far. -/
def applyParametersFrom (rules : List (Int × ParameterRule)) (params : FMap Int Int) :
    List (Int × Int) → Governance → List (String × Int) →
      Except StateError (Governance × List (String × Int))
  | [], g, writes => pure (g, writes)
  | (id, value) :: rest, g, writes =>
    match rules.lookup id with
    | none => applyParametersFrom rules params rest g writes
    | some rule =>
      if dependencyMissing rules g params rule then applyParametersFrom rules params rest g writes
      else if rule.oneShot ∧ g.longOr rule.dynamic 0 ≠ 0 then
        applyParametersFrom rules params rest g writes
      else do
        let g ← g.saveDynamicLong rule.dynamic value
        applyParametersFrom rules params rest g (writes ++ [(rule.dynamic, value)])

def applyParameters (rules : List (Int × ParameterRule)) (g : Governance) (params : FMap Int Int) :
    Except StateError (Governance × List (String × Int)) :=
  applyParametersFrom rules params (FMap.sortedRows (· ≤ ·) params) g []

/-- The decision on a proposal. -/
def decideProposal (rules : List (Int × ParameterRule)) (active : List Bytes) (g : Governance)
    (id : Int) (p : Proposal) : Except StateError (Governance × ProposalHistory) := do
  let activeApprovals := activeApprovals p active
  let approved := decide (approvalThreshold active.length ≤ activeApprovals)
  let (g, writes) ← (if approved then applyParameters rules g p.parameters else pure (g, []))
  let state := if approved then .approved else .disapproved
  pure (putProposal g id { p with state },
    ⟨id, approved, activeApprovals, active.length, writes⟩)

/-- The loop of `process_expired_proposals` over the ids that are left. -/
def scanFrom (rules : List (Int × ParameterRule)) (now : Int) (active : List Bytes) :
    List Int → Governance → ProposalScan → Except StateError (Governance × ProposalScan)
  | [], g, scan => pure (g, scan)
  | id :: ids, g, scan =>
    match g.proposals.lookup id with
    | none => scanFrom rules now active ids g scan
    | some p =>
      let scan := { scan with examined := scan.examined ++ [id] }
      if p.state = .approved ∨ p.state = .disapproved then pure (g, scan)
      else if p.state = .canceled ∨ p.expirationTime > now then
        scanFrom rules now active ids g scan
      else do
        let (g, entry) ← decideProposal rules active g id p
        scanFrom rules now active ids g { scan with history := scan.history ++ [entry] }

/-- `(1..=latest).rev()`. -/
def idsDownFrom (latest : Int) : List Int :=
  ((List.range latest.toNat).map fun n : Nat => (n : Int) + 1).reverse

def processExpiredProposals (rules : List (Int × ParameterRule)) (g : Governance) :
    Except StateError (Governance × ProposalScan) := do
  let latest := g.longOr "LATEST_PROPOSAL_NUM" 0
  let now ← g.dynamicLong "NEXT_MAINTENANCE_TIME"
  scanFrom rules now g.world.activeWitnesses (idsDownFrom latest) g ⟨[], []⟩

/-! ## Maintenance -/

def advanceMaintenance (current blockTime interval : Int) : Except StateError Int :=
  if interval ≤ 0 then .error (.arithmeticOverflow "maintenance interval")
  else
    let next := current + ((blockTime - current).tdiv interval + 1) * interval
    if InI64 next then .ok next else .error (.arithmeticOverflow "next maintenance time")

structure MaintenanceOutcome where
  applied : Bool
  before : List Bytes
  current : List Bytes
  consumedVoteRows : Nat
  nextMaintenanceTime : Int
  cycle : Int

def applyMaintenanceBlock (cfg : MaintenanceConfig) (number time : Int) (g : Governance) :
    Except StateError (Governance × MaintenanceOutcome) := do
  let previousNext ← g.dynamicLong "NEXT_MAINTENANCE_TIME"
  let due := decide (previousNext ≤ time)
  let before := g.world.activeWitnesses
  let (world, current, consumed, cycle) ←
    (if due ∧ number ≠ 1 then doMaintenance cfg g.world
    else pure (g.world, before, 0, Consensus.longOr g.world .currentCycleNumber 0))
  let g := { g with world }
  let next ←
    (if due then do
      advanceMaintenance previousNext time (← g.dynamicLong "MAINTENANCE_TIME_INTERVAL")
    else pure previousNext)
  let g ← (if due then g.saveDynamicLong "NEXT_MAINTENANCE_TIME" next else pure g)
  let g ← g.saveDynamicInt "STATE_FLAG" (if due then 1 else 0)
  pure (g, ⟨due ∧ number ≠ 1, before, current, consumed, next, cycle⟩)

/-! ## Blocks -/

/-- The properties that proposals and maintenance times are counted by. -/
def governingNames : List String :=
  ["LATEST_PROPOSAL_NUM", "NEXT_MAINTENANCE_TIME", "MAINTENANCE_TIME_INTERVAL",
    "LATEST_BLOCK_HEADER_TIMESTAMP", "LATEST_BLOCK_HEADER_NUMBER"]

/-- Work of a block that has nothing to do with proposals: any other transaction, the reward of the
witness, the accounts of its production, the statistics of the forks. It may change everything but
the proposals and the properties they are counted by, the expiry of later proposals among it. -/
structure OtherWork where
  run : Governance → Governance
  proposals : ∀ g, (run g).proposals = g.proposals
  properties : ∀ g, ∀ name ∈ governingNames, (run g).dynamicRaw name = g.dynamicRaw name

/-- A transaction of a block. -/
inductive Transaction where
  | create (c : ProposalCreate)
  | approve (c : ProposalApprove)
  | delete (c : ProposalDelete)
  | other (work : OtherWork)

/-- The execution of a transaction, with its checks. -/
def Transaction.execute (g : Governance) : Transaction → Outcome Governance
  | create c => do
    c.validate g
    c.executeIn g
  | approve c => do
    c.validate g
    c.executeIn g
  | delete c => do
    c.validate g
    c.executeIn g
  | other work => pure (work.run g)

/-- `BlockApplyError`, as far as proposals go. -/
inductive BlockError where
  | transaction (error : ActuatorError)
  | hook (error : StateError)

/-- A block, with what its other hooks do. -/
structure Block where
  number : Int
  timestamp : Int
  transactions : List Transaction
  payReward : OtherWork
  production : OtherWork
  forkStats : OtherWork

namespace Block

/-- The part of `apply_block_mode` before `process_proposals`. -/
def beforeProposals (b : Block) (g : Governance) : Except BlockError Governance := do
  let g ← (b.transactions.foldlM Transaction.execute g).mapError .transaction
  pure (b.payReward.run g)

def maintenanceAndDpos (cfg : MaintenanceConfig) (b : Block) (g : Governance) :
    Except StateError Governance := do
  let number := Actuator.saturate (g.longOr "LATEST_BLOCK_HEADER_NUMBER" 0 + 1)
  let (g, _) ← applyMaintenanceBlock cfg number b.timestamp (b.production.run g)
  pure g

/-- `persist_block`, of the properties that are read here. -/
def persist (b : Block) (g : Governance) : Governance :=
  (g.putDynamic "LATEST_BLOCK_HEADER_NUMBER" (be64 b.number)).putDynamic
    "LATEST_BLOCK_HEADER_TIMESTAMP" (be64 b.timestamp)

/-- `apply_block_mode`: the transactions, then the hooks in their order. -/
def apply (cfg : MaintenanceConfig) (b : Block) (g : Governance) :
    Except BlockError Governance := do
  let g ← b.beforeProposals g
  let (g, _) ← (processExpiredProposals canonicalParameterRules g).mapError .hook
  let g ← (b.maintenanceAndDpos cfg g).mapError .hook
  pure (b.persist (b.forkStats.run g))

end Block

end RustTron.Consensus
