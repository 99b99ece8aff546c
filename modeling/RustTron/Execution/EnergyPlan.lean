import RustTron.Execution.Block
import RustTron.Execution.EnergyBill

/-!
# The energy plan

Before a contract runs its energy is planned: the caller may use its frozen energy and what its
balance pays for, up to the fee limit of the transaction, and the account of the contract adds its
percentage, up to what it has frozen and what the contract allows. After the run the energy that
was used is billed by the plan.

The rows are decoded, and a contract is carried with its limits. The product of floating point
numbers that gives the energy of a frozen balance before the calculation is hardened is a
parameter. A parameter message that does not decode is `none`.

## Main definitions

* `EnergyState`, `EnergyRaw`: the state and the transaction that a plan reads
* `energyAccount`, `energyPolicy`, `energyExecutionPlan`: the plan

## Main results

* `planned_energyExecutionPlan`: what every plan promises
* `planned_energy_settles`: every use within the limit of a plan is settled
-/

namespace RustTron.Execution

open Actuator (ResourceWindow ResourceError)

/-! ## What a plan reads -/

/-- The dynamic properties of the energy plan. -/
inductive EnergyProperty where
  | maxFeeLimit
  | totalEnergyCurrentLimit
  | totalEnergyWeight
  | unfreezeDelayDays
  | allowHardenResourceCalculation
  | energyFee
  | allowTvmConstantinople
  | allowTransactionFeePool
  | allowBlackholeOptimization
  | allowAdaptiveEnergy
  deriving DecidableEq, Repr

/-- The name of a property in the store. -/
def EnergyProperty.name : EnergyProperty → String
  | maxFeeLimit => "MAX_FEE_LIMIT"
  | totalEnergyCurrentLimit => "TOTAL_ENERGY_CURRENT_LIMIT"
  | totalEnergyWeight => "TOTAL_ENERGY_WEIGHT"
  | unfreezeDelayDays => "UNFREEZE_DELAY_DAYS"
  | allowHardenResourceCalculation => "ALLOW_HARDEN_RESOURCE_CALCULATION"
  | energyFee => "ENERGY_FEE"
  | allowTvmConstantinople => "ALLOW_TVM_CONSTANTINOPLE"
  | allowTransactionFeePool => "ALLOW_TRANSACTION_FEE_POOL"
  | allowBlackholeOptimization => "ALLOW_BLACKHOLE_OPTIMIZATION"
  | allowAdaptiveEnergy => "ALLOW_ADAPTIVE_ENERGY"

/-- A stored contract with the energy that its account allows. -/
structure MeteredContract extends SmartContract where
  originEnergyLimit : Int := 0
  deriving DecidableEq, Repr

/-- The stores that a plan reads. -/
structure EnergyState where
  accounts : Accounts := .empty
  contracts : FMap Bytes MeteredContract := ∅
  dynamicProperties : FMap EnergyProperty Bytes := ∅

/-- `TriggerSmartContract`. -/
structure TriggerCall where
  contractAddress : Bytes
  callValue : Int
  deriving DecidableEq, Repr

/-- The first contract of a transaction, by its type. -/
inductive EnergyCall where
  | trigger (parameter : Option TriggerCall)
  | create (parameter : Option (Option Int))
  | other
  deriving DecidableEq, Repr

/-- The first contract of a transaction, with the owner that the registry reads in it. -/
structure EnergyEnvelope where
  owner : Except String Bytes
  call : EnergyCall

/-- The raw data of a transaction. -/
structure EnergyRaw where
  feeLimit : Int
  contract : Option EnergyEnvelope

/-- An error of the `Runtime` stage. -/
def runtimeError {α : Type} (message : String) : Except ProcessError α :=
  .error (.stage .runtime message)

/-- `ok_or_else`, with an error of the `Runtime` stage. -/
def orRuntime {α : Type} (message : String) : Option α → Except ProcessError α
  | some a => .ok a
  | none => runtimeError message

/-- A `checked_*` operation, with an error of the `Runtime` stage. -/
def runtimeLong (message : String) (x : Int) : Except ProcessError Int :=
  if InI64 x then .ok x else runtimeError message

/-- `map_err` of a resource error, with an error of the `Runtime` stage. -/
def orResource {α : Type} : Except ResourceError α → Except ProcessError α
  | .ok a => .ok a
  | .error e => runtimeError e.message

/-- `dynamic_long`. -/
def energyLong (s : EnergyState) (p : EnergyProperty) : Except ProcessError Int :=
  match s.dynamicProperties.lookup p with
  | none => .error (.stage .billing ("missing dynamic property " ++ p.name))
  | some bytes =>
    match fromBe64 bytes with
    | some value => .ok value
    | none => .error (.stage .billing ("invalid dynamic property " ++ p.name))

/-- `optional_dynamic_long`. -/
def optionalEnergyLong (s : EnergyState) (p : EnergyProperty) : Except ProcessError (Option Int) :=
  match s.dynamicProperties.lookup p with
  | none => .ok none
  | some bytes =>
    match fromBe64 bytes with
    | some value => .ok (some value)
    | none => runtimeError ("invalid dynamic property " ++ p.name)

/-! ## The plan -/

def globalLimit (frozenBalance limit weight : Int) (v2 : Bool) : Except ResourceError Int :=
  if frozenBalance ≤ 0 ∨ weight ≤ 0 ∨ limit ≤ 0 then .ok 0
  else if v2 then Actuator.i64Exact ((frozenBalance * limit).tdiv (trxPrecision * weight))
  else Actuator.i64Exact ((frozenBalance.tdiv trxPrecision * limit).tdiv weight)

def energyAccount (legacyLimit : Int → Int → Int → Bool → Int) (s : EnergyState) (account : Account)
    (address : Bytes) (headSlot : Int) : Except ProcessError EnergyAccount := do
  let resource := account.resource
  let own ← orRuntime "frozen energy overflow"
    (checkedSum 0 ((account.frozenV2.filter fun item => item.type = 1).map FreezeV2.amount))
  let frozen ← orRuntime "frozen energy overflow"
    (checkedSum ((resource.frozenBalanceForEnergy.map Frozen.frozenBalance).getD 0)
      [resource.acquiredDelegatedFrozenBalanceForEnergy, own,
        resource.acquiredDelegatedFrozenV2BalanceForEnergy])
  let totalLimit ← energyLong s .totalEnergyCurrentLimit
  let weight ← energyLong s .totalEnergyWeight
  let delayDays ← energyLong s .unfreezeDelayDays
  let harden ← energyLong s .allowHardenResourceCalculation
  let limit ← (if weight ≤ 0 ∨ totalLimit ≤ 0 ∨ frozen ≤ 0 then pure 0
    else if harden = 1 then orResource (globalLimit frozen totalLimit weight (0 < delayDays))
    else pure (legacyLimit frozen totalLimit weight (0 < delayDays)))
  let window : ResourceWindow := ⟨resource.energyUsage, resource.latestConsumeTimeForEnergy,
    resource.energyWindowSize, resource.energyWindowOptimized, 28800⟩
  let recovered ← orResource (window.recover headSlot)
  pure {
    address
    balance := account.balance
    frozenEnergyLeft := max (((toI64 (limit - recovered))).getD 0) 0
    energyUsage := resource.energyUsage
    latestConsumeSlot := resource.latestConsumeTimeForEnergy
    energyWindow := resource.energyWindowSize
    energyWindowOptimized := resource.energyWindowOptimized
    headSlot }

def energyPolicy (s : EnergyState) : Except ProcessError EnergyBillingPolicy := do
  let dynamicPrice ← energyLong s .energyFee
  let constantinople ← energyLong s .allowTvmConstantinople
  let feePool ← energyLong s .allowTransactionFeePool
  let blackhole ← energyLong s .allowBlackholeOptimization
  let adaptive ← energyLong s .allowAdaptiveEnergy
  pure {
    energyPrice := if 0 < dynamicPrice then dynamicPrice else 100
    allowConstantinople := constantinople = 1
    transactionFeePool := feePool = 1
    blackholeOptimization := blackhole = 1
    adaptiveEnergy := adaptive = 1 }

/-- The value of a call, its contract, and whether it creates one. -/
def callData (s : EnergyState) : EnergyCall → Except ProcessError (Int × Option MeteredContract × Bool)
  | .trigger parameter => do
    let trigger ← orRuntime "invalid trigger contract" parameter
    pure (trigger.callValue, s.contracts.lookup trigger.contractAddress, false)
  | .create parameter => do
    let create ← orRuntime "invalid create contract" parameter
    pure (create.getD 0, none, true)
  | .other => pure (0, none, false)

/-- The origin of a plan. -/
def energyOrigin (legacyLimit : Int → Int → Int → Bool → Int) (s : EnergyState)
    (callerAddress : Bytes) (contract : Option MeteredContract) (creates : Bool) (headSlot : Int) :
    Except ProcessError EnergyOrigin :=
  if creates then pure .sameAsCaller
  else match contract with
    | none => pure .absent
    | some contract =>
      if contract.originAddress = callerAddress then pure .sameAsCaller
      else do
        let account ← orRuntime "origin account is missing" (s.accounts.get contract.originAddress)
        let origin ← energyAccount legacyLimit s account contract.originAddress headSlot
        pure (.distinct origin)

/-- The energy that an origin can add. -/
def EnergyOrigin.available (origin : EnergyOrigin) (originEnergyLimit : Int) : Int :=
  match origin with
  | .distinct account => min account.frozenEnergyLeft originEnergyLimit
  | .absent | .sameAsCaller => 0

/-- The energy that the origin adds to the limit of the caller. -/
def creatorShare (callerLimit originPercent available : Int) : Except ProcessError Int := do
  let share ← (if originPercent = 0 then pure 0
    else if originPercent = 100 then pure available
    else do
      let product ← runtimeLong "origin energy overflow" (callerLimit * originPercent)
      pure (product.tdiv (100 - originPercent)))
  pure (min share available)

def energyExecutionPlan (legacyLimit : Int → Int → Int → Bool → Int) (s : EnergyState)
    (tx : Option EnergyRaw) (headSlot : Int) : Except ProcessError EnergyExecutionPlan := do
  let raw ← orRuntime "missing raw data" tx
  let envelope ← orRuntime "missing contract" raw.contract
  let maxFee := (← optionalEnergyLong s .maxFeeLimit).getD 1000000000
  if raw.feeLimit < 0 ∨ maxFee < 0 ∨ maxFee < raw.feeLimit then runtimeError "fee_limit out of range"
  else
    let callerAddress ← envelope.owner.mapError (ProcessError.stage .billing)
    let callerAccount ← orRuntime "energy caller account is missing" (s.accounts.get callerAddress)
    let caller ← energyAccount legacyLimit s callerAccount callerAddress headSlot
    let (callValue, contract, creates) ← callData s envelope.call
    if callValue < 0 ∨ caller.balance < callValue then
      runtimeError "call value exceeds caller balance"
    else
      let policy ← energyPolicy s
      let liquid ← runtimeLong "call value overflow" (caller.balance - callValue)
      let affordablePaid := liquid.tdiv policy.energyPrice
      let feeCap := raw.feeLimit.tdiv policy.energyPrice
      let callerEnergy ← runtimeLong "caller energy overflow"
        (caller.frozenEnergyLeft + affordablePaid)
      let callerLimit := min callerEnergy feeCap
      let callerPaidEnergyLimit ← runtimeLong "caller paid energy overflow"
        (callerLimit - min caller.frozenEnergyLeft callerLimit)
      let originPercent := max 0 (min (contract.elim 0 fun c =>
        saturateI64 (100 - c.consumeUserResourcePercent)) 100)
      let originEnergyLimit := contract.elim 0 fun c => max c.originEnergyLimit 0
      let origin ← energyOrigin legacyLimit s callerAddress contract creates headSlot
      let share ← creatorShare callerLimit originPercent (origin.available originEnergyLimit)
      let energyLimit ← runtimeLong "energy limit overflow" (callerLimit + share)
      pure ⟨caller, origin, originPercent, originEnergyLimit, callerPaidEnergyLimit, energyLimit,
        policy⟩

/-! ## What a plan promises -/

theorem runtimeLong_eq_ok_iff {message : String} {x y : Int} :
    runtimeLong message x = .ok y ↔ InI64 x ∧ x = y := by
  unfold runtimeLong runtimeError
  split <;> simp_all

theorem ite_runtimeError_eq_ok_iff {α : Type} {p : Prop} [Decidable p] {message : String}
    {x : Except ProcessError α} {a : α} :
    (if p then runtimeError message else x) = .ok a ↔ ¬ p ∧ x = .ok a := by
  unfold runtimeError
  split <;> simp_all

theorem energyAccount_spec {legacyLimit : Int → Int → Int → Bool → Int} {s : EnergyState}
    {account : Account} {address : Bytes} {headSlot : Int} {a : EnergyAccount}
    (h : energyAccount legacyLimit s account address headSlot = .ok a) : 0 ≤ a.frozenEnergyLeft := by
  unfold energyAccount at h
  simp only [bind_eq_ok_iff, pure_eq_ok_iff] at h
  obtain ⟨-, -, -, -, -, -, -, -, -, -, -, -, -, -, -, -, rfl⟩ := h
  exact le_max_right _ _

theorem energyPolicy_spec {s : EnergyState} {policy : EnergyBillingPolicy}
    (h : energyPolicy s = .ok policy) : 0 < policy.energyPrice := by
  unfold energyPolicy at h
  simp only [bind_eq_ok_iff, pure_eq_ok_iff] at h
  obtain ⟨price, -, -, -, -, -, -, -, -, -, rfl⟩ := h
  dsimp only
  split
  · assumption
  · decide

theorem energyOrigin_spec {legacyLimit : Int → Int → Int → Bool → Int} {s : EnergyState}
    {callerAddress : Bytes} {contract : Option MeteredContract} {creates : Bool} {headSlot : Int}
    {account : EnergyAccount}
    (h : energyOrigin legacyLimit s callerAddress contract creates headSlot =
      .ok (.distinct account)) : 0 ≤ account.frozenEnergyLeft := by
  unfold energyOrigin at h
  split at h
  · cases h
  split at h
  · cases h
  split at h
  · cases h
  simp only [bind_eq_ok_iff, pure_eq_ok_iff] at h
  obtain ⟨_, -, origin, ho, hd⟩ := h
  cases hd
  exact energyAccount_spec ho

/-- The share of the origin is within what is available, and within its percentage. -/
theorem creatorShare_spec {callerLimit percent available share : Int} (hl : 0 ≤ callerLimit)
    (hpe : 0 ≤ percent ∧ percent ≤ 100) (h : creatorShare callerLimit percent available = .ok share) :
    share ≤ available ∧ share * (100 - percent) ≤ callerLimit * percent := by
  unfold creatorShare at h
  simp only [bind_eq_ok_iff, pure_eq_ok_iff] at h
  obtain ⟨part, hp, rfl⟩ := h
  refine ⟨min_le_right _ _, ?_⟩
  have hle : min part available * (100 - percent) ≤ part * (100 - percent) :=
    mul_le_mul_of_nonneg_right (min_le_left _ _) (by omega)
  by_cases hz : percent = 0
  · subst hz
    cases hp
    exact hle.trans_eq ((zero_mul _).trans (mul_zero callerLimit).symm)
  by_cases hw : percent = 100
  · rw [hw, sub_self, mul_zero]
    exact mul_nonneg hl (by decide)
  rw [if_neg hz, if_neg hw] at hp
  simp only [bind_eq_ok_iff, pure_eq_ok_iff, runtimeLong_eq_ok_iff] at hp
  obtain ⟨_, ⟨-, rfl⟩, rfl⟩ := hp
  rw [Int.tdiv_eq_ediv_of_nonneg (mul_nonneg hl hpe.1)] at hle ⊢
  exact hle.trans (Int.ediv_mul_le _ (by omega))

/-- **What every plan promises.** -/
theorem planned_energyExecutionPlan {legacyLimit : Int → Int → Int → Bool → Int} {s : EnergyState}
    {raw : EnergyRaw} {envelope : EnergyEnvelope} {headSlot callValue : Int}
    {contract : Option MeteredContract} {creates : Bool} {plan : EnergyExecutionPlan}
    (h : energyExecutionPlan legacyLimit s (some raw) headSlot = .ok plan)
    (hc : raw.contract = some envelope)
    (hcal : callData s envelope.call = .ok (callValue, contract, creates)) :
    ∃ callerLimit, Planned plan callerLimit raw.feeLimit (plan.caller.balance - callValue) := by
  unfold energyExecutionPlan at h
  simp only [orRuntime, ok_bind, hc, hcal] at h
  simp only [bind_eq_ok_iff, pure_eq_ok_iff, ite_runtimeError_eq_ok_iff, runtimeLong_eq_ok_iff] at h
  obtain ⟨maxFee, -, hfe, callerAddress, -, callerAccount, -, caller, hca, hv, policy,
    hpo, liquid, ⟨-, rfl⟩, _, ⟨-, rfl⟩, _, ⟨-, rfl⟩, origin, ho, share, hs, _,
    ⟨-, rfl⟩, rfl⟩ := h
  have hp := energyPolicy_spec hpo
  have hf := energyAccount_spec hca
  have hl : 0 ≤ caller.balance - callValue := by omega
  have hfl : 0 ≤ raw.feeLimit := by omega
  have hpa : (caller.balance - callValue).tdiv policy.energyPrice * policy.energyPrice ≤
      caller.balance - callValue := by
    rw [Int.tdiv_eq_ediv_of_nonneg hl]
    exact Int.ediv_mul_le _ hp.ne'
  have hcap : raw.feeLimit.tdiv policy.energyPrice * policy.energyPrice ≤ raw.feeLimit := by
    rw [Int.tdiv_eq_ediv_of_nonneg hfl]
    exact Int.ediv_mul_le _ hp.ne'
  have hpaid_nonneg := Int.tdiv_nonneg hl hp.le
  have hcap_nonneg := Int.tdiv_nonneg hfl hp.le
  generalize (caller.balance - callValue).tdiv policy.energyPrice = affordablePaid at *
  generalize raw.feeLimit.tdiv policy.energyPrice = feeCap at *
  refine ⟨min (caller.frozenEnergyLeft + affordablePaid) feeCap, hp, hf, by omega, ?_, ?_,
    rfl, ?_⟩
  · exact (mul_le_mul_of_nonneg_right (show _ ≤ affordablePaid by dsimp only; omega)
      hp.le).trans hpa
  · exact (mul_le_mul_of_nonneg_right (min_le_right _ _) hp.le).trans hcap
  · have hpe : 0 ≤ max 0 (min (contract.elim 0 fun c =>
        saturateI64 (100 - c.consumeUserResourcePercent)) 100) ∧ max 0 (min (contract.elim 0 fun c =>
          saturateI64 (100 - c.consumeUserResourcePercent)) 100) ≤ 100 := by omega
    obtain ⟨ha, hsh⟩ := creatorShare_spec (by omega) hpe hs
    unfold EnergyExecutionPlan.Shares
    dsimp only
    cases origin with
    | absent =>
      dsimp only [EnergyOrigin.available] at ha ⊢
      omega
    | sameAsCaller =>
      dsimp only [EnergyOrigin.available] at ha ⊢
      omega
    | distinct account =>
      dsimp only [EnergyOrigin.available] at ha ⊢
      refine ⟨hpe, ⟨energyOrigin_spec ho, ?_⟩, by omega, ?_⟩
      · cases contract with
        | none => exact le_rfl
        | some c => exact le_max_right _ _
      · rw [add_mul]
        have hsp := mul_sub (min (caller.frozenEnergyLeft + affordablePaid) feeCap) 100
          (max 0 (min (contract.elim 0 fun c =>
            saturateI64 (100 - c.consumeUserResourcePercent)) 100))
        omega

/-- **Planned energy is payable**: a use within the limit of a plan never lacks balance, as long as
the caller has what the plan saw less the value of the call. The bill is split exactly and its fee
is within the fee limit and goes to one destination, unless the contract is missing before
Constantinople or an `i64` overflows. -/
theorem planned_energy_settles {legacyLimit : Int → Int → Int → Bool → Int} {s : EnergyState}
    {raw : EnergyRaw} {envelope : EnergyEnvelope} {headSlot callValue balance : Int}
    {contract : Option MeteredContract} {creates : Bool} {plan : EnergyExecutionPlan} {r : Receipt}
    (h : energyExecutionPlan legacyLimit s (some raw) headSlot = .ok plan)
    (hcontract : raw.contract = some envelope)
    (hcall : callData s envelope.call = .ok (callValue, contract, creates)) (hr : r.Unbilled)
    (htotal : 0 ≤ r.energyUsageTotal) (hlimit : r.energyUsageTotal ≤ plan.energyLimit)
    (hbalance : plan.caller.balance - callValue ≤ balance) (totals : BillingTotals) :
    (∀ address, plan.settle r balance totals ≠ .error (.insufficientBalance address)) ∧
    Yields (plan.settle r balance totals)
      (fun s => ∃ paid, Settled plan r balance totals raw.feeLimit paid s)
      (plan.Fails r.energyUsageTotal raw.feeLimit totals) := by
  obtain ⟨callerLimit, hplanned⟩ := planned_energyExecutionPlan h hcontract hcall
  have hyields := hplanned.settle hr htotal hlimit hbalance totals
  refine ⟨fun address herror => ?_, hyields⟩
  rw [herror] at hyields
  rcases hyields with ⟨h, -⟩ | ⟨h, -⟩ <;> cases h

section Sample

/-- A caller that has nothing frozen, and a contract of another account that pays a third. -/
def sampleCaller : Bytes := [0x41, 1]

def sampleOrigin : Bytes := [0x41, 2]

def sampleContract : MeteredContract where
  originAddress := sampleOrigin
  contractAddress := [0x41, 3]
  consumeUserResourcePercent := 67
  originEnergyLimit := 1000

def sampleEnergy : EnergyState where
  accounts := (Accounts.empty.put { address := sampleCaller, balance := 100000 }).put
    { address := sampleOrigin
      accountResource := some { frozenBalanceForEnergy := some ⟨1000000, 0⟩ } }
  contracts := Finmap.singleton [0x41, 3] sampleContract
  dynamicProperties := Finmap.insert .maxFeeLimit (be64 100000) <|
    Finmap.insert .totalEnergyCurrentLimit (be64 500) <|
    Finmap.insert .totalEnergyWeight (be64 1) <|
    Finmap.insert .unfreezeDelayDays (be64 0) <|
    Finmap.insert .allowHardenResourceCalculation (be64 1) <|
    Finmap.insert .energyFee (be64 10) <|
    Finmap.insert .allowTvmConstantinople (be64 1) <|
    Finmap.insert .allowTransactionFeePool (be64 0) <|
    Finmap.insert .allowBlackholeOptimization (be64 1) <|
    Finmap.singleton .allowAdaptiveEnergy (be64 0)

def sampleRaw : EnergyRaw where
  feeLimit := 1000
  contract := some ⟨.ok sampleCaller, .trigger (some ⟨[0x41, 3], 10⟩)⟩

def samplePlan : EnergyExecutionPlan where
  caller := { address := sampleCaller, balance := 100000 }
  origin := .distinct { address := sampleOrigin, frozenEnergyLeft := 500 }
  originPercent := 33
  originEnergyLimit := 1000
  callerPaidEnergyLimit := 100
  energyLimit := 149
  policy := ⟨10, true, false, true, false⟩

theorem energyExecutionPlan_sample :
    energyExecutionPlan (fun _ _ _ _ => 0) sampleEnergy (some sampleRaw) 0 = .ok samplePlan := by
  decide

theorem callData_sample : callData sampleEnergy (.trigger (some ⟨[0x41, 3], 10⟩)) =
    .ok (10, some sampleContract, false) := by decide

theorem planned_energy_settles_sample :
    (∀ address, samplePlan.settle (Receipt.setBill {} 149) 99990 {} ≠
      .error (.insufficientBalance address)) ∧
    Yields (samplePlan.settle (Receipt.setBill {} 149) 99990 {})
      (fun s => ∃ paid, Settled samplePlan (Receipt.setBill {} 149) 99990 {} 1000 paid s)
      (samplePlan.Fails 149 1000 {}) :=
  planned_energy_settles energyExecutionPlan_sample rfl callData_sample ⟨rfl, rfl⟩ (by decide)
    (by decide) (by decide) {}

end Sample

end RustTron.Execution
