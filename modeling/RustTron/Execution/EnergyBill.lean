import RustTron.Staking.Windows

/-!
# The energy bill

A receipt splits the energy that a contract has used between the account of the contract, the
frozen energy of the caller and what the caller pays. The price of the paid part leaves the
balance of the caller and is added to one of three totals. The limits come from a plan that was
made before the contract ran.

A bill that fails ends its transaction, so a computation here is its results or an error. The
fields of a receipt for bandwidth, penalties and the fees of signatures and memos are left out.

## Main definitions

* `EnergyAccount`, `EnergyOrigin`, `EnergyBillingPolicy`: who pays, and how
* `Receipt`, `BillingTotals`: what is filled in
* `useFrozen`, `Receipt.charge`, `Receipt.payEnergyBillPlanned`: the parts of a bill
* `EnergyExecutionPlan.settle`: the bill of a plan
* `Planned`: what a plan promises
* `Settled`: the bill is split exactly, and its fee is within the limit

## Main results

* `Planned.settle`: a plan that keeps its promises is settled, or an `i64` overflows
-/

namespace RustTron.Execution

open Actuator (ResourceWindow)

inductive FeeDestination where
  | transactionFeePool
  | burn
  | blackhole
  deriving DecidableEq, Repr

structure EnergyBillingPolicy where
  energyPrice : Int := 100
  allowConstantinople : Bool := false
  transactionFeePool : Bool := false
  blackholeOptimization : Bool := false
  adaptiveEnergy : Bool := false
  deriving DecidableEq, Repr

structure EnergyAccount where
  address : Bytes := []
  balance : Int := 0
  frozenEnergyLeft : Int := 0
  energyUsage : Int := 0
  latestConsumeSlot : Int := 0
  energyWindow : Int := 0
  energyWindowOptimized : Bool := false
  headSlot : Int := 0
  deriving DecidableEq, Repr

inductive EnergyOrigin where
  | absent
  | sameAsCaller
  | distinct (account : EnergyAccount)
  deriving DecidableEq, Repr

structure BillingTotals where
  transactionFeePool : Int := 0
  burned : Int := 0
  blackhole : Int := 0
  adaptiveBlockEnergy : Int := 0
  deriving DecidableEq, Repr

inductive ReceiptError where
  | missingOrigin
  | insufficientBalance (address : Bytes)
  | arithmetic
  deriving DecidableEq, Repr

/-- `Receipt`, with the energy fields of its `ResourceReceipt`. -/
structure Receipt where
  energyUsage : Int := 0
  energyFee : Int := 0
  originEnergyUsage : Int := 0
  energyUsageTotal : Int := 0
  result : Int := 0
  originEnergyLeft : Int := 0
  callerEnergyLeft : Int := 0
  deriving DecidableEq, Repr

def outOfTime : Int := 11

/-- The error of a `checked_*` operation of a receipt. -/
def billLong (x : Int) : Except ReceiptError Int := if InI64 x then .ok x else .error .arithmetic

theorem billLong_of_inI64 {x : Int} (h : InI64 x) : billLong x = .ok x := if_pos h

/-- The window of the energy of an account. -/
def EnergyAccount.resourceWindow (account : EnergyAccount) : ResourceWindow :=
  ⟨account.energyUsage, account.latestConsumeSlot, account.energyWindow,
    account.energyWindowOptimized, 28800⟩

def useFrozen (account : EnergyAccount) (usage : Int) : Except ReceiptError EnergyAccount :=
  if usage = 0 then pure account
  else do
    let frozenEnergyLeft ← billLong (account.frozenEnergyLeft - usage)
    match account.resourceWindow.consume usage account.headSlot with
    | .ok consumed => pure { account with
        frozenEnergyLeft
        energyUsage := consumed.usage
        latestConsumeSlot := consumed.latestSlot
        energyWindow := consumed.window
        energyWindowOptimized := consumed.precise }
    | .error _ => throw .arithmetic

/-- Where the fee of a receipt goes. -/
def EnergyBillingPolicy.destination (policy : EnergyBillingPolicy) (result : Int) : FeeDestination :=
  if policy.transactionFeePool ∧ result ≠ outOfTime then .transactionFeePool
  else if policy.blackholeOptimization then .burn
  else .blackhole

/-- The total of a destination. -/
def BillingTotals.amount (totals : BillingTotals) : FeeDestination → Int
  | .transactionFeePool => totals.transactionFeePool
  | .burn => totals.burned
  | .blackhole => totals.blackhole

/-- A fee is added to the total of its destination. -/
def BillingTotals.credit (totals : BillingTotals) (destination : FeeDestination) (fee : Int) :
    Except ReceiptError BillingTotals := do
  let amount ← billLong (totals.amount destination + fee)
  pure (match destination with
    | .transactionFeePool => { totals with transactionFeePool := amount }
    | .burn => { totals with burned := amount }
    | .blackhole => { totals with blackhole := amount })

def Receipt.setBill (r : Receipt) (energy : Int) : Receipt :=
  { r with energyUsageTotal := max energy 0 }

def Receipt.charge (r : Receipt) (account : EnergyAccount) (usage paidLimit : Int)
    (policy : EnergyBillingPolicy) (totals : BillingTotals) :
    Except ReceiptError (Receipt × EnergyAccount × BillingTotals) := do
  let frozen := min (max (min r.callerEnergyLeft account.frozenEnergyLeft) 0) usage
  let account ← useFrozen account frozen
  let paid := usage - frozen
  if max paidLimit 0 < paid then throw (.insufficientBalance account.address)
  else if paid = 0 then pure ({ r with energyUsage := frozen }, account, totals)
  else
    let adaptiveBlockEnergy ← (if policy.adaptiveEnergy then
      billLong (totals.adaptiveBlockEnergy + paid) else pure totals.adaptiveBlockEnergy)
    let fee ← billLong (paid * policy.energyPrice)
    if account.balance < fee then throw (.insufficientBalance account.address)
    else
      let totals ← { totals with adaptiveBlockEnergy }.credit (policy.destination r.result) fee
      pure ({ r with energyUsage := frozen, energyFee := fee },
        { account with balance := account.balance - fee }, totals)

/-- What a settled bill leaves. -/
structure Settlement where
  receipt : Receipt
  caller : EnergyAccount
  origin : EnergyOrigin
  totals : BillingTotals
  deriving DecidableEq, Repr

def Receipt.payEnergyBillPlanned (r : Receipt) (origin : EnergyOrigin) (caller : EnergyAccount)
    (originPercent originEnergyLimit callerPaidEnergyLimit : Int) (policy : EnergyBillingPolicy)
    (totals : BillingTotals) : Except ReceiptError Settlement :=
  let r := { r with originEnergyUsage := 0 }
  let total := r.energyUsageTotal
  if total ≤ 0 then pure ⟨r, caller, origin, totals⟩
  else match origin with
    | .absent =>
      if policy.allowConstantinople = false then throw .missingOrigin
      else do
        let (r, caller, totals) ← r.charge caller total callerPaidEnergyLimit policy totals
        pure ⟨r, caller, .absent, totals⟩
    | .sameAsCaller => do
      let (r, caller, totals) ← r.charge caller total callerPaidEnergyLimit policy totals
      pure ⟨r, caller, .sameAsCaller, totals⟩
    | .distinct account => do
      let product ← billLong (total * max 0 (min originPercent 100))
      let usage := min (min (min (product.tdiv 100) r.originEnergyLeft) (max originEnergyLimit 0))
        (max account.frozenEnergyLeft 0)
      let account ← useFrozen account usage
      let (r, caller, totals) ← { r with originEnergyUsage := usage }.charge caller (total - usage)
        callerPaidEnergyLimit policy totals
      pure ⟨r, caller, .distinct account, totals⟩

structure EnergyExecutionPlan where
  caller : EnergyAccount
  origin : EnergyOrigin
  originPercent : Int
  originEnergyLimit : Int
  callerPaidEnergyLimit : Int
  energyLimit : Int
  policy : EnergyBillingPolicy
  deriving DecidableEq, Repr

/-- The frozen energy of an origin other than the caller. -/
def EnergyOrigin.energyLeft : EnergyOrigin → Int
  | .distinct account => account.frozenEnergyLeft
  | .absent | .sameAsCaller => 0

def EnergyExecutionPlan.settle (plan : EnergyExecutionPlan) (r : Receipt) (callerBalance : Int)
    (totals : BillingTotals) : Except ReceiptError Settlement :=
  if plan.energyLimit < r.energyUsageTotal then throw .arithmetic
  else
    { r with
      originEnergyLeft := plan.origin.energyLeft
      callerEnergyLeft := plan.caller.frozenEnergyLeft }.payEnergyBillPlanned plan.origin
      { plan.caller with balance := callerBalance } plan.originPercent plan.originEnergyLimit
      plan.callerPaidEnergyLimit plan.policy totals

/-! ## What a plan promises -/

/-- The origin takes its percentage of the energy that goes beyond the limit of the caller. -/
def EnergyExecutionPlan.Shares (plan : EnergyExecutionPlan) (callerLimit : Int) : Prop :=
  match plan.origin with
  | .distinct account =>
    (0 ≤ plan.originPercent ∧ plan.originPercent ≤ 100) ∧
    (0 ≤ account.frozenEnergyLeft ∧ 0 ≤ plan.originEnergyLimit) ∧
    plan.energyLimit ≤ callerLimit + min account.frozenEnergyLeft plan.originEnergyLimit ∧
    plan.energyLimit * (100 - plan.originPercent) ≤ callerLimit * 100
  | .absent | .sameAsCaller => plan.energyLimit ≤ callerLimit

/-- The promises of a plan: the caller can pay its limit out of its frozen energy and what is left
of its balance, for no more than the fee limit. -/
structure Planned (plan : EnergyExecutionPlan) (callerLimit feeLimit liquid : Int) : Prop where
  price_pos : 0 < plan.policy.energyPrice
  frozen_nonneg : 0 ≤ plan.caller.frozenEnergyLeft
  limit_nonneg : 0 ≤ callerLimit
  affordable : (callerLimit - plan.caller.frozenEnergyLeft) * plan.policy.energyPrice ≤ liquid
  capped : callerLimit * plan.policy.energyPrice ≤ feeLimit
  paid : plan.callerPaidEnergyLimit = callerLimit - min plan.caller.frozenEnergyLeft callerLimit
  shares : plan.Shares callerLimit

/-- A use of up to `total` of the frozen energy fits into the window. -/
def EnergyAccount.Usable (account : EnergyAccount) (total : Int) : Prop :=
  account.frozenEnergyLeft ≤ i64Max ∧
  ∀ usage, 0 < usage → usage ≤ total → usage ≤ account.frozenEnergyLeft →
    ∃ consumed, account.resourceWindow.consume usage account.headSlot = .ok consumed

/-- No `i64` of a bill overflows. -/
structure EnergyExecutionPlan.Fits (plan : EnergyExecutionPlan) (total feeLimit : Int)
    (totals : BillingTotals) : Prop where
  caller : plan.caller.Usable total
  origin : ∀ account, plan.origin = .distinct account →
    account.Usable total ∧ InI64 (total * plan.originPercent)
  adaptive : ∀ paid, 0 < paid → paid ≤ total → InI64 (totals.adaptiveBlockEnergy + paid)
  fee : ∀ fee, 0 < fee → fee ≤ feeLimit →
    InI64 fee ∧ ∀ destination, InI64 (totals.amount destination + fee)

/-- The errors of a settlement: the contract is missing before Constantinople, or an `i64`
overflows. -/
def EnergyExecutionPlan.Fails (plan : EnergyExecutionPlan) (total feeLimit : Int)
    (totals : BillingTotals) (e : ReceiptError) : Prop :=
  (e = .missingOrigin ∧ plan.origin = .absent ∧ plan.policy.allowConstantinople = false ∧
    0 < total) ∨
  (e = .arithmetic ∧ ¬ plan.Fits total feeLimit totals)

/-- The receipt of a new trace: nothing of its energy has been billed. -/
def Receipt.Unbilled (r : Receipt) : Prop := r.energyUsage = 0 ∧ r.energyFee = 0

/-- The bill is split exactly, `paid` of it is paid for by the caller, and the fee is within the
limit and goes to one destination. -/
structure Settled (plan : EnergyExecutionPlan) (r : Receipt) (balance : Int)
    (totals : BillingTotals) (feeLimit paid : Int) (s : Settlement) : Prop where
  split : s.receipt.originEnergyUsage + s.receipt.energyUsage + paid = r.energyUsageTotal
  nonneg : 0 ≤ s.receipt.originEnergyUsage ∧ 0 ≤ s.receipt.energyUsage ∧ 0 ≤ paid
  originUsed : s.origin.energyLeft = plan.origin.energyLeft - s.receipt.originEnergyUsage
  callerUsed : s.caller.frozenEnergyLeft = plan.caller.frozenEnergyLeft - s.receipt.energyUsage
  fee : s.receipt.energyFee = paid * plan.policy.energyPrice
  fee_le : s.receipt.energyFee ≤ feeLimit
  balance : s.caller.balance = balance - s.receipt.energyFee
  credited : ∀ destination, s.totals.amount destination = totals.amount destination +
    if destination = plan.policy.destination r.result then s.receipt.energyFee else 0

/-! ## The parts of a bill -/

theorem useFrozen_spec {account : EnergyAccount} {usage total : Int} (hus : 0 ≤ usage)
    (hl : usage ≤ account.frozenEnergyLeft) (ht : usage ≤ total) :
    Yields (useFrozen account usage)
      (fun account' => account'.balance = account.balance ∧
        account'.frozenEnergyLeft = account.frozenEnergyLeft - usage)
      (fun e => e = .arithmetic ∧ ¬ account.Usable total) := by
  unfold useFrozen
  refine .ite (fun hz => .pure ⟨rfl, by omega⟩) fun hp => ?_
  by_cases hf : InI64 (account.frozenEnergyLeft - usage)
  · rw [billLong_of_inI64 hf, ok_bind]
    cases hc : account.resourceWindow.consume usage account.headSlot with
    | ok consumed => exact .pure ⟨rfl, rfl⟩
    | error e =>
      refine .throw ⟨rfl, fun ⟨_, hu⟩ => ?_⟩
      obtain ⟨consumed, hok⟩ := hu usage (by omega) ht hl
      cases hok.symm.trans hc
  · rw [billLong, if_neg hf]
    refine ⟨rfl, fun ⟨hm, _⟩ => hf ?_⟩
    unfold InI64 i64Min
    omega

theorem amount_credit {totals totals' : BillingTotals} {destination : FeeDestination} {fee : Int}
    (h : totals.credit destination fee = .ok totals') (d : FeeDestination) :
    totals'.amount d = totals.amount d + if d = destination then fee else 0 := by
  unfold BillingTotals.credit billLong at h
  split at h
  · cases h
    cases destination <;> cases d <;> simp [BillingTotals.amount]
  · cases h

theorem credit_spec (totals : BillingTotals) (destination : FeeDestination) (fee : Int) :
    Yields (totals.credit destination fee)
      (fun totals' => ∀ d, totals'.amount d = totals.amount d + if d = destination then fee else 0)
      (fun e => e = .arithmetic ∧ ¬ InI64 (totals.amount destination + fee)) := by
  cases hc : totals.credit destination fee with
  | ok totals' => exact amount_credit hc
  | error e =>
    unfold BillingTotals.credit billLong at hc
    split at hc
    · cases hc
    · cases hc
      exact ⟨rfl, ‹_›⟩

/-- No `i64` of a charge overflows. -/
structure ChargeFits (account : EnergyAccount) (total feeLimit : Int) (totals : BillingTotals) :
    Prop where
  usable : account.Usable total
  adaptive : ∀ paid, 0 < paid → paid ≤ total → InI64 (totals.adaptiveBlockEnergy + paid)
  fee : ∀ fee, 0 < fee → fee ≤ feeLimit →
    InI64 fee ∧ ∀ destination, InI64 (totals.amount destination + fee)

/-- What a charge leaves: the frozen energy is used first, and the rest is paid. -/
structure Charged (r : Receipt) (account : EnergyAccount) (usage : Int)
    (policy : EnergyBillingPolicy) (totals : BillingTotals)
    (x : Receipt × EnergyAccount × BillingTotals) : Prop where
  originEnergyUsage : x.1.originEnergyUsage = r.originEnergyUsage
  energyUsage : x.1.energyUsage = min account.frozenEnergyLeft usage
  energyFee : x.1.energyFee = if usage ≤ account.frozenEnergyLeft then r.energyFee
    else (usage - min account.frozenEnergyLeft usage) * policy.energyPrice
  frozenEnergyLeft : x.2.1.frozenEnergyLeft =
    account.frozenEnergyLeft - min account.frozenEnergyLeft usage
  balance : x.2.1.balance =
    account.balance - (usage - min account.frozenEnergyLeft usage) * policy.energyPrice
  credited : ∀ destination, x.2.2.amount destination = totals.amount destination +
    if destination = policy.destination r.result then
      (usage - min account.frozenEnergyLeft usage) * policy.energyPrice else 0

/-- A charge of no more than the caller's limit is paid for, or an `i64` overflows. -/
theorem charge_spec {r : Receipt} {account : EnergyAccount} {policy : EnergyBillingPolicy}
    {usage total callerLimit feeLimit : Int} (totals : BillingTotals)
    (hp : 0 < policy.energyPrice) (hfr : 0 ≤ account.frozenEnergyLeft)
    (hle : r.callerEnergyLeft = account.frozenEnergyLeft) (hus : 0 ≤ usage)
    (ht : usage ≤ total) (hl : usage ≤ callerLimit)
    (ha : (callerLimit - account.frozenEnergyLeft) * policy.energyPrice ≤ account.balance)
    (hca : callerLimit * policy.energyPrice ≤ feeLimit) :
    Yields (r.charge account usage (callerLimit - min account.frozenEnergyLeft callerLimit) policy
        totals)
      (Charged r account usage policy totals)
      (fun e => e = .arithmetic ∧ ¬ ChargeFits account total feeLimit totals) := by
  have hav : min (max (min r.callerEnergyLeft account.frozenEnergyLeft) 0) usage =
      min account.frozenEnergyLeft usage := by omega
  unfold Receipt.charge
  rw [hav]
  refine .bind ((useFrozen_spec (by omega) (by omega)
    (show min account.frozenEnergyLeft usage ≤ total by omega)).mono (fun _ h => h)
      fun e ⟨he, hn⟩ => ⟨he, fun hf => hn hf.usable⟩) ?_
  rintro account' ⟨hb, hfl⟩
  refine .ite (fun hu => absurd hu (by omega)) fun _ => ?_
  refine .ite (fun hpa => .pure ?_) fun hpa => ?_
  · exact ⟨rfl, rfl, (if_pos (by omega)).symm, hfl, by dsimp only; rw [hpa]; omega,
      fun d => by simp [hpa]⟩
  -- something is paid: the frozen energy is used up
  have ho : account.frozenEnergyLeft < usage := by omega
  have hpe : usage - min account.frozenEnergyLeft usage = usage - account.frozenEnergyLeft := by
    omega
  have hfee_pos : 0 < (usage - min account.frozenEnergyLeft usage) * policy.energyPrice :=
    mul_pos (by omega) hp
  have hfee_le : (usage - min account.frozenEnergyLeft usage) * policy.energyPrice ≤ feeLimit :=
    (mul_le_mul_of_nonneg_right (by omega) hp.le).trans hca
  have hpay : (usage - min account.frozenEnergyLeft usage) * policy.energyPrice ≤ account.balance :=
    (mul_le_mul_of_nonneg_right (by omega) hp.le).trans ha
  have had : Yields (if policy.adaptiveEnergy then
      billLong (totals.adaptiveBlockEnergy + (usage - min account.frozenEnergyLeft usage))
      else pure totals.adaptiveBlockEnergy : Except ReceiptError Int) (fun _ => True)
      (fun e => e = .arithmetic ∧ ¬ ChargeFits account total feeLimit totals) := by
    refine .ite (fun _ => ?_) fun _ => .pure trivial
    unfold billLong
    split
    · trivial
    · exact ⟨rfl, fun hf => ‹¬ _› (hf.adaptive _ (by omega) (by omega))⟩
  refine .bind had fun adaptive _ => ?_
  by_cases hff : InI64 ((usage - min account.frozenEnergyLeft usage) * policy.energyPrice)
  · rw [billLong_of_inI64 hff, ok_bind]
    refine .ite (fun hpo => absurd hpo (by omega)) fun _ => ?_
    refine .bind ((credit_spec _ _ _).mono (fun _ h => h)
      fun e ⟨he, hn⟩ => ⟨he, fun hf => hn ?_⟩) fun totals' hc => .pure ?_
    · have hr := (hf.fee _ hfee_pos hfee_le).2 (policy.destination r.result)
      cases hd : policy.destination r.result <;> rwa [hd] at hr
    · refine ⟨rfl, rfl, (if_neg (by omega)).symm, hfl, by dsimp only; omega, fun d => ?_⟩
      rw [hc d]
      cases d <;> rfl
  · rw [billLong, if_neg hff]
    exact ⟨rfl, fun hf => hff (hf.fee _ hfee_pos hfee_le).1⟩

/-! ## The bill of a plan -/

section Plan

variable {plan : EnergyExecutionPlan} {r : Receipt} {callerLimit feeLimit liquid balance : Int}

theorem Planned.charge (h : Planned plan callerLimit feeLimit liquid) (totals : BillingTotals)
    {r : Receipt} {usage total : Int} (hle : r.callerEnergyLeft = plan.caller.frozenEnergyLeft)
    (hb : liquid ≤ balance) (hu : 0 ≤ usage) (ht : usage ≤ total)
    (hl : usage ≤ callerLimit) :
    Yields (r.charge { plan.caller with balance := balance } usage plan.callerPaidEnergyLimit
        plan.policy totals)
      (Charged r { plan.caller with balance := balance } usage plan.policy totals)
      (fun e => e = .arithmetic ∧ ¬ plan.Fits total feeLimit totals) := by
  rw [h.paid]
  refine .mono (charge_spec totals h.price_pos h.frozen_nonneg hle hu ht hl
    (h.affordable.trans hb) h.capped) (fun _ h => h) fun e ⟨he, hn⟩ => ⟨he, fun hf =>
      hn ⟨hf.caller, hf.adaptive, hf.fee⟩⟩

theorem Planned.bill (h : Planned plan callerLimit feeLimit liquid) (hr : r.Unbilled)
    (hb : liquid ≤ balance) (totals : BillingTotals) {r₀ : Receipt} {origin : EnergyOrigin}
    (originUsage usage : Int) (hr₀ : r₀.energyFee = r.energyFee ∧ r₀.result = r.result ∧
      r₀.originEnergyUsage = originUsage ∧ r₀.callerEnergyLeft = plan.caller.frozenEnergyLeft)
    (hs : originUsage + usage = r.energyUsageTotal) (hn : 0 ≤ originUsage ∧ 0 ≤ usage)
    (hl : usage ≤ callerLimit)
    (ho : origin.energyLeft = plan.origin.energyLeft - originUsage) :
    Yields (do
        let (r', caller, totals') ← r₀.charge { plan.caller with balance := balance } usage
          plan.callerPaidEnergyLimit plan.policy totals
        pure (Settlement.mk r' caller origin totals'))
      (fun s => ∃ paid, Settled plan r balance totals feeLimit paid s)
      (plan.Fails r.energyUsageTotal feeLimit totals) := by
  obtain ⟨hf₀, hre, ho₀, hle⟩ := hr₀
  refine .bind ((h.charge totals hle hb hn.2 (by omega) hl).mono
    (fun _ h => h) fun _ => .inr) ?_
  rintro ⟨r', caller, totals'⟩ hc
  have hfr := h.frozen_nonneg
  have hf : r'.energyFee =
      (usage - min plan.caller.frozenEnergyLeft usage) * plan.policy.energyPrice := by
    refine hc.energyFee.trans ?_
    split
    · rename_i hco
      rw [hf₀, hr.2, min_eq_right hco, sub_self, zero_mul]
    · rfl
  have hca : (usage - min plan.caller.frozenEnergyLeft usage) * plan.policy.energyPrice ≤
      feeLimit := (mul_le_mul_of_nonneg_right (by omega) h.price_pos.le).trans h.capped
  have hou : r'.originEnergyUsage = originUsage :=
    hc.originEnergyUsage.trans ho₀
  have heu : r'.energyUsage = min plan.caller.frozenEnergyLeft usage :=
    hc.energyUsage
  refine .pure ⟨usage - min plan.caller.frozenEnergyLeft usage, ?_, ?_, ?_, ?_, hf,
    hf.trans_le hca, ?_, fun d => ?_⟩
  · rw [hou, heu]
    omega
  · rw [hou, heu]
    omega
  · exact ho.trans (by rw [hou])
  · exact hc.frozenEnergyLeft.trans (by rw [heu])
  · exact hc.balance.trans (by rw [hf])
  · exact (hc.credited d).trans (by rw [hre, hf])

/-- What the origin leaves is within the limit of the caller: the plan rounds down the share that
it adds to that limit, the bill rounds down the part of the origin. -/
theorem share_le {total percent left originLimit : Int}
    (hl : total ≤ callerLimit + min left originLimit)
    (hs : total * (100 - percent) ≤ callerLimit * 100) :
    total - min (total * percent / 100) (min left originLimit) ≤ callerLimit := by
  rcases le_total (total * percent / 100) (min left originLimit) with h | h
  · rw [min_eq_left h]
    exact Rounding.sub_share_le (by decide) hs
  · rw [min_eq_right h]
    omega

/-- **A plan that keeps its promises is settled**: the bill is split exactly and its fee is within
the limit, unless the contract is missing before Constantinople or an `i64` overflows. -/
theorem Planned.settle (h : Planned plan callerLimit feeLimit liquid) (hr : r.Unbilled)
    (ht : 0 ≤ r.energyUsageTotal) (hl : r.energyUsageTotal ≤ plan.energyLimit)
    (hb : liquid ≤ balance) (totals : BillingTotals) :
    Yields (plan.settle r balance totals)
      (fun s => ∃ paid, Settled plan r balance totals feeLimit paid s)
      (plan.Fails r.energyUsageTotal feeLimit totals) := by
  have hfr := h.frozen_nonneg
  have hca := h.capped
  have hfl : 0 ≤ feeLimit :=
    (mul_nonneg h.limit_nonneg h.price_pos.le).trans hca
  unfold EnergyExecutionPlan.settle Receipt.payEnergyBillPlanned
  refine .ite (fun hov => absurd hl (by omega)) fun _ => ?_
  -- without energy there is no bill
  refine .ite (fun hz => .pure ⟨0, ?_⟩) fun hpo => ?_
  · have hz' : r.energyUsageTotal = 0 := le_antisymm hz ht
    refine ⟨?_, ?_, ?_, ?_, ?_, ?_, ?_, fun d => ?_⟩ <;> simp [hr.1, hr.2, hz', hfl]
  have hs := h.shares
  unfold EnergyExecutionPlan.Shares at hs
  cases ho : plan.origin with
  | absent =>
    rw [ho] at hs
    refine .ite (fun hc =>
      .throw (.inl ⟨rfl, ho, hc, not_le.mp hpo⟩)) fun _ => ?_
    exact h.bill hr hb totals 0 r.energyUsageTotal ⟨rfl, rfl, rfl, rfl⟩ (zero_add _)
      ⟨le_rfl, ht⟩ (hl.trans hs) (by rw [ho]; rfl)
  | sameAsCaller =>
    rw [ho] at hs
    exact h.bill hr hb totals 0 r.energyUsageTotal ⟨rfl, rfl, rfl, rfl⟩ (zero_add _)
      ⟨le_rfl, ht⟩ (hl.trans hs) (by rw [ho]; rfl)
  | distinct account =>
    rw [ho] at hs
    obtain ⟨hp, ⟨hle, hol⟩, ha, hsh⟩ := hs
    have hcu : max 0 (min plan.originPercent 100) = plan.originPercent := by omega
    by_cases hpr : InI64 (r.energyUsageTotal * plan.originPercent)
    · -- the part of the origin
      have hre := share_le (hl.trans ha)
        ((mul_le_mul_of_nonneg_right hl (by omega)).trans hsh)
      have hreq : 0 ≤ r.energyUsageTotal * plan.originPercent / 100 :=
        Int.ediv_nonneg (mul_nonneg ht hp.1) (by decide)
      have hrequested_le : r.energyUsageTotal * plan.originPercent / 100 ≤ r.energyUsageTotal :=
        Int.ediv_le_of_le_mul (by decide) (mul_le_mul_of_nonneg_left hp.2 ht)
      have hu : min (min (min ((r.energyUsageTotal * plan.originPercent).tdiv 100)
          account.frozenEnergyLeft) (max plan.originEnergyLimit 0)) (max account.frozenEnergyLeft 0) =
          min (r.energyUsageTotal * plan.originPercent / 100)
            (min account.frozenEnergyLeft plan.originEnergyLimit) := by
        rw [Int.tdiv_eq_ediv_of_nonneg (mul_nonneg ht hp.1)]
        omega
      have hpa : 0 ≤ min (r.energyUsageTotal * plan.originPercent / 100)
          (min account.frozenEnergyLeft plan.originEnergyLimit) ∧
          min (r.energyUsageTotal * plan.originPercent / 100)
            (min account.frozenEnergyLeft plan.originEnergyLimit) ≤
              min r.energyUsageTotal account.frozenEnergyLeft := by omega
      simp only [EnergyOrigin.energyLeft, hcu, billLong_of_inI64 hpr, ok_bind, hu]
      generalize min (r.energyUsageTotal * plan.originPercent / 100)
        (min account.frozenEnergyLeft plan.originEnergyLimit) = part at hre hpa ⊢
      refine .bind ((useFrozen_spec hpa.1 (by omega)
        (show part ≤ r.energyUsageTotal by omega)).mono (fun _ h => h) fun e ⟨he, hn⟩ =>
          .inr ⟨he, fun hf => hn (hf.origin account ho).1⟩) ?_
      rintro account' ⟨-, hus⟩
      exact h.bill hr hb totals part (r.energyUsageTotal - part) ⟨rfl, rfl, rfl, rfl⟩
        (by omega) ⟨hpa.1, by omega⟩ hre (by rw [ho]; exact hus)
    · simp only [hcu, billLong, if_neg hpr]
      exact .inr ⟨rfl, fun hf => hpr (hf.origin account ho).2⟩

end Plan

end RustTron.Execution
