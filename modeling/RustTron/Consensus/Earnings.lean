import RustTron.Consensus.Withdrawal
import RustTron.Staking.Position
import RustTron.Tvm.Legacy

/-!
# Votes and the rewards already earned

The votes of an account may be changed by its own vote, by the unstaking that withdraws them and by
a contract. The native operations settle the rewards of the account first, through the callback of
the node; those of a contract do not.

## Main definitions

* `VoteChange`: the operations that change votes, or move the allowance to the balance
* `VoteChange.run`: such an operation on the rows of the rewards
* `VoteChange.KeepsEarnings`: a vote that earns as much for the past as the votes it replaces

## Main results

* `queryReward_kept_iff`: the operations that change no reward earned so far
-/

namespace RustTron.Consensus

open Actuator (ActuatorError Outcome ExecutionConfig FloatArithmetic RewardCallback Rewarded
  weightName recordVotes)

/-! ## Operations -/

/-- An operation that changes votes, or moves the allowance of an account to its balance. -/
inductive VoteChange where
  | voteWitness (c : Actuator.VoteWitness)
  | unfreezeBalance (c : Actuator.UnfreezeBalance)
  | unfreezeBalanceV2 (c : Actuator.UnfreezeBalanceV2)
  | tvmVoteWitness (owner : Bytes) (votes : List Vote)
  | tvmWithdrawReward (owner : Bytes)
  | tvmUnfreezeV2 (owner : Bytes) (amount kind : Word)
  | tvmUnfreezeLegacy (owner receiver : Bytes) (kind : Word)

/-- The account whose votes or allowance the operation may change. -/
def VoteChange.owner : VoteChange → Bytes
  | voteWitness c => c.ownerAddress
  | unfreezeBalance c => c.ownerAddress
  | unfreezeBalanceV2 c => c.ownerAddress
  | tvmVoteWitness owner _ => owner
  | tvmWithdrawReward owner => owner
  | tvmUnfreezeV2 owner _ _ => owner
  | tvmUnfreezeLegacy owner _ _ => owner

section Run

variable (share : Int → Int → Int → Int) (float : FloatArithmetic) (s : RewardState)

/-- An actuator of a full node: its checks, the withdrawal of the reward of its owner and the
rest. -/
def runNative {α : Type} (owner : Bytes) (validate : World → Outcome Unit)
    (execute : World → Outcome (World × α)) : Outcome RewardState := do
  validate s.world
  let s ← s.settle share owner
  let (world, _) ← execute s.world
  pure { s with world }

/-- An operation of a contract, with what it pushes; a failed one is revoked. -/
def runTvm (x : Tvm.Attempt (Int × World)) : Int × RewardState :=
  let (pushed, world) := Tvm.transactional s.world x
  (pushed, { s with world })

/-- The state after an operation, and what it has moved from the allowance to the balance. -/
def VoteChange.run : VoteChange → Outcome (RewardState × Int)
  | voteWitness c => do
    let s ← runNative share s c.ownerAddress c.validate fun w => do
      let w ← c.executeIn ⟨none, float⟩ w
      pure (w, ())
    pure (s, 0)
  | unfreezeBalance c => do
    let s ← runNative share s c.ownerAddress c.validate (c.executeIn ⟨none, float⟩)
    pure (s, 0)
  | unfreezeBalanceV2 c => do
    let s ← runNative share s c.ownerAddress c.validate (c.executeIn ⟨none, float⟩)
    pure (s, 0)
  | tvmVoteWitness owner votes =>
    pure ((runTvm s (Tvm.pushBool (Tvm.voteWitness s.world owner votes))).2, 0)
  | tvmWithdrawReward owner =>
    let (moved, s) := runTvm s (Tvm.withdrawReward s.world owner)
    pure (s, moved)
  | tvmUnfreezeV2 owner amount kind =>
    pure ((runTvm s (Tvm.pushBool (Tvm.unfreezeV2 s.world owner amount kind))).2, 0)
  | tvmUnfreezeLegacy owner receiver kind =>
    pure ((runTvm s (do
      let (released, w) ← Tvm.unfreezeLegacy s.world owner receiver kind
      pure (if released.isSome then 1 else 0, w))).2, 0)

/-- The first cycle that the rewards of the current votes of an account are still to be computed
for. -/
def RewardState.unsettledFrom (address : Bytes) (current : Int) : Int :=
  if s.delegation.begin address + 1 = s.delegation.finish address ∧
      s.delegation.begin address < current then s.delegation.begin address + 1
  else s.delegation.begin address

/-- A vote of a contract that is accepted earns for the cycles not yet settled what the votes it
replaces have earned. Every other operation settles these cycles, or leaves the votes alone. -/
def VoteChange.KeepsEarnings : VoteChange → Prop
  | tvmVoteWitness owner votes =>
    ∀ a current w, s.world.accounts.get owner = some a →
      dynamicLong s.world .currentCycleNumber = .ok current →
      s.delegation.begin owner ≤ current →
      Tvm.voteWitness s.world owner votes = .ok (true, w) →
      s.votesReward share (s.unsettledFrom owner current) current votes =
        s.votesReward share (s.unsettledFrom owner current) current a.votes
  | _ => True

end Run

/-! ## Changes of votes alone -/

/-- Only the votes of one account may have changed, of what the rewards are computed from. -/
structure OnlyVotes (owner : Bytes) (w w' : World) : Prop where
  properties : ∀ p, (∀ k, p ≠ weightName k) →
    w'.dynamicProperties.lookup p = w.dynamicProperties.lookup p
  allowance : ∀ address, (w'.accounts.get address).map Account.allowance =
    (w.accounts.get address).map Account.allowance
  votes : ∀ address, address ≠ owner → (w'.accounts.get address).map Account.votes =
    (w.accounts.get address).map Account.votes

namespace OnlyVotes

variable {owner : Bytes} {w w' : World} {a a' : Account}

theorem refl (owner : Bytes) (w : World) : OnlyVotes owner w w :=
  ⟨fun _ _ => rfl, fun _ => rfl, fun _ _ => rfl⟩

theorem congr {w'' : World} (h : OnlyVotes owner w w') (ha : w''.accounts = w'.accounts)
    (hp : w''.dynamicProperties = w'.dynamicProperties) : OnlyVotes owner w w'' := by
  refine ⟨?_, ?_, ?_⟩
  · rw [hp]
    exact h.properties
  · rw [ha]
    exact h.allowance
  · rw [ha]
    exact h.votes

theorem weights {kind : ResourceCode} {bytes : Bytes} (h : OnlyVotes owner w w') :
    OnlyVotes owner w { w' with
      dynamicProperties := w'.dynamicProperties.insert (weightName kind) bytes } :=
  ⟨fun p hp => (Finmap.lookup_insert_of_ne _ (hp kind)).trans (h.properties p hp), h.allowance,
    h.votes⟩

theorem save (h : OnlyVotes owner w w') (ha : w.accounts.get a.address = some a)
    (had : a'.address = a.address) (hal : a'.allowance = a.allowance)
    (hv : a.address ≠ owner → a'.votes = a.votes) :
    OnlyVotes owner w (Actuator.save w' a') := by
  refine ⟨h.properties, fun address => ?_, fun address hne => ?_⟩
  · rw [Actuator.save, Accounts.get_put]
    split
    · next heq => rw [heq, had, ha, Option.map_some, Option.map_some, hal]
    · exact h.allowance address
  · rw [Actuator.save, Accounts.get_put]
    split
    · next heq =>
      rw [heq, had] at hne ⊢
      rw [ha, Option.map_some, Option.map_some, hv hne]
    · exact h.votes address hne

theorem dynamicLong_eq (h : OnlyVotes owner w w') {p : Property} (hp : ∀ k, p ≠ weightName k) :
    dynamicLong w' p = dynamicLong w p := by
  simp only [dynamicLong, h.properties p hp]

theorem longOr_eq (h : OnlyVotes owner w w') {p : Property} (hp : ∀ k, p ≠ weightName k)
    (default : Int) : longOr w' p default = longOr w p default := by
  simp only [longOr, h.dynamicLong_eq hp]

end OnlyVotes

theorem changeDelegation_ne (k : ResourceCode) : Property.changeDelegation ≠ weightName k := by
  cases k <;> decide

theorem currentCycleNumber_ne (k : ResourceCode) : Property.currentCycleNumber ≠ weightName k := by
  cases k <;> decide

theorem OnlyVotes.sameEarnings {s : RewardState} {w' : World} {owner address : Bytes}
    (h : OnlyVotes owner s.world w')
    (hv : (w'.accounts.get address).map Account.votes =
      (s.world.accounts.get address).map Account.votes) :
    SameEarnings s { s with world := w' } address where
  effective := rfl
  vi := rfl
  reward := rfl
  vote := rfl
  allowance := h.allowance address
  votes := hv
  change := h.longOr_eq changeDelegation_ne 0
  cycle := h.dynamicLong_eq currentCycleNumber_ne
  begin := rfl
  finish := rfl
  snapshots _ := rfl

/-! ## What the operations change -/

section Operations

variable {cfg : ExecutionConfig} {owner : Bytes} {w w' : World} {a a' : Account}
variable {kind : ResourceCode}

/-- An account with the address and the allowance of another. -/
def SameAllowance (a a' : Account) : Prop := a'.address = a.address ∧ a'.allowance = a.allowance

theorem SameAllowance.trans {a'' : Account} (h : SameAllowance a a') (h' : SameAllowance a' a'') :
    SameAllowance a a'' := ⟨h'.1.trans h.1, h'.2.trans h.2⟩

theorem sameAllowance_initializeOldTronPower {newModel : Bool}
    (h : Actuator.initializeOldTronPower a newModel = .ok a') : SameAllowance a a' := by
  unfold Actuator.initializeOldTronPower at h
  split at h
  · simp only [bind_eq_ok_iff, pure_eq_ok_iff] at h
    obtain ⟨power, -, rfl⟩ := h
    exact ⟨rfl, rfl⟩
  · cases h
    exact ⟨rfl, rfl⟩

theorem sameAllowance_addFrozenV2 {delta : Int} (h : Actuator.addFrozenV2 a kind delta = .ok a') :
    SameAllowance a a' := by
  simp only [Actuator.addFrozenV2, bind_eq_ok_iff, pure_eq_ok_iff] at h
  obtain ⟨items, -, rfl⟩ := h
  exact ⟨rfl, rfl⟩

theorem OnlyVotes.addWeight {w'' : World} {delta : Int} (h : OnlyVotes owner w w')
    (hw : Actuator.addWeight w' kind delta = .ok w'') : OnlyVotes owner w w'' := by
  obtain ⟨_, ⟨total, -, -, rfl⟩, rfl⟩ := Actuator.addWeight_eq_ok_iff.mp hw
  exact h.weights

/-- The votes of the owner are recorded anew, or stay. -/
structure RecordsVotes (w w' : World) (a a' : Account) : Prop where
  accounts : w'.accounts = w.accounts
  properties : w'.dynamicProperties = w.dynamicProperties
  same : SameAllowance a a'

theorem RecordsVotes.refl (w : World) (a : Account) : RecordsVotes w w a a :=
  ⟨rfl, rfl, rfl, rfl⟩

theorem recordsVotes_recordVotes (w : World) (a : Account) (votes : List Vote) :
    RecordsVotes w (recordVotes w a votes).1 a (recordVotes w a votes).2 := ⟨rfl, rfl, rfl, rfl⟩

theorem recordsVotes_clearVotes (w : World) (a : Account) :
    RecordsVotes w (Actuator.clearVotes w a).1 a (Actuator.clearVotes w a).2 := by
  unfold Actuator.clearVotes
  split
  · exact .refl w a
  · exact recordsVotes_recordVotes w a []

theorem RecordsVotes.oldTronPower (h : RecordsVotes w w' a a') (power : Int) :
    RecordsVotes w w' a { a' with oldTronPower := power } := ⟨h.accounts, h.properties, h.same⟩

theorem recordsVotes_scaleLegacyVotes {power : Int}
    (h : Actuator.scaleLegacyVotes cfg w a power = .ok (w', a')) : RecordsVotes w w' a a' := by
  have hs : (pure (w, a) : Outcome (World × Account)) = .ok (w', a') →
      RecordsVotes w w' a a' := by
    intro h
    cases h
    exact .refl w a
  unfold Actuator.scaleLegacyVotes at h
  split at h
  · exact hs h
  · simp only [bind_eq_ok_iff] at h
    obtain ⟨total, -, remaining, -, h⟩ := h
    split at h
    · exact hs h
    · simp only [bind_eq_ok_iff] at h
      obtain ⟨needed, -, h⟩ := h
      split at h
      · exact hs h
      · cases h
        exact recordsVotes_recordVotes w a _

theorem recordsVotes_followVotes {newModel : Bool} {power : Int}
    (h : Actuator.UnfreezeBalanceV2.followVotes cfg w a kind newModel power = .ok (w', a')) :
    RecordsVotes w w' a a' := by
  unfold Actuator.UnfreezeBalanceV2.followVotes at h
  split at h
  · cases h
    exact (recordsVotes_clearVotes w a).oldTronPower (-1)
  split at h
  · exact recordsVotes_scaleLegacyVotes h
  split at h
  · have hc := recordsVotes_clearVotes w a
    rw [pure_eq_ok_iff] at h
    rwa [h] at hc
  · cases h
    exact .refl w a

theorem recordsVotes_followVotes_legacy (w : World) (a : Account) (kind : ResourceCode)
    (newModel : Bool) :
    RecordsVotes w (Actuator.UnfreezeBalance.followVotes w a kind newModel).1 a
      (Actuator.UnfreezeBalance.followVotes w a kind newModel).2 := by
  have hc : ∀ {w' : World} {b : Account}, RecordsVotes w w' a b → RecordsVotes w w' a
      (if newModel ∧ b.oldTronPower ≠ -1 then { b with oldTronPower := -1 } else b) := by
    intro w' b h
    split
    · exact h.oldTronPower (-1)
    · exact h
  unfold Actuator.UnfreezeBalance.followVotes
  by_cases h : ¬ newModel ∨ a.oldTronPower ≠ -1 ∨ kind = .tronPower
  · simp only [if_pos h]
    exact hc (recordsVotes_recordVotes w a [])
  · simp only [if_neg h]
    exact hc (.refl w a)

theorem onlyVotes_voteWitness {float : FloatArithmetic} {c : Actuator.VoteWitness}
    (h : c.executeIn ⟨none, float⟩ w = .ok w') : OnlyVotes c.ownerAddress w w' := by
  simp only [Actuator.VoteWitness.executeIn, Actuator.withdrawReward, bind_eq_ok_iff,
    Except.ok.injEq, exists_eq_left', Actuator.account_eq_ok_iff] at h
  obtain ⟨a, ha, newModel, -, a', ha', h⟩ := h
  have had := Accounts.get_address ha
  have hs : SameAllowance a a' := by
    split at ha'
    · simp only [bind_eq_ok_iff, pure_eq_ok_iff] at ha'
      obtain ⟨power, -, rfl⟩ := ha'
      exact ⟨rfl, rfl⟩
    · cases ha'
      exact ⟨rfl, rfl⟩
  cases h
  have hr := recordsVotes_recordVotes w a' c.votes
  refine ((OnlyVotes.refl _ w).congr hr.accounts hr.properties).save
    (had.symm ▸ ha) (hr.same.1.trans hs.1) (hr.same.2.trans hs.2)
    fun hne => absurd had hne

theorem onlyVotes_unfreezeBalanceV2 {float : FloatArithmetic} {c : Actuator.UnfreezeBalanceV2}
    {result : Actuator.ActuatorResult}
    (h : c.executeIn ⟨none, float⟩ w = .ok (w', result)) : OnlyVotes c.ownerAddress w w' := by
  simp only [Actuator.UnfreezeBalanceV2.executeIn, Actuator.withdrawReward, bind_eq_ok_iff,
    Except.ok.injEq, exists_eq_left', Actuator.account_eq_ok_iff] at h
  obtain ⟨a, ha, now, -, balance, -, a₁, hi, kind, -, old, -, power, -, a₂, hadd, new, -, w₁,
    hw, days, -, delay, -, expire, -, ⟨w₂, a₃⟩, hf, h⟩ := h
  cases h
  have had := Accounts.get_address ha
  have hi := sameAllowance_initializeOldTronPower hi
  have hadd := sameAllowance_addFrozenV2 hadd
  have hf := recordsVotes_followVotes hf
  have hs : SameAllowance a a₃ :=
    ⟨hf.same.1.trans (hadd.1.trans hi.1), hf.same.2.trans (hadd.2.trans hi.2)⟩
  exact (((OnlyVotes.refl _ w).addWeight hw).congr hf.accounts hf.properties).save
    (had.symm ▸ ha) hs.1 hs.2 fun hne => absurd had hne

theorem sameAllowance_setDelegatedLegacy (a : Account) (kind : ResourceCode) (x : Int) :
    SameAllowance a (Actuator.setDelegatedLegacy a kind x) := by
  cases kind <;> exact ⟨rfl, rfl⟩

theorem sameAllowance_releaseLegacy (a : Account) (kind : ResourceCode) (now : Int) :
    SameAllowance a (Actuator.releaseLegacy a kind now).1 := by
  cases kind <;> exact ⟨rfl, rfl⟩

/-- A receiver gives back what it held: of what the rewards are computed from, nothing changes. -/
theorem OnlyVotes.setAcquiredLegacy (h : OnlyVotes owner w w') {x : Int} {receiver : Bytes}
    (ha : w.accounts.get receiver = some a) :
    OnlyVotes owner w (Actuator.save w' (Actuator.setAcquiredLegacy a kind x)) := by
  have had := Accounts.get_address ha
  refine h.save (a := a) (had.symm ▸ ha) ?_ ?_ fun _ => ?_ <;> cases kind <;> rfl

theorem onlyVotes_takeBack {c : Actuator.UnfreezeBalance} {amount : Int}
    (h : c.takeBack w a kind = .ok (w', a', amount)) :
    OnlyVotes owner w w' ∧ SameAllowance a a' := by
  simp only [Actuator.UnfreezeBalance.takeBack, bind_eq_ok_iff] at h
  obtain ⟨left, -, h⟩ := h
  cases h
  refine ⟨?_, sameAllowance_setDelegatedLegacy a _ _⟩
  split
  · next receiver hr =>
    refine OnlyVotes.setAcquiredLegacy ?_ hr
    split
    · exact (OnlyVotes.refl owner w).congr rfl rfl
    · exact (OnlyVotes.refl owner w).congr rfl rfl
  · split
    · exact (OnlyVotes.refl owner w).congr rfl rfl
    · exact (OnlyVotes.refl owner w).congr rfl rfl

theorem onlyVotes_unfreezeBalance {float : FloatArithmetic} {c : Actuator.UnfreezeBalance} {result : Actuator.ActuatorResult}
    (h : c.executeIn ⟨none, float⟩ w = .ok (w', result)) : OnlyVotes c.ownerAddress w w' := by
  simp only [Actuator.UnfreezeBalance.executeIn, Actuator.withdrawReward, bind_eq_ok_iff,
    Except.ok.injEq, exists_eq_left', Actuator.account_eq_ok_iff] at h
  obtain ⟨a, ha, a₁, hi, kind, -, now, -, ⟨w₁, a₂, amount⟩, ht, balance, -, w₂, hw,
    h⟩ := h
  cases h
  have had := Accounts.get_address ha
  have hi := sameAllowance_initializeOldTronPower hi
  have ht : OnlyVotes c.ownerAddress w w₁ ∧ SameAllowance a₁ a₂ := by
    split at ht
    · exact onlyVotes_takeBack ht
    · cases ht
      exact ⟨.refl _ w, sameAllowance_releaseLegacy a₁ kind now⟩
  have hw : OnlyVotes c.ownerAddress w w₂ := by
    split at hw
    · exact ht.1.addWeight hw
    · exact ht.1.addWeight hw
  have hf := recordsVotes_followVotes_legacy w₂ { a₂ with balance := balance } kind
    (Actuator.enabled w .allowNewResourceModel)
  have hs := hi.trans ht.2
  exact (hw.congr hf.accounts hf.properties).save (had.symm ▸ ha)
    (hf.same.1.trans hs.1) (hf.same.2.trans hs.2) fun hne => absurd had hne

/-! ### Contracts -/

theorem sameAllowance_tvm_addFrozenV2 {n : Int} (h : Tvm.addFrozenV2 a kind n = .ok a') :
    SameAllowance a a' ∧ a'.votes = a.votes := by
  simp only [Tvm.addFrozenV2, bind_eq_ok_iff, pure_eq_ok_iff] at h
  obtain ⟨items, -, rfl⟩ := h
  exact ⟨⟨rfl, rfl⟩, rfl⟩

theorem OnlyVotes.tvm_changeWeight {w'' : World} {old new : Int} (h : OnlyVotes owner w w')
    (hw : Tvm.changeWeight w' kind old new = .ok w'') : OnlyVotes owner w w'' := by
  simp only [Tvm.changeWeight, bind_eq_ok_iff, pure_eq_ok_iff] at hw
  obtain ⟨total, -, next, -, rfl⟩ := hw
  exact h.weights

theorem onlyVotes_tvm_unfreezeV2 (other : Bytes) {amount kind : Word} {accepted : Bool}
    (h : Tvm.unfreezeV2 w owner amount kind = .ok (accepted, w')) : OnlyVotes other w w' := by
  unfold Tvm.unfreezeV2 at h
  dsimp only at h
  split at h
  · cases h
    exact .refl _ w
  split at h
  · cases h
    exact .refl _ w
  next a ha =>
  simp only [bind_eq_ok_iff] at h
  obtain ⟨now, -, h⟩ := h
  split at h
  · cases h
    exact .refl _ w
  simp only [bind_eq_ok_iff] at h
  obtain ⟨balance, -, a', hadd, w₁, hw, days, -, delay, -, expire, -, h⟩ := h
  cases h
  have had := Accounts.get_address ha
  obtain ⟨hs, hv⟩ := sameAllowance_tvm_addFrozenV2 hadd
  exact ((OnlyVotes.refl _ w).tvm_changeWeight hw).save (a := a) (had.symm ▸ ha)
    hs.1 hs.2 fun _ => hv

theorem onlyVotes_recallLegacy {other receiver : Bytes} {k : ResourceCode} {now n : Int}
    (h : Tvm.recallLegacy w a owner receiver k now = some (n, w', a')) :
    OnlyVotes other w w' ∧ SameAllowance a a' ∧ a'.votes = a.votes := by
  unfold Tvm.recallLegacy at h
  dsimp only at h
  split at h
  · cases h
  split at h
  · cases h
  cases h
  refine ⟨?_, sameAllowance_setDelegatedLegacy a k _, by cases k <;> rfl⟩
  split
  · next taker ht =>
    exact ((OnlyVotes.refl other w).setAcquiredLegacy ht).congr rfl rfl
  · exact (OnlyVotes.refl other w).congr rfl rfl

theorem sameAllowance_releaseOwnLegacy {k : ResourceCode} {now n : Int}
    (h : Tvm.releaseOwnLegacy a k now = some (n, a')) : SameAllowance a a' ∧ a'.votes = a.votes := by
  unfold Tvm.releaseOwnLegacy at h
  split at h
  · split at h
    · cases h
      exact ⟨⟨rfl, rfl⟩, rfl⟩
    · cases h
  · dsimp only at h
    split at h
    · cases h
    · cases h
      exact ⟨⟨rfl, rfl⟩, rfl⟩
  · cases h

theorem onlyVotes_tvm_unfreezeLegacy (other : Bytes) {receiver : Bytes} {kind : Word} {released : Option Int}
    (h : Tvm.unfreezeLegacy w owner receiver kind = .ok (released, w')) : OnlyVotes other w w' := by
  unfold Tvm.unfreezeLegacy at h
  split at h
  · cases h
    exact .refl _ w
  next k _ =>
  split at h
  · cases h
    exact .refl _ w
  next a ha =>
  simp only [bind_eq_ok_iff] at h
  obtain ⟨now, -, h⟩ := h
  split at h
  · cases h
    exact .refl _ w
  next n w₁ a₁ hr =>
  simp only [bind_eq_ok_iff] at h
  obtain ⟨balance, -, total, -, next, -, h⟩ := h
  cases h
  have had := Accounts.get_address ha
  have hr : OnlyVotes other w w₁ ∧ SameAllowance a a₁ ∧ a₁.votes = a.votes := by
    split at hr
    · rw [Option.map_eq_some_iff] at hr
      obtain ⟨⟨n', a'⟩, hre, heq⟩ := hr
      cases heq
      exact ⟨.refl _ w, sameAllowance_releaseOwnLegacy hre⟩
    · exact onlyVotes_recallLegacy hr
  exact hr.1.weights.save (had.symm ▸ ha) hr.2.1.1 hr.2.1.2
    fun _ => hr.2.2

theorem tvm_voteWitness_eq {votes : List Vote} {accepted : Bool}
    (h : Tvm.voteWitness w owner votes = .ok (accepted, w')) :
    w' = w ∧ accepted = false ∨ accepted = true ∧
      ∃ a, w.accounts.get owner = some a ∧ w'.accounts = w.accounts.put { a with votes } ∧
        w'.dynamicProperties = w.dynamicProperties := by
  unfold Tvm.voteWitness at h
  split at h
  · cases h
    exact .inl ⟨rfl, rfl⟩
  next a ha =>
  split at h
  · cases h
    exact .inl ⟨rfl, rfl⟩
  simp only [bind_eq_ok_iff] at h
  obtain ⟨total, -, h⟩ := h
  split at h
  · cases h
    exact .inl ⟨rfl, rfl⟩
  · cases h
    exact .inr ⟨rfl, a, ha, rfl, rfl⟩

theorem onlyVotes_put (ha : w.accounts.get owner = some a)
    (hac : w'.accounts = w.accounts.put a')
    (hp : w'.dynamicProperties = w.dynamicProperties) (had : a'.address = a.address)
    (hal : a'.allowance = a.allowance) : OnlyVotes owner w w' := by
  have ho := Accounts.get_address ha
  refine ((OnlyVotes.refl owner w).save (a := a) ?_ had hal fun hne => ?_).congr
    hac hp
  · rwa [ho]
  · exact absurd ho hne

theorem tvm_withdrawReward_eq {moved : Int}
    (h : Tvm.withdrawReward w owner = .ok (moved, w')) :
    w' = w ∧ moved = 0 ∨ ∃ a a', w.accounts.get owner = some a ∧ moved = a.allowance ∧
      a'.address = a.address ∧ a'.allowance = 0 ∧ a'.votes = a.votes ∧
      w'.accounts = w.accounts.put a' ∧ w'.dynamicProperties = w.dynamicProperties := by
  unfold Tvm.withdrawReward at h
  split at h
  · cases h
    exact .inl ⟨rfl, rfl⟩
  next a ha =>
  split at h
  · cases h
    exact .inl ⟨rfl, rfl⟩
  simp only [bind_eq_ok_iff] at h
  obtain ⟨balance, -, now, -, h⟩ := h
  cases h
  exact .inr ⟨a, { a with allowance := 0, balance, latestWithdrawTime := now }, ha, rfl, rfl, rfl,
    rfl, rfl, rfl⟩

end Operations

/-! ## The rewards after a change of votes -/

section Earnings

variable {share : Int → Int → Int → Int} {float : FloatArithmetic} {s s' : RewardState}
  {owner address : Bytes} {w' : World} {a a' : Account} {q : Int}

theorem snapshotReward_eq {begin current first : Int}
    (h : s.snapshotReward share address (s.delegation.begin address)
      (s.delegation.finish address) current = .ok (begin, first)) :
    begin = s.unsettledFrom address current := by
  unfold RewardState.snapshotReward at h
  unfold RewardState.unsettledFrom
  split at h
  · next hs =>
    rw [if_pos hs]
    split at h
    · cases h
      rfl
    · simp only [bind_eq_ok_iff, pure_eq_ok_iff, Prod.mk.injEq] at h
      obtain ⟨_, -, rfl, -⟩ := h
      rfl
  · next hs =>
    rw [if_neg hs]
    cases h
    rfl

/-- What has been earned is the allowance, the reward of the snapshot and that of the votes. -/
theorem queryReward_eq_ok_iff (hc : longOr s.world .changeDelegation 0 = 1)
    (hp : w'.dynamicProperties = s.world.dynamicProperties)
    (ha : w'.accounts.get address = some a) :
    ({ s with world := w' } : RewardState).queryReward share address = .ok q ↔
      ∃ current, dynamicLong s.world .currentCycleNumber = .ok current ∧
        if s.delegation.begin address > current then a.allowance = q
        else ∃ first more, s.snapshotReward share address (s.delegation.begin address)
            (s.delegation.finish address) current =
              .ok (s.unsettledFrom address current, first) ∧
          s.votesReward share (s.unsettledFrom address current) current a.votes = .ok more ∧
          InI64 (first + more) ∧ InI64 (a.allowance + (first + more)) ∧
          q = a.allowance + (first + more) := by
  have hl : ∀ p, dynamicLong w' p = dynamicLong s.world p := fun p => by
    simp only [dynamicLong, hp]
  have hc' : longOr w' .changeDelegation 0 = 1 := by
    rw [← hc]
    simp only [longOr, hl]
  rw [RewardState.queryReward, if_neg (not_not.mpr hc'), ha]
  simp only [bind_eq_ok_iff, hl]
  refine exists_congr fun current => and_congr_right fun _ => ?_
  split
  · exact pure_eq_ok_iff
  · simp only [bind_eq_ok_iff, addOr_eq_ok]
    constructor
    · rintro ⟨⟨begin, first⟩, hf, more, hm, _, ⟨hs, rfl⟩, hfi, rfl⟩
      obtain rfl := snapshotReward_eq hf
      exact ⟨first, more, hf, hm, hs, hfi, rfl⟩
    · rintro ⟨first, more, hf, hm, hs, hfi, rfl⟩
      exact ⟨_, hf, more, hm, _, ⟨hs, rfl⟩, hfi, rfl⟩

theorem queryReward_of_none (hn : s.world.accounts.get address = none) :
    s.queryReward share address = .ok 0 := by
  unfold RewardState.queryReward
  split
  · rfl
  · rw [hn]
    rfl

/-- **A native operation** changes no reward earned so far: it settles its owner first, and changes
no other votes. -/
theorem queryReward_native (hc : longOr s.world .changeDelegation 0 = 1)
    (hs : s.settle share owner = .ok s') (ho : OnlyVotes owner s'.world w')
    (hq : s.queryReward share address = .ok q) :
    ({ s' with world := w' } : RewardState).queryReward share address = .ok q := by
  unfold RewardState.settle at hs
  split at hs
  case h_2 => cases hs
  next result hwi =>
  cases hs
  have hw := withdrawn_withdrawReward hc hwi
  by_cases heq : address = owner
  · subst heq
    cases ha : s.world.accounts.get address with
    | none =>
      -- without an account there is nothing to settle
      rw [queryReward_of_none ha] at hq
      obtain ⟨accounts, hr, hwo⟩ := hw.world
      have hn : s'.world.accounts.get address = none := by
        rw [hwo]
        rcases hr with rfl | ⟨b, _, hb, -⟩
        · exact ha
        · exact absurd (hb.symm.trans ha) (by simp)
      have hal := ho.allowance address
      rw [hn, Option.map_none, Option.map_eq_none_iff] at hal
      rw [queryReward_of_none hal]
      exact hq
    | some a =>
      obtain ⟨current, hcu, -⟩ := (queryReward_eq_ok_iff hc rfl ha).mp hq
      have hse := hw.settled current hcu (by rw [ha]; rfl)
      obtain ⟨accounts, hr, hwo⟩ := hw.world
      have hq' := hw.query q hq
      have hch' : longOr s'.world .changeDelegation 0 = 1 := by
        rw [hwo]
        exact hc
      have hc' : dynamicLong s'.world .currentCycleNumber = .ok current := by
        rw [hwo]
        exact hcu
      cases hb : s'.world.accounts.get address with
      | none =>
        have hal := ho.allowance address
        rw [hb, Option.map_none, Option.map_eq_none_iff] at hal
        rw [queryReward_of_none hal]
        rwa [queryReward_of_none hb] at hq'
      | some b =>
        have hal := ho.allowance address
        rw [hb, Option.map_some, Option.map_eq_some_iff] at hal
        obtain ⟨b', hb', hal⟩ := hal
        -- the votes of a settled account earn nothing yet
        rw [queryReward_of_settled hch' hb hc' hse] at hq'
        have hch : longOr w' .changeDelegation 0 = 1 :=
          (ho.longOr_eq changeDelegation_ne 0).trans hch'
        have hcy : dynamicLong w' .currentCycleNumber = .ok current :=
          (ho.dynamicLong_eq currentCycleNumber_ne).trans hc'
        rw [queryReward_of_settled (s := { s' with world := w' }) hch hb' hcy hse,
          hal]
        exact hq'
  · rw [(ho.sameEarnings (ho.votes address heq)).queryReward_eq,
      (hw.others address heq).queryReward_eq]
    exact hq

theorem queryReward_unvoted (ho : ∀ other, OnlyVotes other s.world w') (address : Bytes) :
    ({ s with world := w' } : RewardState).queryReward share address =
      s.queryReward share address := by
  -- the votes are changed for another address at most
  have hne : address ≠ 0 :: address := fun h => by simpa using congrArg List.length h
  exact ((ho (0 :: address)).sameEarnings ((ho _).votes address hne)).queryReward_eq

/-- The reward of the owner of an accepted vote: what changes is the reward of the votes. -/
theorem queryReward_tvm_voteWitness {votes : List Vote}
    (hch : longOr s.world .changeDelegation 0 = 1)
    (hv : Tvm.voteWitness s.world owner votes = .ok (true, w'))
    (hqu : s.queryReward share owner = .ok q) :
    ({ s with world := w' } : RewardState).queryReward share owner = .ok q ↔
      (VoteChange.tvmVoteWitness owner votes).KeepsEarnings share s := by
  obtain ⟨-, hfa⟩ | ⟨-, a, ha, hac, hp⟩ := tvm_voteWitness_eq hv
  · cases hfa
  have hg : w'.accounts.get owner = some { a with votes } := by
    rw [hac, ← Accounts.get_address ha]
    exact Accounts.get_put_self _ { a with votes }
  obtain ⟨current, hcu, he⟩ := (queryReward_eq_ok_iff hch rfl ha).mp hqu
  rw [queryReward_eq_ok_iff hch hp hg]
  constructor
  · rintro ⟨current', hc', he'⟩
    cases hcu.symm.trans hc'
    intro b current' w hb hc hd _
    cases ha.symm.trans hb
    cases hcu.symm.trans hc
    rw [if_neg (not_lt.mpr hd)] at he he'
    obtain ⟨first, more, hf, hm, -, -, hq⟩ := he
    obtain ⟨first', more', hf', hm', -, -, hq'⟩ := he'
    obtain rfl : first = first' := (Prod.mk.inj (Except.ok.inj (hf.symm.trans hf'))).2
    -- the allowance and the reward of the snapshot are the same, so the rest is
    have hm' : s.votesReward share (s.unsettledFrom owner current) current votes =
        .ok more' := hm'
    have heq : more' = more := by
      dsimp only at hq'
      omega
    rw [hm, hm', heq]
  · intro hk
    refine ⟨current, hcu, ?_⟩
    by_cases hl : s.delegation.begin owner > current
    · rw [if_pos hl] at he ⊢
      exact he
    · rw [if_neg hl] at he ⊢
      obtain ⟨first, more, hf, hm, hsu, hfi, hq⟩ := he
      have hs := hk a current w' ha hcu (not_lt.mp hl) hv
      exact ⟨first, more, hf, hs.trans hm, hsu, hfi, hq⟩

theorem queryReward_tvm_withdrawReward {moved : Int}
    (hc : longOr s.world .changeDelegation 0 = 1)
    (hw : Tvm.withdrawReward s.world owner = .ok (moved, w'))
    (hq : s.queryReward share address = .ok q) :
    ∃ q', ({ s with world := w' } : RewardState).queryReward share address = .ok q' ∧
      q' + (if address = owner then moved else 0) = q := by
  obtain ⟨rfl, rfl⟩ | ⟨a, a', ha, rfl, had, hal, hv, hac, hp⟩ :=
    tvm_withdrawReward_eq hw
  · exact ⟨q, hq, by simp⟩
  have ho := Accounts.get_address ha
  by_cases heq : address = owner
  · subst heq
    rw [if_pos rfl]
    have hg : w'.accounts.get address = some a' := by
      rw [hac, ← ho, ← had]
      exact Accounts.get_put_self _ a'
    obtain ⟨current, hcu, he⟩ := (queryReward_eq_ok_iff hc rfl ha).mp hq
    refine ⟨q - a.allowance, ?_, by omega⟩
    rw [queryReward_eq_ok_iff hc hp hg]
    refine ⟨current, hcu, ?_⟩
    by_cases hl : s.delegation.begin address > current
    · rw [if_pos hl] at he ⊢
      omega
    · rw [if_neg hl] at he ⊢
      obtain ⟨first, more, hf, hm, hsu, -, rfl⟩ := he
      refine ⟨first, more, hf, hv.symm ▸ hm, hsu, ?_, by omega⟩
      rwa [hal, zero_add]
  · rw [if_neg heq]
    refine ⟨q, ?_, add_zero q⟩
    have hg : w'.accounts.get address = s.world.accounts.get address := by
      rw [hac]
      exact Accounts.get_put_of_ne _ (had.trans ho ▸ heq)
    have hs : SameEarnings s { s with world := w' } address := by
      refine ⟨⟨rfl, rfl, rfl, rfl⟩, by rw [hg], by rw [hg], ?_, ?_, rfl, rfl, fun _ => rfl⟩
      · simp only [longOr, dynamicLong, hp]
      · simp only [dynamicLong, hp]
    rw [hs.queryReward_eq]
    exact hq

/-- **The operations that change no reward earned so far.** With the reward accounting of the
delegation store on, what an account has earned right after an operation, with what it has moved
to the balance, is what it had earned right before: for every account, unless a contract votes for
one whose cycles are not settled and that would have earned something else with the new votes. -/
theorem queryReward_kept_iff {op : VoteChange} {moved : Int}
    (hchange : longOr s.world .changeDelegation 0 = 1)
    (hrun : op.run share float s = .ok (s', moved))
    (hquery : s.queryReward share address = .ok q) :
    (∃ q', s'.queryReward share address = .ok q' ∧
        q' + (if address = op.owner then moved else 0) = q) ↔
      (address = op.owner → op.KeepsEarnings share s) := by
  have hkept : s'.queryReward share address = .ok q → moved = 0 →
      ∃ q', s'.queryReward share address = .ok q' ∧
        q' + (if address = op.owner then moved else 0) = q := by
    rintro h rfl
    exact ⟨q, h, by simp⟩
  -- a native operation settles its owner and changes no other votes
  have hnative : ∀ {w' : World} {t : RewardState} {owner : Bytes},
      s.settle share owner = .ok t → OnlyVotes owner t.world w' → s' = { t with world := w' } →
      s'.queryReward share address = .ok q := by
    rintro w' t owner hsettle honly rfl
    exact queryReward_native hchange hsettle honly hquery
  cases op with
  | voteWitness c =>
    simp only [VoteChange.run, runNative, bind_eq_ok_iff, pure_eq_ok_iff] at hrun
    obtain ⟨_, ⟨-, -, t, hsettle, ⟨w', _⟩, ⟨_, hexecute, heq⟩, rfl⟩, hrun⟩ := hrun
    cases heq
    cases hrun
    have honly := onlyVotes_voteWitness hexecute
    exact iff_of_true (hkept (hnative hsettle honly rfl) rfl) fun _ => trivial
  | unfreezeBalance c =>
    simp only [VoteChange.run, runNative, bind_eq_ok_iff, pure_eq_ok_iff] at hrun
    obtain ⟨_, ⟨-, -, t, hsettle, ⟨w', result⟩, hexecute, rfl⟩, hrun⟩ := hrun
    cases hrun
    have honly := onlyVotes_unfreezeBalance hexecute
    exact iff_of_true (hkept (hnative hsettle honly rfl) rfl) fun _ => trivial
  | unfreezeBalanceV2 c =>
    simp only [VoteChange.run, runNative, bind_eq_ok_iff, pure_eq_ok_iff] at hrun
    obtain ⟨_, ⟨-, -, t, hsettle, ⟨w', result⟩, hexecute, rfl⟩, hrun⟩ := hrun
    cases hrun
    have honly := onlyVotes_unfreezeBalanceV2 hexecute
    exact iff_of_true (hkept (hnative hsettle honly rfl) rfl) fun _ => trivial
  | tvmVoteWitness owner votes =>
    rcases hvote : Tvm.voteWitness s.world owner votes with e | ⟨accepted, w'⟩
    · -- a failed vote is revoked
      rw [VoteChange.run, hvote] at hrun
      cases hrun
      refine iff_of_true (hkept hquery rfl) fun _ a current w _ _ _ hvote' => ?_
      cases hvote.symm.trans hvote'
    rw [VoteChange.run, hvote] at hrun
    cases hrun
    cases accepted with
    | false =>
      -- a refused vote changes nothing
      obtain ⟨rfl, -⟩ | ⟨hfalse, -⟩ := tvm_voteWitness_eq hvote
      · refine iff_of_true (hkept hquery rfl) fun _ a current w _ _ _ hvote' => ?_
        cases hvote.symm.trans hvote'
      · cases hfalse
    | true =>
      by_cases heq : address = owner
      · subst heq
        have hiff := queryReward_tvm_voteWitness hchange hvote hquery
        refine ⟨?_, fun hkeeps => hkept (hiff.mpr (hkeeps rfl)) rfl⟩
        rintro ⟨q', hquery', hq⟩ _
        rw [ite_self, add_zero] at hq
        exact hiff.mp (hq ▸ hquery')
      · refine iff_of_true (hkept ?_ rfl) fun h => absurd h heq
        obtain ⟨-, hfalse⟩ | ⟨-, a, ha, haccounts, hproperties⟩ := tvm_voteWitness_eq hvote
        · cases hfalse
        have honly : OnlyVotes owner s.world w' := onlyVotes_put ha haccounts hproperties rfl rfl
        exact (honly.sameEarnings (honly.votes address heq)).queryReward_eq.trans hquery
  | tvmWithdrawReward owner =>
    refine iff_of_true ?_ fun _ => trivial
    cases hwithdraw : Tvm.withdrawReward s.world owner with
    | error e =>
      rw [VoteChange.run, hwithdraw] at hrun
      cases hrun
      exact hkept hquery rfl
    | ok result =>
      rw [VoteChange.run, hwithdraw] at hrun
      cases hrun
      exact queryReward_tvm_withdrawReward hchange hwithdraw hquery
  | tvmUnfreezeV2 owner amount kind =>
    refine iff_of_true ?_ fun _ => trivial
    cases hunfreeze : Tvm.unfreezeV2 s.world owner amount kind with
    | error e =>
      rw [VoteChange.run, hunfreeze] at hrun
      cases hrun
      exact hkept hquery rfl
    | ok result =>
      rw [VoteChange.run, hunfreeze] at hrun
      cases hrun
      have honly := fun other => onlyVotes_tvm_unfreezeV2 other hunfreeze
      exact hkept ((queryReward_unvoted honly address).trans hquery) rfl
  | tvmUnfreezeLegacy owner receiver kind =>
    refine iff_of_true ?_ fun _ => trivial
    cases hunfreeze : Tvm.unfreezeLegacy s.world owner receiver kind with
    | error e =>
      rw [VoteChange.run, hunfreeze] at hrun
      cases hrun
      exact hkept hquery rfl
    | ok result =>
      rw [VoteChange.run, hunfreeze] at hrun
      cases hrun
      have honly := fun other => onlyVotes_tvm_unfreezeLegacy other hunfreeze
      exact hkept ((queryReward_unvoted honly address).trans hquery) rfl

end Earnings

/-! ## A vote of a contract -/

namespace EarningsSample

/-- A contract, and two witnesses. -/
def contract : Bytes := 0x41 :: List.replicate 20 1

def elected : Bytes := 0x41 :: List.replicate 20 2

def rival : Bytes := 0x41 :: List.replicate 20 3

/-- The contract has voted for a witness that has earned one unit a vote in the first cycle, and the
second cycle is the current one. -/
def start : RewardState where
  world :=
    { accounts := Accounts.empty.put
        { address := contract, votes := [⟨elected, 10⟩], frozenV2 := [⟨0, 10 * trxPrecision⟩] }
      witnesses := ((∅ : FMap Bytes Witness).insert elected { address := elected }).insert rival
        { address := rival }
      dynamicProperties :=
        ((∅ : FMap Property Bytes).insert .changeDelegation (be64 1)).insert .currentCycleNumber
          (be64 2) }
  delegation :=
    { vi := (∅ : FMap (Int × Bytes) Int).insert (1, elected) viScale
      beginCycle := (∅ : FMap Bytes Int).insert contract 1 }
  effectiveCycle := some 0

/-- No vote is scaled, and no reward is computed by the legacy rule. -/
def float : FloatArithmetic := ⟨fun _ _ _ => 0, fun _ _ _ => 0⟩

def share : Int → Int → Int → Int := fun _ _ _ => 0

/-- The state after an operation, if it succeeds. -/
def after (op : VoteChange) : RewardState × Int :=
  (op.run share float start).toOption.getD (start, 0)

theorem run_after {op : VoteChange} (h : (op.run share float start).toBool) :
    op.run share float start = .ok (after op) := by
  rw [after]
  rcases hr : op.run share float start with e | result
  · rw [hr] at h
    cases h
  · rfl

/-- A vote of the contract. -/
def vote (witness : Bytes) : VoteChange := .tvmVoteWitness contract [⟨witness, 10⟩]

end EarningsSample

open EarningsSample in
theorem queryReward_kept_sample :
    (∃ q', (after (vote elected)).1.queryReward share contract = .ok q' ∧
        q' + (if contract = (vote elected).owner then (after (vote elected)).2 else 0) = 10) ↔
      (contract = (vote elected).owner → (vote elected).KeepsEarnings share start) :=
  queryReward_kept_iff (by decide +kernel) (run_after (by decide +kernel)) (by decide +kernel)

open EarningsSample in
/-- A contract that votes for another witness loses what it has earned with the votes before. -/
theorem reward_lost_by_vote :
    longOr start.world .changeDelegation 0 = 1 ∧ start.effectiveCycle = some 0 ∧
      start.queryReward share contract = .ok 10 ∧
      (vote rival).run share float start = .ok (after (vote rival)) ∧
      (after (vote rival)).1.queryReward share contract = .ok 0 ∧ (after (vote rival)).2 = 0 :=
  ⟨by decide +kernel, rfl, by decide +kernel, run_after (by decide +kernel), by decide +kernel,
    by decide⟩

end RustTron.Consensus
