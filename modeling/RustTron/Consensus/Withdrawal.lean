import RustTron.Consensus.Rewards
import RustTron.Consensus.Voting

/-!
# The withdrawal of rewards

What an account has earned with its votes is computed when it is asked for or paid out: for the
cycles from its begin cycle on by its votes, where the first of them may have a snapshot of the
votes before they were changed. A withdrawal pays it into the allowance of the account and moves the
begin cycle to the current one.

## Main definitions

* `DelegationStore`, `RewardState`: the rows of the rewards
* `RewardState.queryReward`, `RewardState.withdrawReward`: what has been earned, and its payment
* `RewardState.settle`, `RewardState.callback`: the reward callback of a full node
* `Withdrawn`: what a withdrawal does

## Main results

* `SameEarnings.queryReward_eq`: what the reward of an account is computed from
* `withdrawn_withdrawReward`: a withdrawal pays what has been earned, and settles the account
-/

namespace RustTron.Consensus

open Actuator (ActuatorError Outcome ExecutionConfig FloatArithmetic RewardCallback Rewarded)

/-! ## State -/

/-- The rows of the delegation store, each kind of them by cycle and witness or by account. -/
structure DelegationStore where
  vi : FMap (Int × Bytes) Int := ∅
  reward : FMap (Int × Bytes) Int := ∅
  vote : FMap (Int × Bytes) Int := ∅
  brokerage : FMap (Int × Bytes) Int := ∅
  accountVote : FMap (Int × Bytes) Account := ∅
  beginCycle : FMap Bytes Int := ∅
  endCycle : FMap Bytes Int := ∅

/-- `cycle_value`, of `begin-cycle`. -/
def DelegationStore.begin (d : DelegationStore) (address : Bytes) : Int :=
  (d.beginCycle.lookup address).getD 0

/-- `cycle_value`, of `end-cycle`. -/
def DelegationStore.finish (d : DelegationStore) (address : Bytes) : Int :=
  (d.endCycle.lookup address).getD 0

/-- The accumulated index of a witness after a cycle. -/
def DelegationStore.viAt (d : DelegationStore) (witness : Bytes) (cycle : Int) : Int :=
  (d.vi.lookup (cycle, witness)).getD 0

/-- The stores that rewards are computed from. -/
structure RewardState where
  world : World := {}
  delegation : DelegationStore := {}
  effectiveCycle : Option Int := none

structure RewardWithdrawal where
  reward : Int
  beginCycle : Int
  endCycle : Int

/-! ## What has been earned -/

/-- The votes of an account as the reward is computed from them. -/
def voteRewards (votes : List Vote) : List VoteReward :=
  votes.map fun vote => ⟨vote.voteAddress, vote.voteCount⟩

/-- `legacy_cycle_reward`, with the floating-point expression for the share of a vote in a reward as
a function of the integers in it. -/
def legacyCycleReward (share : Int → Int → Int → Int) (d : DelegationStore) (cycle : Int)
    (votes : List VoteReward) : Int :=
  votes.foldl (fun sum v =>
    let total := (d.reward.lookup (cycle, v.witness)).getD 0
    let count := (d.vote.lookup (cycle, v.witness)).getD 0
    if total ≤ 0 ∨ count ≤ 0 then sum
    else Actuator.saturate (sum + share v.votes count total)) 0

def adjustAllowance (w : World) (address : Bytes) (amount : Int) : Except StateError World :=
  if amount = 0 then pure w
  else
    match w.accounts.get address with
    | none => throw (.missingAccount address)
    | some a =>
      if InI64 (a.allowance + amount) ∧ 0 ≤ a.allowance + amount then
        pure { w with accounts := w.accounts.put { a with allowance := a.allowance + amount } }
      else throw (.arithmeticOverflow "allowance")

namespace RewardState

variable (share : Int → Int → Int → Int) (s : RewardState)

/-- `compute_account_reward`. Where the additions of the source overflow it panics. -/
def computeReward (begin finish : Int) (votes : List Vote) : Except StateError Int :=
  match rewardAcrossCycles (s.effectiveCycle.getD i64Max) (voteRewards votes)
      (legacyCycleReward share s.delegation) s.delegation.viAt begin finish with
  | some reward => .ok reward
  | none => .error (.arithmeticOverflow "attempt to add with overflow")

/-- The reward of the cycle that a snapshot of the votes was taken in, and the first cycle after
it. -/
def snapshotReward (address : Bytes) (begin finish current : Int) : Except StateError (Int × Int) :=
  if begin + 1 = finish ∧ begin < current then
    match s.delegation.accountVote.lookup (begin, address) with
    | none => pure (begin + 1, 0)
    | some snapshot => do
      let reward ← s.computeReward share begin finish snapshot.votes
      pure (begin + 1, reward)
  else pure (begin, 0)

/-- The reward of the votes from a cycle up to the current one. -/
def votesReward (begin current : Int) (votes : List Vote) : Except StateError Int :=
  if votes ≠ [] ∧ begin < current then s.computeReward share begin current votes else pure 0

def queryReward (address : Bytes) : Except StateError Int :=
  if longOr s.world .changeDelegation 0 ≠ 1 then pure 0
  else
    match s.world.accounts.get address with
    | none => pure 0
    | some a => do
      let current ← dynamicLong s.world .currentCycleNumber
      if s.delegation.begin address > current then pure a.allowance
      else do
        let (begin, first) ← s.snapshotReward share address (s.delegation.begin address)
          (s.delegation.finish address) current
        let more ← s.votesReward share begin current a.votes
        let reward ← addOr "query reward" first more
        addOr "query allowance" a.allowance reward

/-- The cycles of an account written anew. -/
def saveCycles (address : Bytes) (begin : Int) (finish : Option Int) : RewardState :=
  { s with
    delegation := { s.delegation with
      beginCycle := s.delegation.beginCycle.insert address begin
      endCycle :=
        match finish with
        | some cycle => s.delegation.endCycle.insert address cycle
        | none => s.delegation.endCycle } }

/-- A snapshot of the account, with its votes. -/
def saveSnapshot (cycle : Int) (a : Account) : RewardState :=
  { s with
    delegation := { s.delegation with
      accountVote := s.delegation.accountVote.insert (cycle, a.address) a } }

def withdrawReward (address : Bytes) : Except StateError (RewardState × RewardWithdrawal) :=
  let begin := s.delegation.begin address
  let finish := s.delegation.finish address
  if longOr s.world .changeDelegation 0 ≠ 1 then pure (s, ⟨0, begin, finish⟩)
  else
    match s.world.accounts.get address with
    | none => pure (s, ⟨0, 0, 0⟩)
    | some a => do
      let current ← dynamicLong s.world .currentCycleNumber
      if begin > current ∨
          (begin = current ∧ (s.delegation.accountVote.lookup (begin, address)).isSome) then
        pure (s, ⟨0, begin, finish⟩)
      else do
        let (begin, first) ← s.snapshotReward share address begin finish current
        let world ← adjustAllowance s.world address first
        let s := { s with world }
        let next ← addOr "attempt to add with overflow" current 1
        if a.votes = [] then
          pure (s.saveCycles address next none, ⟨first, next, finish⟩)
        else do
          let more ← s.votesReward share begin current a.votes
          let world ← adjustAllowance s.world address more
          let paid ← addOr "withdraw reward" first more
          let s := { s with world }
          pure ((s.saveCycles address current (some next)).saveSnapshot current a,
            ⟨paid, current, next⟩)

/-- `ConsensusRewardCallback::withdraw_reward`: the state after a withdrawal, with the error as an
actuator gives it. -/
def settle (address : Bytes) : Outcome RewardState :=
  match s.withdrawReward share address with
  | .ok (s, _) => .ok s
  | .error e => .error (.execution e.toText)

end RewardState

/-! ## A withdrawal pays what has been earned -/

section Withdrawal

variable {share : Int → Int → Int → Int} {s s' : RewardState} {address : Bytes}
  {result : RewardWithdrawal}

theorem rewarded_adjustAllowance {w w' : World} {amount : Int}
    (h : adjustAllowance w address amount = .ok w') :
    (∃ accounts, Rewarded address w.accounts accounts ∧ w' = { w with accounts }) ∧
      ∀ a, w.accounts.get address = some a →
        ∃ a', w'.accounts.get address = some a' ∧ a'.allowance = a.allowance + amount ∧
          a'.votes = a.votes ∧ (amount ≠ 0 → InI64 a'.allowance) := by
  unfold adjustAllowance at h
  split at h
  · next hz =>
    rw [pure_eq_ok_iff] at h
    subst h
    refine ⟨⟨w.accounts, .inl rfl, rfl⟩, fun a ha => ⟨a, ha, ?_, rfl, fun hne => absurd hz hne⟩⟩
    omega
  · split at h
    · exact absurd h throw_ne_ok
    · next a ha =>
      split at h
      · next hf =>
        rw [pure_eq_ok_iff] at h
        subst h
        have had := Accounts.get_address ha
        refine ⟨⟨_, .inr ⟨a, _, ha, rfl⟩, rfl⟩, fun b hb => ?_⟩
        cases ha.symm.trans hb
        refine ⟨{ a with allowance := a.allowance + amount }, ?_, rfl, rfl, fun _ => hf.1⟩
        subst had
        exact Accounts.get_put_self w.accounts { a with allowance := a.allowance + amount }
      · exact absurd h throw_ne_ok

theorem rewarded_trans {a₀ a₁ a₂ : Accounts} (h : Rewarded address a₀ a₁)
    (h' : Rewarded address a₁ a₂) : Rewarded address a₀ a₂ := by
  rcases h with rfl | ⟨a, allowance, ha, rfl⟩
  · exact h'
  · rcases h' with rfl | ⟨b, allowance', hb, rfl⟩
    · exact .inr ⟨a, allowance, ha, rfl⟩
    · have had := Accounts.get_address ha
      subst had
      have hg := Accounts.get_put_self a₀ { a with allowance }
      cases hg.symm.trans hb
      exact .inr ⟨a, allowance', ha, Accounts.put_put a₀ rfl⟩

/-- The rows that the rewards of any votes are computed from are the same. -/
structure SameIndex (s s' : RewardState) : Prop where
  effective : s'.effectiveCycle = s.effectiveCycle
  vi : s'.delegation.vi = s.delegation.vi
  reward : s'.delegation.reward = s.delegation.reward
  vote : s'.delegation.vote = s.delegation.vote

theorem SameIndex.computeReward_eq (h : SameIndex s s') (begin finish : Int) (votes : List Vote) :
    s'.computeReward share begin finish votes = s.computeReward share begin finish votes := by
  have hvi : s'.delegation.viAt = s.delegation.viAt := by
    funext witness cycle
    rw [DelegationStore.viAt, DelegationStore.viAt, h.vi]
  have hl : legacyCycleReward share s'.delegation = legacyCycleReward share s.delegation := by
    funext cycle votes
    simp only [legacyCycleReward, h.reward, h.vote]
  simp only [RewardState.computeReward, h.effective, hvi, hl]

theorem SameIndex.votesReward_eq (h : SameIndex s s') (begin current : Int) (votes : List Vote) :
    s'.votesReward share begin current votes = s.votesReward share begin current votes := by
  simp only [RewardState.votesReward, h.computeReward_eq]

/-- Nothing that the reward of an account is computed from has changed. -/
structure SameEarnings (s s' : RewardState) (address : Bytes) : Prop extends SameIndex s s' where
  allowance : (s'.world.accounts.get address).map Account.allowance =
    (s.world.accounts.get address).map Account.allowance
  votes : (s'.world.accounts.get address).map Account.votes =
    (s.world.accounts.get address).map Account.votes
  change : longOr s'.world .changeDelegation 0 = longOr s.world .changeDelegation 0
  cycle : dynamicLong s'.world .currentCycleNumber = dynamicLong s.world .currentCycleNumber
  begin : s'.delegation.begin address = s.delegation.begin address
  finish : s'.delegation.finish address = s.delegation.finish address
  snapshots : ∀ c, s'.delegation.accountVote.lookup (c, address) =
    s.delegation.accountVote.lookup (c, address)

theorem SameEarnings.snapshotReward_eq (h : SameEarnings s s' address)
    (begin finish current : Int) :
    s'.snapshotReward share address begin finish current =
      s.snapshotReward share address begin finish current := by
  simp only [RewardState.snapshotReward, h.snapshots, h.computeReward_eq]

theorem SameEarnings.queryReward_eq (h : SameEarnings s s' address) :
    s'.queryReward share address = s.queryReward share address := by
  have hal := h.allowance
  have hv := h.votes
  rw [RewardState.queryReward, RewardState.queryReward, h.change]
  cases ha : s.world.accounts.get address with
  | none =>
    rw [ha, Option.map_none, Option.map_eq_none_iff] at hal
    rw [hal]
  | some a =>
    rw [ha, Option.map_some, Option.map_eq_some_iff] at hal hv
    obtain ⟨a', ha', hal⟩ := hal
    obtain ⟨b, hb, hv⟩ := hv
    cases ha'.symm.trans hb
    simp only [ha', h.cycle, h.begin, h.finish, hal, hv, h.votesReward_eq,
      h.snapshotReward_eq]

/-- **The reward of a settled account** is its allowance. -/
theorem queryReward_of_settled (hch : longOr s.world .changeDelegation 0 = 1) {a : Account}
    (ha : s.world.accounts.get address = some a) {current : Int}
    (hc : dynamicLong s.world .currentCycleNumber = .ok current)
    (hs : current ≤ s.delegation.begin address) :
    s.queryReward share address =
      if s.delegation.begin address > current then .ok a.allowance
      else addOr "query allowance" a.allowance 0 := by
  rw [RewardState.queryReward, if_neg (not_not.mpr hch), ha]
  simp only [hc]
  by_cases hl : s.delegation.begin address > current
  · simp [hl, bind, Except.bind, pure, Except.pure]
  · have hn : ¬ s.delegation.begin address < current := not_lt.mpr hs
    simp [hl, RewardState.snapshotReward, RewardState.votesReward, hn, bind, Except.bind,
      pure, Except.pure, addOr, inI64_zero]

theorem addOr_eq_ok {what : String} {x y z : Int} :
    addOr what x y = .ok z ↔ InI64 (x + y) ∧ z = x + y := by
  unfold addOr
  split <;> simp_all [eq_comm]

/-- What a withdrawal does: the account is settled, and what it had earned is in its allowance. -/
structure Withdrawn (share : Int → Int → Int → Int) (s s' : RewardState) (address : Bytes) :
    Prop where
  index : SameIndex s s'
  world : ∃ accounts, Rewarded address s.world.accounts accounts ∧
    s'.world = { s.world with accounts }
  others : ∀ other, other ≠ address → SameEarnings s s' other
  settled : ∀ current, dynamicLong s.world .currentCycleNumber = .ok current →
    (s.world.accounts.get address).isSome → current ≤ s'.delegation.begin address
  query : ∀ q, s.queryReward share address = .ok q → s'.queryReward share address = .ok q

theorem rewarded_get {a₀ a₁ : Accounts} (h : Rewarded address a₀ a₁) {other : Bytes}
    (hne : other ≠ address) : a₁.get other = a₀.get other := by
  rcases h with rfl | ⟨a, allowance, ha, rfl⟩
  · rfl
  · exact Accounts.get_put_of_ne _ (by simpa [Accounts.get_address ha] using hne)

theorem sameEarnings_of_rewarded {accounts : Accounts} {other : Bytes}
    (hi : SameIndex s s') (hr : Rewarded address s.world.accounts accounts)
    (hw : s'.world = { s.world with accounts }) (hne : other ≠ address)
    (hb : s'.delegation.begin other = s.delegation.begin other)
    (hf : s'.delegation.finish other = s.delegation.finish other)
    (hs : ∀ c, s'.delegation.accountVote.lookup (c, other) =
      s.delegation.accountVote.lookup (c, other)) : SameEarnings s s' other := by
  have hg : s'.world.accounts.get other = s.world.accounts.get other := by
    rw [hw]
    exact rewarded_get hr hne
  refine ⟨hi, by rw [hg], by rw [hg], ?_, ?_, hb, hf, hs⟩
  · rw [hw]
    rfl
  · rw [hw]
    rfl

theorem Withdrawn.refl (hs : ∀ current,
    dynamicLong s.world .currentCycleNumber = .ok current →
    (s.world.accounts.get address).isSome → current ≤ s.delegation.begin address) :
    Withdrawn share s s address where
  index := ⟨rfl, rfl, rfl, rfl⟩
  world := ⟨_, .inl rfl, rfl⟩
  others _ _ := ⟨⟨rfl, rfl, rfl, rfl⟩, rfl, rfl, rfl, rfl, rfl, rfl, fun _ => rfl⟩
  settled := hs
  query _ h := h

theorem withdrawn_of_paid {a a' : Account} {accounts : Accounts} {current begin first more q : Int}
    (hch : longOr s.world .changeDelegation 0 = 1)
    (ha : s.world.accounts.get address = some a)
    (hc : dynamicLong s.world .currentCycleNumber = .ok current)
    (hd : ¬ s.delegation.begin address > current)
    (hf : s.snapshotReward share address (s.delegation.begin address)
      (s.delegation.finish address) current = .ok (begin, first))
    (hm : s.votesReward share begin current a.votes = .ok more)
    (hw : s'.world = { s.world with accounts })
    (hp : s'.world.accounts.get address = some a')
    (hal : a'.allowance = a.allowance + first + more)
    (hs : current ≤ s'.delegation.begin address)
    (hqu : s.queryReward share address = .ok q) : s'.queryReward share address = .ok q := by
  have hq : q = a.allowance + first + more ∧ InI64 q := by
    rw [RewardState.queryReward, if_neg (not_not.mpr hch), ha] at hqu
    simp only [hc, bind_eq_ok_iff, Except.ok.injEq, exists_eq_left', if_neg hd, hf,
      hm, addOr_eq_ok] at hqu
    obtain ⟨_, ⟨-, rfl⟩, hfi, rfl⟩ := hqu
    exact ⟨by omega, hfi⟩
  have hch' : longOr s'.world .changeDelegation 0 = 1 := by
    rw [hw]
    exact hch
  have hc' : dynamicLong s'.world .currentCycleNumber = .ok current := by
    rw [hw]
    exact hc
  rw [queryReward_of_settled hch' hp hc' hs]
  split
  · rw [hal, hq.1]
  · rw [addOr_eq_ok, add_zero, hal, ← hq.1]
    exact ⟨hq.2, rfl⟩

theorem saveCycles_others (t : RewardState) (begin : Int) (finish : Option Int) {other : Bytes}
    (hne : other ≠ address) :
    (t.saveCycles address begin finish).delegation.begin other = t.delegation.begin other ∧
      (t.saveCycles address begin finish).delegation.finish other = t.delegation.finish other := by
  constructor
  · simp only [RewardState.saveCycles, DelegationStore.begin, Finmap.lookup_insert_of_ne _ hne]
  · cases finish with
    | none => rfl
    | some cycle =>
      simp only [RewardState.saveCycles, DelegationStore.finish, Finmap.lookup_insert_of_ne _ hne]

theorem begin_saveCycles (t : RewardState) (begin : Int) (finish : Option Int) :
    (t.saveCycles address begin finish).delegation.begin address = begin := by
  simp [RewardState.saveCycles, DelegationStore.begin]

/-- The account is settled for the current cycle. -/
def RewardState.SettledFor (s : RewardState) (address : Bytes) (current : Int) : Prop :=
  s.delegation.begin address > current ∨
    (s.delegation.begin address = current ∧
      (s.delegation.accountVote.lookup (s.delegation.begin address, address)).isSome)

instance (s : RewardState) (address : Bytes) (current : Int) :
    Decidable (s.SettledFor address current) :=
  inferInstanceAs (Decidable (_ ∨ (_ ∧ _)))

/-- The rows of a withdrawal: an account without votes begins with the next cycle, and one with votes
leaves a snapshot of them for the current one. -/
def RewardState.settledRows (s : RewardState) (address : Bytes) (current : Int) (a : Account)
    (accounts : Accounts) : RewardState :=
  let s := { s with world := { s.world with accounts } }
  if a.votes = [] then s.saveCycles address (current + 1) none
  else (s.saveCycles address current (some (current + 1))).saveSnapshot current a

/-- **The cases of a withdrawal**: nothing is paid where there is no account or it is settled, and
else the rewards of the snapshot and of the votes. -/
theorem withdrawReward_cases (hch : longOr s.world .changeDelegation 0 = 1)
    (h : s.withdrawReward share address = .ok (s', result)) :
    (s' = s ∧ result.reward = 0 ∧ (s.world.accounts.get address = none ∨
      ∃ current, dynamicLong s.world .currentCycleNumber = .ok current ∧
        s.SettledFor address current)) ∨
      ∃ a current begin first more accounts a', s.world.accounts.get address = some a ∧
        dynamicLong s.world .currentCycleNumber = .ok current ∧ ¬ s.SettledFor address current ∧
        s.snapshotReward share address (s.delegation.begin address)
          (s.delegation.finish address) current = .ok (begin, first) ∧
        s.votesReward share begin current a.votes = .ok more ∧
        Rewarded address s.world.accounts accounts ∧ accounts.get address = some a' ∧
        a'.allowance = a.allowance + first + more ∧ result.reward = first + more ∧
        s' = s.settledRows address current a accounts := by
  rw [RewardState.withdrawReward, if_neg (not_not.mpr hch)] at h
  cases ha : s.world.accounts.get address with
  | none =>
    rw [ha] at h
    cases h
    exact .inl ⟨rfl, rfl, .inl rfl⟩
  | some a =>
    rw [ha] at h
    simp only [bind_eq_ok_iff] at h
    obtain ⟨current, hc, h⟩ := h
    split at h
    · next hdo =>
      cases h
      exact .inl ⟨rfl, rfl, .inr ⟨current, hc, hdo⟩⟩
    next hd =>
    simp only [bind_eq_ok_iff, addOr_eq_ok] at h
    obtain ⟨⟨begin, first⟩, hf, world, had, next, ⟨-, rfl⟩, h⟩ := h
    obtain ⟨⟨accounts, hr, rfl⟩, hp⟩ := rewarded_adjustAllowance had
    obtain ⟨a₁, ha₁, hal₁, -, -⟩ := hp a ha
    refine .inr ?_
    split at h
    · next hv =>
      -- without votes nothing more has been earned
      cases h
      have hn : s.votesReward share begin current a.votes = .ok 0 := by
        rw [RewardState.votesReward, if_neg fun h => h.1 hv]
        rfl
      refine ⟨a, current, begin, first, 0, accounts, a₁, rfl, hc, hd, hf, hn,
        hr, ha₁, by omega, (add_zero _).symm, ?_⟩
      rw [RewardState.settledRows, if_pos hv]
    · next hv =>
      simp only [bind_eq_ok_iff, addOr_eq_ok] at h
      obtain ⟨more, hm, world, ha', paid, ⟨-, rfl⟩, h⟩ := h
      cases h
      obtain ⟨⟨accounts', hr', rfl⟩, hp'⟩ := rewarded_adjustAllowance ha'
      obtain ⟨a₂, ha₂, hal₂, -, -⟩ := hp' a₁ ha₁
      have hm' : s.votesReward share begin current a.votes = .ok more := by
        rw [← hm]
        exact (SameIndex.votesReward_eq ⟨rfl, rfl, rfl, rfl⟩ _ _ _).symm
      refine ⟨a, current, begin, first, more, accounts', a₂, rfl, hc, hd, hf, hm',
        rewarded_trans hr hr', ha₂, by omega, rfl, ?_⟩
      rw [RewardState.settledRows, if_neg hv]

theorem settledRows_others (current : Int) {a : Account} (accounts : Accounts)
    (ha : a.address = address) {other : Bytes} (hne : other ≠ address) :
    (s.settledRows address current a accounts).delegation.begin other = s.delegation.begin other ∧
      (s.settledRows address current a accounts).delegation.finish other =
        s.delegation.finish other ∧
      ∀ c, (s.settledRows address current a accounts).delegation.accountVote.lookup (c, other) =
        s.delegation.accountVote.lookup (c, other) := by
  let t : RewardState := { s with world := { s.world with accounts } }
  unfold RewardState.settledRows
  split
  · obtain ⟨hb, hf⟩ := saveCycles_others t (current + 1) none hne
    exact ⟨hb, hf, fun _ => rfl⟩
  · obtain ⟨hb, hf⟩ := saveCycles_others t current (some (current + 1)) hne
    refine ⟨hb, hf, fun c => ?_⟩
    exact Finmap.lookup_insert_of_ne _ fun heq => hne ((Prod.mk.inj heq).2.trans ha)

theorem sameIndex_settledRows (s : RewardState) (address : Bytes) (current : Int) (a : Account)
    (accounts : Accounts) : SameIndex s (s.settledRows address current a accounts) := by
  unfold RewardState.settledRows
  split <;> exact ⟨rfl, rfl, rfl, rfl⟩

theorem world_settledRows (s : RewardState) (address : Bytes) (current : Int) (a : Account)
    (accounts : Accounts) :
    (s.settledRows address current a accounts).world = { s.world with accounts } := by
  unfold RewardState.settledRows
  split <;> rfl

theorem begin_settledRows (current : Int) (a : Account) (accounts : Accounts) :
    (s.settledRows address current a accounts).delegation.begin address =
      if a.votes = [] then current + 1 else current := by
  unfold RewardState.settledRows
  split
  · exact begin_saveCycles _ (current + 1) none
  · exact begin_saveCycles _ current (some (current + 1))

/-- **A withdrawal pays what has been earned**, and settles the account. -/
theorem withdrawn_withdrawReward (hch : longOr s.world .changeDelegation 0 = 1)
    (h : s.withdrawReward share address = .ok (s', result)) : Withdrawn share s s' address := by
  rcases withdrawReward_cases hch h with ⟨rfl, -, hdo⟩ | ⟨a, current, begin, first, more,
    accounts, a', ha, hcu, hd, hfi, hm, hr, ha', hal, -, rfl⟩
  · refine .refl fun current hcu hso => ?_
    rcases hdo with hn | ⟨current', hc', hs⟩
    · rw [hn] at hso
      cases hso
    · cases hcu.symm.trans hc'
      rcases hs with hl | ⟨heq, -⟩
      · exact hl.le
      · exact heq.ge
  have hd : ¬ s.delegation.begin address > current := fun hl => hd (.inl hl)
  have hi := sameIndex_settledRows s address current a accounts
  have hw := world_settledRows s address current a accounts
  have hs : current ≤
      (s.settledRows address current a accounts).delegation.begin address := by
    rw [begin_settledRows]
    split <;> omega
  refine ⟨hi, ⟨accounts, hr, hw⟩, fun other hne => ?_, fun c hc _ => ?_,
    fun q hq => ?_⟩
  · obtain ⟨hb, hf, hsn⟩ :=
      settledRows_others (s := s) current accounts (Accounts.get_address ha) hne
    exact sameEarnings_of_rewarded hi hr hw hne hb hf hsn
  · cases hcu.symm.trans hc
    exact hs
  · refine withdrawn_of_paid hch ha hcu hd hfi hm hw ?_ hal hs hq
    rw [hw]
    exact ha'

/-- `ConsensusRewardCallback` as the actuators see it: a withdrawal over the delegation rows of the
state, which are not among the stores of an actuator. -/
def RewardState.callback (share : Int → Int → Int → Int) (s : RewardState) : RewardCallback where
  withdrawReward w address := ({ s with world := w }.settle share address).map RewardState.world
  pays {w w' address} h := by
    unfold RewardState.settle at h
    split at h
    · next t result hw =>
      cases h
      by_cases hch : longOr w .changeDelegation 0 = 1
      · exact (withdrawn_withdrawReward hch hw).world
      · -- before the switch to delegation nothing is paid
        rw [RewardState.withdrawReward, if_pos hch] at hw
        cases hw
        exact ⟨w.accounts, .inl rfl, rfl⟩
    · cases h

end Withdrawal

end RustTron.Consensus
