import RustTron.Primitives.I64
import Mathlib

/-!
# Rewards across cycles

A voter is paid for the cycles `begin ≤ c < end` since the last withdrawal: by the legacy rule for
the cycles before the new algorithm takes effect, and from then on by the difference of the
witnesses' accumulated vote index (`vi`), scaled by `VI_SCALE`.

The source adds and subtracts in plain `i64`, which panics in a debug build when it overflows: the
model has `none` there.

The index difference of a call starts at `min end effective - 1`, whatever `begin` is. That is the
right place for an interval that begins before the switch. For one that begins after it, the call
pays the growth since the switch once more, so that splitting an interval at a later cycle pays
that growth twice.

## Main definitions

* `rewardVi`, `rewardAcrossCycles`: `reward_vi`, `reward_across_cycles`
* `SplitPays`: what splitting an interval of cycles is to pay, up to the rounding of each vote
* `NoOverflow`: what a call computes in `i64` fits
* `switchGrowth`: the growth from the switch to a cycle, as `reward_vi` pays it

## Main results

* `rewardAcrossCycles_eq_some_iff`: the reward is the sum of its terms, where nothing overflows
* `splitPays_iff`: splitting an interval is neutral when the splitting cycle is not after the
  switch, or the growth up to it is worth nothing
-/

namespace RustTron.Consensus

def viScale : Int := 1000000000000000000

structure VoteReward where
  witness : List UInt8
  votes : Int
  deriving DecidableEq

/-- `reward_vi`: the growth of the index times the votes, truncated; `0` where it is no `i64`. -/
def rewardVi (beginVi endVi : Int) (userVotes : Int) : Int :=
  let delta := endVi - beginVi
  if delta ≤ 0 then 0 else (toI64 ((delta * userVotes).tdiv viScale)).getD 0

section Reward

variable (effective : Int) (votes : List VoteReward) (legacy : Int → List VoteReward → Int)
  (vi : List UInt8 → Int → Int)

/-- `reward_across_cycles`: `none` where a running sum overflows, or the cycle before the switch. -/
def rewardAcrossCycles (begin finish : Int) : Option Int :=
  if begin ≥ finish then some 0
  else
    let oldEnd := min finish effective
    (checkedSum 0 ((Int.range begin oldEnd).map fun c => legacy c votes)).bind fun reward =>
      -- the loop computes `old_end - 1` for each vote, so not at all without votes
      if oldEnd < finish ∧ votes ≠ [] then
        (toI64 (oldEnd - 1)).bind fun start =>
          checkedSum reward (votes.map fun v =>
            rewardVi (vi v.witness start) (vi v.witness (finish - 1)) v.votes)
      else some reward

/-- What the votes earn by the index between two cycles, as `reward_vi` pays it. -/
def viTerms (start finish : Int) : List Int :=
  votes.map fun v => rewardVi (vi v.witness (start - 1)) (vi v.witness (finish - 1)) v.votes

/-- The amounts a call adds up, in order. -/
def rewardTerms (begin finish : Int) : List Int :=
  if begin ≥ finish then []
  else
    (Int.range begin (min finish effective)).map (fun c => legacy c votes) ++
      if effective < finish then viTerms votes vi effective finish else []

/-- The running sums of a call fit, and the cycle before the switch, where the index is read. -/
def NoOverflow (begin finish : Int) : Prop :=
  SumFits 0 (rewardTerms effective votes legacy vi begin finish) ∧
    (begin < finish → effective < finish → votes ≠ [] → InI64 (effective - 1))

/-- The growth from the switch to the cycle `mid`, as `reward_vi` pays it. -/
def switchGrowth (mid : Int) : Int := (viTerms votes vi effective mid).sum

/-- **Splitting the interval at `mid`** pays at most what the whole interval pays, and less by
at most one unit for each vote. -/
def SplitPays (begin mid finish : Int) : Prop :=
  ∃ first second whole,
    rewardAcrossCycles effective votes legacy vi begin mid = some first ∧
    rewardAcrossCycles effective votes legacy vi mid finish = some second ∧
    rewardAcrossCycles effective votes legacy vi begin finish = some whole ∧
    first + second ≤ whole ∧ whole - (first + second) ≤ votes.length

end Reward

theorem range_append {a b c : Int} (hab : a ≤ b) (hbc : b ≤ c) :
    Int.range a b ++ Int.range b c = Int.range a c := by
  obtain ⟨m, rfl⟩ := Int.le.dest hab
  obtain ⟨n, rfl⟩ := Int.le.dest hbc
  have h₁ : (a + m - a).toNat = m := by omega
  have h₂ : (a + m + n - (a + m)).toNat = n := by omega
  have h₃ : (a + m + n - a).toNat = m + n := by omega
  simp only [Int.range, h₁, h₂, h₃, List.range_add, List.map_append, List.map_map]
  congr 2
  funext k
  simp [add_assoc]

variable {effective : Int} {votes : List VoteReward} {legacy : Int → List VoteReward → Int}
  {vi : List UInt8 → Int → Int}

/-- **The reward** is the sum of its terms, where nothing overflows. -/
theorem rewardAcrossCycles_eq_some_iff {begin finish z : Int} :
    rewardAcrossCycles effective votes legacy vi begin finish = some z ↔
      NoOverflow effective votes legacy vi begin finish ∧
        z = (rewardTerms effective votes legacy vi begin finish).sum := by
  unfold rewardAcrossCycles NoOverflow rewardTerms
  by_cases he : begin ≥ finish
  · have hlt : ¬ begin < finish := not_lt.mpr he
    simp [he, hlt, sumFits_nil, eq_comm]
  rw [if_neg he, if_neg he]
  have hlt : begin < finish := not_le.mp he
  rcases lt_or_ge effective finish with hsw | hsw
  · -- the interval reaches past the switch: legacy terms, then one index term for each vote
    have ho : min finish effective = effective := min_eq_right hsw.le
    simp only [ho, hsw, hlt, if_true, true_and, forall_const]
    by_cases hv : votes = []
    · subst hv
      simp [viTerms, checkedSum_eq_some_iff]
    simp only [hv, not_false_eq_true, ne_eq, if_true, forall_const, Option.bind_eq_some_iff,
      checkedSum_eq_some_iff, toI64_eq_some_iff, sumFits_append, List.sum_append, viTerms]
    constructor
    · rintro ⟨r, ⟨h₁, rfl⟩, start, ⟨hs, rfl⟩, h₂, rfl⟩
      exact ⟨⟨⟨h₁, h₂⟩, hs⟩, by rw [zero_add]⟩
    · rintro ⟨⟨⟨h₁, h₂⟩, hs⟩, rfl⟩
      exact ⟨_, ⟨h₁, rfl⟩, _, ⟨hs, rfl⟩, h₂, by rw [zero_add]⟩
  · have ho : min finish effective = finish := min_eq_left hsw
    simp [ho, not_lt.mpr hsw, checkedSum_eq_some_iff]

theorem rewardTerms_of_ge {begin finish : Int} (h : begin ≥ finish) :
    rewardTerms effective votes legacy vi begin finish = [] := if_pos h

/-- Splitting at a cycle up to the switch pays each cycle's term exactly once. -/
theorem rewardTerms_split_le {begin mid finish : Int} (hbm : begin ≤ mid) (hmf : mid < finish)
    (hm : mid ≤ effective) :
    rewardTerms effective votes legacy vi begin mid ++
      rewardTerms effective votes legacy vi mid finish =
        rewardTerms effective votes legacy vi begin finish := by
  have hc : Int.range begin (min mid effective) ++ Int.range mid (min finish effective) =
      Int.range begin (min finish effective) := by
    rw [min_eq_left hm]
    exact range_append hbm (by omega)
  rcases hbm.eq_or_lt with rfl | hbm
  · simp [rewardTerms_of_ge]
  · have h₁ : ¬ begin ≥ mid := by omega
    have h₂ : ¬ mid ≥ finish := by omega
    have h₃ : ¬ begin ≥ finish := by omega
    simp only [rewardTerms, h₁, h₂, h₃, not_lt.mpr hm, if_false, List.append_nil, ← hc,
      List.map_append, List.append_assoc]

/-- Past the switch, each half of the interval pays the index from the switch on. -/
theorem rewardTerms_sum_of_switch_lt {begin mid finish : Int} (hbm : begin < mid)
    (hmf : mid < finish) (hm : effective < mid) :
    (rewardTerms effective votes legacy vi begin mid).sum +
      (rewardTerms effective votes legacy vi mid finish).sum =
        (rewardTerms effective votes legacy vi begin finish).sum +
          switchGrowth effective votes vi mid := by
  have hn : Int.range mid effective = [] := by simp [Int.range]; omega
  have h₁ : ¬ begin ≥ mid := by omega
  have h₂ : ¬ mid ≥ finish := by omega
  have h₃ : ¬ begin ≥ finish := by omega
  have h₄ : effective < finish := by omega
  simp only [rewardTerms, switchGrowth, h₁, h₂, h₃, h₄, hm, if_true, if_false,
    min_eq_right hm.le, min_eq_right h₄.le, hn, List.sum_append, List.map_nil, List.sum_nil]
  omega

/-- **When splitting an interval is neutral**: nothing overflows, and one half is empty, or
the splitting cycle is not after the switch, or the growth from the switch up to it is worth
nothing to this list of votes. -/
theorem splitPays_iff {begin mid finish : Int} (hbm : begin ≤ mid) (hmf : mid ≤ finish) :
    SplitPays effective votes legacy vi begin mid finish ↔
      (NoOverflow effective votes legacy vi begin mid ∧
        NoOverflow effective votes legacy vi mid finish ∧
        NoOverflow effective votes legacy vi begin finish) ∧
      (begin = mid ∨ mid = finish ∨ mid ≤ effective ∨
        (-(votes.length : Int) ≤ switchGrowth effective votes vi mid ∧
          switchGrowth effective votes vi mid ≤ 0)) := by
  have hsum : SplitPays effective votes legacy vi begin mid finish ↔
      (NoOverflow effective votes legacy vi begin mid ∧
        NoOverflow effective votes legacy vi mid finish ∧
        NoOverflow effective votes legacy vi begin finish) ∧
      (rewardTerms effective votes legacy vi begin mid).sum +
          (rewardTerms effective votes legacy vi mid finish).sum ≤
        (rewardTerms effective votes legacy vi begin finish).sum ∧
      (rewardTerms effective votes legacy vi begin finish).sum -
        ((rewardTerms effective votes legacy vi begin mid).sum +
          (rewardTerms effective votes legacy vi mid finish).sum) ≤ votes.length := by
    simp only [SplitPays, rewardAcrossCycles_eq_some_iff]
    constructor
    · rintro ⟨_, _, _, ⟨h₁, rfl⟩, ⟨h₂, rfl⟩, ⟨h₃, rfl⟩, h⟩
      exact ⟨⟨h₁, h₂, h₃⟩, h⟩
    · rintro ⟨⟨h₁, h₂, h₃⟩, h⟩
      exact ⟨_, _, _, ⟨h₁, rfl⟩, ⟨h₂, rfl⟩, ⟨h₃, rfl⟩, h⟩
  rw [hsum]
  refine and_congr_right fun _ => ?_
  rcases hbm.eq_or_lt with rfl | hbm'
  · simp [rewardTerms_of_ge]
  rcases hmf.eq_or_lt with rfl | hmf'
  · simp [rewardTerms_of_ge]
  rcases le_or_gt mid effective with hmid | hmid
  · have hsplit : (rewardTerms effective votes legacy vi begin mid).sum +
        (rewardTerms effective votes legacy vi mid finish).sum =
          (rewardTerms effective votes legacy vi begin finish).sum := by
      rw [← List.sum_append, rewardTerms_split_le hbm hmf' hmid]
    simp [hsplit, hmid]
  · rw [rewardTerms_sum_of_switch_lt hbm' hmf' hmid]
    have h₁ : begin ≠ mid := by omega
    have h₂ : mid ≠ finish := by omega
    have h₃ : ¬ mid ≤ effective := by omega
    simp only [h₁, h₂, h₃, false_or]
    constructor
    · rintro ⟨h, h'⟩
      omega
    · rintro ⟨h, h'⟩
      omega

/-- An interval from the cycle before the switch, split at the switch, under an index that grows
by one unit for each vote and cycle. -/
theorem splitPays_at_switch :
    (0 : Int) ≤ 1 ∧ (1 : Int) ≤ 3 ∧
      SplitPays 1 [⟨[1], 5⟩] (fun _ _ => 7) (fun _ c => c * viScale) 0 1 3 := by
  refine ⟨by decide, by decide, (splitPays_iff (by decide) (by decide)).mpr ⟨?_, by simp⟩⟩
  have h₁ : rewardTerms 1 [⟨[1], 5⟩] (fun _ _ => 7) (fun _ c => c * viScale) 0 1 = [7] := by
    decide
  have h₂ : rewardTerms 1 [⟨[1], 5⟩] (fun _ _ => 7) (fun _ c => c * viScale) 1 3 = [10] := by
    decide
  have h₃ : rewardTerms 1 [⟨[1], 5⟩] (fun _ _ => 7) (fun _ c => c * viScale) 0 3 = [7, 10] := by
    decide
  unfold NoOverflow
  rw [h₁, h₂, h₃]
  simp only [sumFits_cons, sumFits_nil]
  decide

/-- After the switch, withdrawing at cycle `2` and again at cycle `3` pays `1 + 2`, and
withdrawing once at cycle `3` pays `2`. -/
theorem not_splitPays_after_switch :
    (∀ (w : List UInt8) (c c' : Int), c ≤ c' →
      (fun (_ : List UInt8) (c : Int) => c * viScale) w c ≤
        (fun (_ : List UInt8) (c : Int) => c * viScale) w c') ∧
    ¬ SplitPays 1 [⟨[1], 1⟩] (fun _ _ => 0) (fun _ c => c * viScale) 1 2 3 := by
  refine ⟨fun _ c c' h => Int.mul_le_mul_of_nonneg_right h (by decide), ?_⟩
  rintro ⟨first, second, whole, h₁, h₂, h₃, hle, -⟩
  have e₁ : rewardAcrossCycles 1 [⟨[1], 1⟩] (fun _ _ => 0) (fun _ c => c * viScale) 1 2 =
      some 1 := by decide
  have e₂ : rewardAcrossCycles 1 [⟨[1], 1⟩] (fun _ _ => 0) (fun _ c => c * viScale) 2 3 =
      some 2 := by decide
  have e₃ : rewardAcrossCycles 1 [⟨[1], 1⟩] (fun _ _ => 0) (fun _ c => c * viScale) 1 3 =
      some 2 := by decide
  rw [e₁, Option.some.injEq] at h₁
  rw [e₂, Option.some.injEq] at h₂
  rw [e₃, Option.some.injEq] at h₃
  omega

end RustTron.Consensus
