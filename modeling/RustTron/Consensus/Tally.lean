import RustTron.Consensus.Voting
import RustTron.Staking.Runs

/-!
# The tally of votes

The vote count of a witness is kept up to date by differences: each row of the votes store holds the
votes of an account when the period began and those it has now, and a maintenance round adds the
difference. The count is right after every round as long as no row loses its old votes, which
happens when a contract votes twice in a period.

## Main definitions

* `votesFor`, `standing`, `tally`: the votes for a witness, the votes that have been counted, and
  their sum
* `Tallied`: the invariant between rounds
* `VoteAction`, `VoteRun`: the actions that change votes, and runs of them
* `KeepsOldVotes`: a contract that votes has no other old votes recorded

## Main results

* `collectDeltas_ok`, `changeCounts_ok`: what a maintenance round adds to each witness
* `Tallied.maintenance`: a round keeps the tally
* `voteCount_eq_tally_of_run`: after every round the counts are those of the votes, and the votes
  store is empty
-/

namespace RustTron.Consensus

open Actuator (Revotes SavesOwner recordVotes votesRow Operation ExecutionConfig save
  account_eq_ok_iff)

variable {m : MaintenanceConfig} {w w' : World}

/-! ## Votes for a witness -/

/-- The votes for a witness in a list of votes. -/
def votesFor (address : Bytes) (votes : List Vote) : Int :=
  ((votes.filter fun vote => vote.voteAddress = address).map Vote.voteCount).sum

/-- The part of an address in a list of amounts. -/
def amountFor (address : Bytes) (amounts : List (Bytes × Int)) : Int :=
  ((amounts.filter fun e => e.1 = address).map Prod.snd).sum

theorem votesFor_cons (address : Bytes) (vote : Vote) (votes : List Vote) :
    votesFor address (vote :: votes) =
      (if vote.voteAddress = address then vote.voteCount else 0) + votesFor address votes := by
  unfold votesFor
  by_cases h : vote.voteAddress = address <;> simp [h]

theorem amountFor_cons (address : Bytes) (e : Bytes × Int) (amounts : List (Bytes × Int)) :
    amountFor address (e :: amounts) =
      (if e.1 = address then e.2 else 0) + amountFor address amounts := by
  unfold amountFor
  by_cases h : e.1 = address <;> simp [h]

/-- The part of an address in the rows of a map is its value. -/
theorem amountFor_sortedRows (deltas : Deltas) (address : Bytes) :
    amountFor address (FMap.sortedRows keyLe deltas) = deltas.value address := by
  have hs : ∀ amounts : List (Bytes × Int), amountFor address amounts =
      (amounts.map fun e => if e.1 = address then e.2 else 0).sum := by
    intro amounts
    induction amounts with
    | nil => rfl
    | cons e amounts ih => rw [amountFor_cons, ih, List.map_cons, List.sum_cons]
  rw [hs, FMap.sum_sortedRows keyLe fun k x => if k = address then x else 0, FMap.total_single]
  rfl

/-! ## Counting -/

/-- The vote count of a witness. -/
def countAt (witnesses : FMap Bytes Witness) (address : Bytes) : Option Int :=
  (witnesses.lookup address).map Witness.voteCount

/-- Every witness is stored under its own address. -/
def Keyed (witnesses : FMap Bytes Witness) : Prop :=
  ∀ address witness, witnesses.lookup address = some witness → witness.address = address

theorem countAt_saveWitness (witnesses : FMap Bytes Witness) (witness : Witness)
    (address : Bytes) : countAt (saveWitness witnesses witness) address =
      if address = witness.address then some witness.voteCount else countAt witnesses address := by
  unfold countAt saveWitness
  split
  · next h =>
    subst h
    rw [Finmap.lookup_insert]
    rfl
  · next h => rw [Finmap.lookup_insert_of_ne _ h]

theorem Keyed.saveWitness {witnesses : FMap Bytes Witness} (h : Keyed witnesses)
    (witness : Witness) : Keyed (saveWitness witnesses witness) := by
  intro address found hf
  unfold Consensus.saveWitness at hf
  by_cases hs : address = witness.address
  · subst hs
    rw [Finmap.lookup_insert, Option.some.injEq] at hf
    rw [← hf]
  · rw [Finmap.lookup_insert_of_ne _ hs] at hf
    exact h address found hf

theorem addOr_eq_ok_iff {what : String} {x y z : Int} :
    addOr what x y = .ok z ↔ InI64 (x + y) ∧ z = x + y := by
  unfold addOr
  split <;> simp_all [eq_comm]

theorem subOr_eq_ok_iff {what : String} {x y z : Int} :
    subOr what x y = .ok z ↔ InI64 (x - y) ∧ z = x - y := by
  unfold subOr
  split <;> simp_all [eq_comm]

/-- A checked change of a number by `sign` times another. -/
def ChangesBy (sign : Int) (change : Int → Int → Except StateError Int) : Prop :=
  ∀ {x y z}, change x y = .ok z → z = x + sign * y

theorem changesBy_addOr (what : String) : ChangesBy 1 (addOr what) := by
  intro x y z h
  rw [addOr_eq_ok_iff] at h
  omega

theorem changesBy_subOr (what : String) : ChangesBy (-1) (subOr what) := by
  intro x y z h
  rw [subOr_eq_ok_iff] at h
  omega

/-- **The counts after a list of changes**: each witness has moved by its part of the list. -/
theorem changeCounts_ok {sign : Int} {change : Int → Int → Except StateError Int}
    (hch : ChangesBy sign change) {witnesses witnesses' : FMap Bytes Witness}
    {amounts : List (Bytes × Int)} (hke : Keyed witnesses)
    (h : changeCounts change witnesses amounts = .ok witnesses') :
    Keyed witnesses' ∧ ∀ address, countAt witnesses' address =
      (countAt witnesses address).map (· + sign * amountFor address amounts) := by
  induction amounts generalizing witnesses with
  | nil =>
    rw [changeCounts, pure_eq_ok_iff] at h
    subst h
    exact ⟨hke, fun address => by simp [amountFor]⟩
  | cons e amounts ih =>
    obtain ⟨address, votes⟩ := e
    rw [changeCounts] at h
    split at h
    · next hn =>
      obtain ⟨hk', hc⟩ := ih hke h
      refine ⟨hk', fun k => ?_⟩
      rw [hc, amountFor_cons]
      by_cases hk : address = k
      · subst hk
        simp [countAt, hn]
      · simp [hk]
    · next witness hf =>
      rw [bind_eq_ok_iff] at h
      obtain ⟨voteCount, hv, h⟩ := h
      have ha := hke _ _ hf
      obtain ⟨hk', hc⟩ := ih (hke.saveWitness _) h
      refine ⟨hk', fun k => ?_⟩
      rw [hc, countAt_saveWitness, amountFor_cons]
      by_cases hk : k = address
      · subst hk
        have hco : countAt witnesses k = some witness.voteCount := by rw [countAt, hf]; rfl
        rw [if_pos ha.symm, hco, if_pos rfl, hch hv, Int.mul_add]
        simp only [Option.map_some, Option.some.injEq]
        omega
      · rw [if_neg (by rw [ha]; exact hk), if_neg (Ne.symm hk), zero_add]

theorem value_insert (deltas : Deltas) (address other : Bytes) (x : Int) :
    Deltas.value (deltas.insert address x) other =
      if other = address then x else deltas.value other := by
  unfold Deltas.value
  split
  · next h =>
    subst h
    rw [Finmap.lookup_insert]
    rfl
  · next h => rw [Finmap.lookup_insert_of_ne _ h]

theorem collectVotes_ok {sign : Int} {change : Int → Int → Except StateError Int}
    (hc : ChangesBy sign change) {deltas deltas' : Deltas} {votes : List Vote}
    (h : collectVotes change deltas votes = .ok deltas') (address : Bytes) :
    deltas'.value address = deltas.value address + sign * votesFor address votes := by
  induction votes generalizing deltas with
  | nil =>
    rw [collectVotes, pure_eq_ok_iff] at h
    subst h
    simp [votesFor]
  | cons vote votes ih =>
    rw [collectVotes, bind_eq_ok_iff] at h
    obtain ⟨x, hx, h⟩ := h
    rw [ih h, value_insert, votesFor_cons, hc hx]
    by_cases hk : address = vote.voteAddress
    · subst hk
      rw [if_pos rfl, if_pos rfl, Int.mul_add]
      omega
    · rw [if_neg hk, if_neg (Ne.symm hk), zero_add]

/-- **The changes of all rows**: each address has moved by its new votes less its old ones. -/
theorem collectDeltas_ok {deltas deltas' : Deltas} {rows : List (Bytes × Votes)}
    (h : collectDeltas deltas rows = .ok deltas') (address : Bytes) :
    deltas'.value address = deltas.value address + (rows.map fun e =>
      votesFor address e.2.newVotes - votesFor address e.2.oldVotes).sum := by
  induction rows generalizing deltas with
  | nil =>
    rw [collectDeltas, pure_eq_ok_iff] at h
    subst h
    simp
  | cons e rows ih =>
    rw [collectDeltas] at h
    simp only [bind_eq_ok_iff] at h
    obtain ⟨deltas₁, ho, deltas₂, hn, h⟩ := h
    rw [ih h, collectVotes_ok (changesBy_addOr _) hn, collectVotes_ok (changesBy_subOr _) ho,
      List.map_cons, List.sum_cons]
    omega

/-! ## The invariant -/

/-- The votes of an account that have been counted: those it had when the period began. -/
def standing (votes : FMap Bytes Votes) (a : Account) : List Vote :=
  ((votes.lookup a.address).map Votes.oldVotes).getD a.votes

/-- The votes for a witness that have been counted. -/
def tally (w : World) (address : Bytes) : Int :=
  w.accounts.total fun a => votesFor address (standing w.votes a)

/-- The votes for a witness that the accounts have recorded now. -/
def recorded (w : World) (address : Bytes) : Int :=
  w.accounts.total fun a => votesFor address a.votes

/-- The power of the genesis witnesses has been removed. -/
def PowerRemoved (w : World) : Prop := longOr w .removeThePowerOfTheGr 0 = -1

instance (w : World) : Decidable (PowerRemoved w) := inferInstanceAs (Decidable (_ = _))

/-- The configured votes of a witness that still count. -/
def configured (m : MaintenanceConfig) (w : World) (address : Bytes) : Int :=
  if PowerRemoved w then 0 else amountFor address m.genesisVotes

/-- Between rounds: each count is the configured votes and the votes that have been counted, and
each row of the votes store ends with the votes its account has. -/
structure Tallied (m : MaintenanceConfig) (w : World) : Prop where
  keyed : Keyed w.witnesses
  count : ∀ address count, countAt w.witnesses address = some count →
    count = configured m w address + tally w address
  rows : ∀ address row, w.votes.lookup address = some row →
    ∃ a, w.accounts.get address = some a ∧ row.newVotes = a.votes

/-- The votes that have been counted and the recorded changes give the votes there are. -/
theorem Tallied.tally_add_changes {w : World} (h : Tallied m w) (address : Bytes) :
    tally w address + w.votes.total (fun _ row =>
      votesFor address row.newVotes - votesFor address row.oldVotes) = recorded w address := by
  have hke : w.votes.keys ⊆ w.accounts.rows.keys := by
    intro k hk
    obtain ⟨row, hr⟩ := Finmap.mem_iff.mp (Finmap.mem_keys.mp hk)
    obtain ⟨a, ha, -⟩ := h.rows k row hr
    exact Finmap.mem_keys.mpr (Finmap.mem_iff.mpr ⟨a, ha⟩)
  have hd : w.votes.total (fun _ row =>
      votesFor address row.newVotes - votesFor address row.oldVotes) =
        w.accounts.rows.total fun _ a =>
          votesFor address a.votes - votesFor address (standing w.votes a) := by
    refine FMap.total_eq_total hke fun k hk => ?_
    obtain ⟨a, ha⟩ := Finmap.mem_iff.mp (Finmap.mem_keys.mp hk)
    obtain rfl : a.address = k := w.accounts.keyed k a ha
    unfold FMap.valueAt standing
    rw [ha]
    cases hr : w.votes.lookup a.address with
    | none => simp [hr]
    | some row =>
      obtain ⟨b, hb, hn⟩ := h.rows _ row hr
      obtain rfl := Option.some.inj (ha.symm.trans hb)
      simp [hr, hn]
  have hs : w.accounts.rows.total (fun _ a =>
      votesFor address a.votes - votesFor address (standing w.votes a)) =
        recorded w address - tally w address := by
    simp only [recorded, tally, Accounts.total, FMap.total_eq_sum, ← Finset.sum_sub_distrib]
    refine Finset.sum_congr rfl fun k hk => ?_
    obtain ⟨a, ha⟩ := Finmap.mem_iff.mp (Finmap.mem_keys.mp hk)
    simp only [FMap.valueAt, ha]
  rw [hd, hs]
  omega

/-- The votes of the account at an address; no account has none. -/
def votesOf (w : World) (address : Bytes) : List Vote :=
  ((w.accounts.get address).map Account.votes).getD []

/-- The invariant depends on the accounts, the votes store, the counts and the switch alone. -/
theorem Tallied.congr (h : Tallied m w) (ha : w'.accounts = w.accounts) (hv : w'.votes = w.votes)
    (hk : Keyed w'.witnesses)
    (hco : ∀ address, countAt w'.witnesses address = countAt w.witnesses address)
    (hp : PowerRemoved w' ↔ PowerRemoved w) : Tallied m w' := by
  refine ⟨hk, fun address count hc => ?_, fun address row hr => ?_⟩
  · rw [hco] at hc
    rw [h.count address count hc, configured, configured, tally, tally, ha, hv]
    simp only [hp]
  · rw [hv] at hr
    rw [ha]
    exact h.rows address row hr

/-- Saving an account with the votes it has keeps the tally. -/
theorem Tallied.put {w : World} (h : Tallied m w) {a : Account} (hv : a.votes = votesOf w a.address) :
    Tallied m { w with accounts := w.accounts.put a } := by
  have ht : ∀ address, tally { w with accounts := w.accounts.put a } address =
      tally w address := by
    intro address
    have hse : FMap.valueAt (fun _ b => votesFor address (standing w.votes b)) w.accounts.rows
        a.address = votesFor address (standing w.votes a) := by
      unfold FMap.valueAt
      cases hg : w.accounts.rows.lookup a.address with
      | none =>
        have hno : w.votes.lookup a.address = none := by
          by_contra hso
          obtain ⟨row, hr⟩ := Option.ne_none_iff_exists'.mp hso
          obtain ⟨b, hb, -⟩ := h.rows _ row hr
          exact absurd (hg.symm.trans hb) (by simp)
        have he : a.votes = [] := by
          rw [hv, votesOf, Accounts.get, hg]
          rfl
        simp [standing, hno, he, votesFor]
      | some b =>
        have ha : b.address = a.address := w.accounts.keyed _ b hg
        have hs : a.votes = b.votes := by
          rw [hv, votesOf, Accounts.get, hg]
          rfl
        simp only [standing]
        rw [ha, hs]
    simp only [tally, Accounts.total, Accounts.put, FMap.total_insert_int, hse]
    omega
  refine ⟨h.keyed, fun address count hc => ?_, fun address row hr => ?_⟩
  · rw [ht]
    exact h.count address count hc
  · obtain ⟨b, hb, hn⟩ := h.rows address row hr
    by_cases hs : address = a.address
    · refine ⟨a, hs ▸ Accounts.get_put_self _ _, ?_⟩
      rw [hn, hv, votesOf, ← hs, hb]
      rfl
    · exact ⟨b, (Accounts.get_put_of_ne _ hs).trans hb, hn⟩

/-! ## A maintenance round -/

theorem longOr_of_lookup {p : Property} (default : Int)
    (h : w'.dynamicProperties.lookup p = w.dynamicProperties.lookup p) :
    longOr w' p default = longOr w p default := by
  simp only [longOr, dynamicLong, h]

theorem longOr_saveDynamicLong {w : World} {p : Property} {x : Int} (hx : InI64 x)
    (default : Int) : longOr (saveDynamicLong w p x) p default = x := by
  simp [longOr, dynamicLong, saveDynamicLong, fromBe64_be64 hx]

theorem Tallied.removeThePower (h : Tallied m w) (hr : removeThePower m w = .ok w') :
    Tallied m w' ∧ w'.votes = w.votes := by
  unfold Consensus.removeThePower at hr
  split at hr
  · next hon =>
    simp only [bind_eq_ok_iff, pure_eq_ok_iff] at hr
    obtain ⟨witnesses, hre, rfl⟩ := hr
    obtain ⟨hk, hc⟩ := changeCounts_ok (changesBy_subOr _) h.keyed hre
    have hb : ¬ PowerRemoved w := by
      unfold PowerRemoved
      omega
    have ha : PowerRemoved (saveDynamicLong { w with witnesses } .removeThePowerOfTheGr (-1)) :=
      longOr_saveDynamicLong (by decide) 0
    refine ⟨⟨hk, fun address count hco => ?_, h.rows⟩, rfl⟩
    have hc' : (countAt w.witnesses address).map
        (· + -1 * amountFor address m.genesisVotes) = some count := (hc address).symm.trans hco
    obtain ⟨old, ho, rfl⟩ := Option.map_eq_some_iff.mp hc'
    have hs := h.count address old ho
    rw [configured, if_neg hb] at hs
    rw [configured, if_pos ha, hs]
    simp only [tally, saveDynamicLong]
    omega
  · rw [pure_eq_ok_iff] at hr
    subst hr
    exact ⟨h, rfl⟩

theorem tally_of_empty {w : World} (h : w.votes = ∅) (address : Bytes) :
    tally w address = recorded w address := by
  simp only [tally, recorded, standing, h, Finmap.lookup_empty, Option.map_none, Option.getD_none]

theorem Tallied.countVotes (h : Tallied m w) (hru : countVotes w = .ok w') :
    Tallied m w' ∧ w'.votes = ∅ := by
  simp only [Consensus.countVotes, bind_eq_ok_iff, pure_eq_ok_iff] at hru
  obtain ⟨deltas, hd, witnesses, hw, rfl⟩ := hru
  obtain ⟨hk, hco⟩ := changeCounts_ok (changesBy_addOr _) h.keyed hw
  refine ⟨⟨hk, fun address count hcou => ?_, fun address row hr => ?_⟩, rfl⟩
  · have hch := collectDeltas_ok hd address
    rw [FMap.sum_sortedRows keyLe fun _ (row : Votes) =>
      votesFor address row.newVotes - votesFor address row.oldVotes] at hch
    have hz : Deltas.value ∅ address = 0 := rfl
    have hc' := (hco address).symm.trans hcou
    rw [amountFor_sortedRows, hch, hz] at hc'
    obtain ⟨old, ho, rfl⟩ := Option.map_eq_some_iff.mp hc'
    have hsu := h.count address old ho
    have hto := h.tally_add_changes address
    have ht := tally_of_empty (w := { w with witnesses, votes := ∅ }) rfl address
    have hs : recorded { w with witnesses, votes := ∅ } address = recorded w address := rfl
    have hc : configured m { w with witnesses, votes := ∅ } address =
        configured m w address := rfl
    rw [ht, hs, hc]
    omega
  · rw [Finmap.lookup_empty] at hr
    cases hr

theorem Tallied.payEach {reward : Int → Int} {witnesses : List Witness} (h : Tallied m w)
    (hr : payEach reward w witnesses = .ok w') :
    Tallied m w' ∧ w'.votes = w.votes ∧ w'.witnesses = w.witnesses := by
  induction witnesses generalizing w with
  | nil =>
    rw [Consensus.payEach, pure_eq_ok_iff] at hr
    subst hr
    exact ⟨h, rfl, rfl⟩
  | cons witness rest ih =>
    rw [Consensus.payEach] at hr
    split at hr
    · exact absurd hr throw_ne_ok
    · next a ha =>
      have had : a.address = witness.address := Accounts.get_address ha
      have hv : a.votes = votesOf w a.address := by
        rw [votesOf, had, ha]
        rfl
      have hp := h.put
        (a := { a with allowance := Actuator.wrap (a.allowance + reward witness.voteCount) }) hv
      obtain ⟨h', hs⟩ := ih hp hr
      exact ⟨h', hs⟩

theorem saveJobs_counts {active : List Bytes} {stored : FMap Bytes Witness}
    {witnesses : List Witness} (hk : Keyed stored)
    (hc : ∀ witness ∈ witnesses, countAt stored witness.address = some witness.voteCount) :
    Keyed (saveJobs active stored witnesses) ∧
      ∀ address, countAt (saveJobs active stored witnesses) address = countAt stored address := by
  induction witnesses generalizing stored with
  | nil => exact ⟨hk, fun _ => rfl⟩
  | cons witness rest ih =>
    have hs : ∀ address, countAt (saveWitness stored
        { witness with isJobs := active.contains witness.address }) address =
          countAt stored address := by
      intro address
      rw [countAt_saveWitness]
      split
      · next heq => rw [heq, hc witness List.mem_cons_self]
      · rfl
    obtain ⟨hk', hc'⟩ := ih (hk.saveWitness _) fun other ho => by
      rw [hs]
      exact hc other (List.mem_cons_of_mem _ ho)
    exact ⟨hk', fun address => (hc' address).trans (hs address)⟩

/-- The witnesses of the store, saved in the order of the election. -/
theorem saveJobs_sorted {stored : FMap Bytes Witness} (optimized : Bool) (active : List Bytes)
    (hk : Keyed stored) :
    Keyed (saveJobs active stored
      (sortWitnesses optimized ((stored.sortedRows keyLe).map Prod.snd))) ∧
      ∀ address, countAt (saveJobs active stored
        (sortWitnesses optimized ((stored.sortedRows keyLe).map Prod.snd))) address =
          countAt stored address := by
  refine saveJobs_counts hk fun witness hm => ?_
  rw [sortWitnesses, List.mem_insertionSort, List.mem_map] at hm
  obtain ⟨⟨address, found⟩, hf, rfl⟩ := hm
  have hl : stored.lookup address = some found := (FMap.mem_sortedRows keyLe).mp hf
  dsimp only
  rw [hk address found hl, countAt, hl]
  rfl

theorem Tallied.elect {changed : Bool} {active : List Bytes} (h : Tallied m w)
    (hr : elect m w changed = .ok (w', active)) : Tallied m w' ∧ w'.votes = w.votes := by
  unfold Consensus.elect at hr
  split at hr
  swap
  · simp only [pure_eq_ok_iff, Prod.mk.injEq] at hr
    obtain ⟨rfl, -⟩ := hr
    exact ⟨h, rfl⟩
  simp only [bind_eq_ok_iff, pure_eq_ok_iff, Prod.mk.injEq] at hr
  obtain ⟨w₁, hs, w₂, hp, rfl, rfl⟩ := hr
  have h₁ : Tallied m w₁ ∧ w₁.votes = w.votes ∧ w₁.witnesses = w.witnesses := by
    unfold saveActiveWitnesses at hs
    split at hs
    · cases hs
    · cases hs
      exact ⟨h.congr rfl rfl h.keyed (fun _ => rfl) Iff.rfl, rfl, rfl⟩
  have h₂ : Tallied m w₂ ∧ w₂.votes = w₁.votes ∧ w₂.witnesses = w₁.witnesses := by
    split at hp
    · simp only [payLegacyStandby] at hp
      split at hp
      · rw [pure_eq_ok_iff] at hp
        subst hp
        exact ⟨h₁.1, rfl, rfl⟩
      · rw [bind_eq_ok_iff] at hp
        obtain ⟨allowance, -, hp⟩ := hp
        exact h₁.1.payEach hp
    · rw [pure_eq_ok_iff] at hp
      subst hp
      exact ⟨h₁.1, rfl, rfl⟩
  have hw : w₂.witnesses = w.witnesses := h₂.2.2.trans h₁.2.2
  obtain ⟨hk, hc⟩ :=
    saveJobs_sorted m.witnessSortOptimized ((sortWitnesses m.witnessSortOptimized
      ((w.witnesses.sortedRows keyLe).map Prod.snd)).take maxActiveWitnesses |>.map
        Witness.address) h.keyed
  refine ⟨h₂.1.congr rfl rfl ?_ (fun k => ?_) Iff.rfl, h₂.2.1.trans h₁.2.1⟩
  · dsimp only
    rw [hw]
    exact hk
  · dsimp only
    rw [hw]
    exact hc k

theorem Tallied.nextCycle {cycle : Int} (h : Tallied m w) (hr : nextCycle w = .ok (w', cycle)) :
    Tallied m w' ∧ w'.votes = w.votes := by
  simp only [Consensus.nextCycle] at hr
  split at hr
  · simp only [bind_eq_ok_iff, pure_eq_ok_iff, Prod.mk.injEq] at hr
    obtain ⟨next, -, rfl, -⟩ := hr
    refine ⟨h.congr rfl rfl h.keyed (fun _ => rfl) ?_, rfl⟩
    have ho : (saveDynamicLong w .currentCycleNumber next).dynamicProperties.lookup
        .removeThePowerOfTheGr = w.dynamicProperties.lookup .removeThePowerOfTheGr :=
      Finmap.lookup_insert_of_ne _ (by decide)
    rw [PowerRemoved, PowerRemoved, longOr_of_lookup 0 ho]
  · simp only [pure_eq_ok_iff, Prod.mk.injEq] at hr
    obtain ⟨rfl, -⟩ := hr
    exact ⟨h, rfl⟩

/-- **A maintenance round** keeps the tally and empties the votes store. -/
theorem Tallied.maintenance {active : List Bytes} {consumed : Nat} {cycle : Int} (h : Tallied m w)
    (hru : doMaintenance m w = .ok (w', active, consumed, cycle)) :
    Tallied m w' ∧ w'.votes = ∅ := by
  simp only [doMaintenance, bind_eq_ok_iff, pure_eq_ok_iff, Prod.mk.injEq] at hru
  obtain ⟨w₁, hr, w₂, hc, ⟨w₃, active'⟩, he, ⟨w₄, cycle'⟩, hcy, rfl, -⟩ := hru
  obtain ⟨h₁, -⟩ := h.removeThePower hr
  obtain ⟨h₂, hem⟩ := h₁.countVotes hc
  obtain ⟨h₃, hv₃⟩ := h₂.elect he
  obtain ⟨h₄, hv₄⟩ := h₃.nextCycle hcy
  exact ⟨h₄, (hv₄.trans hv₃).trans hem⟩

/-! ## Votes -/

/-- Recording votes of an account keeps the tally, when the old votes of the row are those that have
been counted. -/
theorem Tallied.record {w : World} (h : Tallied m w) {a a' : Account} {row : Votes}
    (hf : w.accounts.get a.address = some a) (ha : a'.address = a.address)
    (hn : row.newVotes = a'.votes)
    (ho : ∀ address, votesFor address row.oldVotes = votesFor address (standing w.votes a)) :
    Tallied m { w with
      accounts := w.accounts.put a'
      votes := w.votes.insert a.address row } := by
  refine ⟨h.keyed, fun address count hc => ?_, fun address found hr => ?_⟩
  · have ht : tally { w with
        accounts := w.accounts.put a'
        votes := w.votes.insert a.address row } address = tally w address := by
      have hf' : w.accounts.rows.lookup a'.address = some a := ha ▸ hf
      simp only [tally, Accounts.total, Accounts.put]
      refine FMap.total_insert_congr hf' ?_ fun k b hk hb => ?_
      · rw [← ho, standing, ha, Finmap.lookup_insert]
        rfl
      · have hne : b.address ≠ a.address := by
          rw [w.accounts.keyed k b hb, ← ha]
          exact hk
        rw [standing, Finmap.lookup_insert_of_ne _ hne, standing]
    rw [ht]
    exact h.count address count hc
  · by_cases hs : address = a.address
    · subst hs
      rw [Finmap.lookup_insert, Option.some.injEq] at hr
      exact ⟨a', ha ▸ Accounts.get_put_self _ _, hr ▸ hn⟩
    · rw [Finmap.lookup_insert_of_ne _ hs] at hr
      obtain ⟨b, hb, hv⟩ := h.rows address found hr
      have hne : address ≠ a'.address := by
        rw [ha]
        exact hs
      exact ⟨b, (Accounts.get_put_of_ne _ hne).trans hb, hv⟩

/-- An account that keeps its votes, or records a change of them, keeps the tally. -/
theorem Tallied.revotes {w : World} (h : Tallied m w) {a a' : Account} {votes : FMap Bytes Votes}
    (hf : w.accounts.get a.address = some a) (ha : a'.address = a.address)
    (hr : Revotes w.votes votes a a') :
    Tallied m { w with accounts := w.accounts.put a', votes } := by
  rcases hr with ⟨rfl, hs⟩ | rfl
  · refine h.put ?_
    rw [votesOf, ha, hf]
    exact hs
  · refine h.record hf ha rfl fun address => ?_
    unfold standing
    cases hro : w.votes.lookup a.address <;> rfl

/-- The switch of the genesis votes is no total weight. -/
theorem powerRemoved_congr
    (h : ∀ q, (∀ k, q ≠ Actuator.weightName k) →
      w'.dynamicProperties.lookup q = w.dynamicProperties.lookup q) :
    PowerRemoved w' ↔ PowerRemoved w := by
  have hl := h .removeThePowerOfTheGr fun k => by cases k <;> decide
  rw [PowerRemoved, PowerRemoved, longOr_of_lookup 0 hl]

theorem Tallied.savesOwner {address : Bytes} {owner owner' : Account} (h : Tallied m w)
    (he : SavesOwner w w' address owner owner')
    (hot : ∀ q, (∀ k, q ≠ Actuator.weightName k) →
      w'.dynamicProperties.lookup q = w.dynamicProperties.lookup q) : Tallied m w' := by
  have ho : owner.address = address := Accounts.get_address he.found
  have hf : w.accounts.get owner.address = some owner := ho.symm ▸ he.found
  have ha : owner'.address = owner.address := he.address_eq.trans ho.symm
  have hs := h.revotes hf ha he.revotes
  refine hs.congr he.accounts_eq rfl ?_ (fun k => ?_) (powerRemoved_congr hot)
  · rw [he.witnesses_eq]
    exact h.keyed
  · rw [he.witnesses_eq]

theorem Tallied.unfreezeBalance {cfg : ExecutionConfig} {c : Actuator.UnfreezeBalance}
    {result : Actuator.ActuatorResult} (h : Tallied m w)
    (hexe : (Operation.unfreezeBalance c).execute cfg w = .ok (w', result)) : Tallied m w' := by
  rcases Actuator.UnfreezeBalance.execute_effect hexe with
    ⟨-, owner, owner', kind, now, amount, he⟩ | ⟨-, owner, owner', kind, row, he⟩
  · exact h.savesOwner he.toSavesOwner he.other
  have ho : owner.address = c.ownerAddress := Accounts.get_address he.foundOwner
  have hf : w.accounts.get owner.address = some owner := ho.symm ▸ he.foundOwner
  have had : owner'.address = owner.address := he.ownerAddress_eq.trans ho.symm
  have hs := h.revotes hf had he.revotes
  have ht := he.taker_eq
  have hk : Keyed w'.witnesses := by
    rw [he.witnesses_eq]
    exact h.keyed
  have hc : ∀ k, countAt w'.witnesses k = countAt w.witnesses k := fun k => by
    rw [he.witnesses_eq]
  cases hr : w.accounts.get c.receiverAddress with
  | none =>
    rw [hr] at ht
    exact hs.congr ht rfl hk hc (powerRemoved_congr he.other)
  | some a =>
    rw [hr] at ht
    obtain ⟨b, hb, hv, -, ha⟩ := ht
    have hne : b.address ≠ owner'.address := by
      rw [hb, he.ownerAddress_eq]
      exact Ne.symm he.distinct
    have hp := hs.put (a := b) (by
      rw [votesOf, Accounts.get_put_of_ne _ hne, hb, hr]
      exact hv)
    exact hp.congr ha rfl hk hc (powerRemoved_congr he.other)

theorem Tallied.unfreezeBalanceV2 {cfg : ExecutionConfig} {c : Actuator.UnfreezeBalanceV2}
    {result : Actuator.ActuatorResult} (h : Tallied m w)
    (hexe : (Operation.unfreezeBalanceV2 c).execute cfg w = .ok (w', result)) : Tallied m w' := by
  obtain ⟨owner, owner', kind, items, now, expire, he⟩ :=
    Actuator.UnfreezeBalanceV2.execute_effect hexe
  exact h.savesOwner he.toSavesOwner he.follows.other

/-- The effect of `VoteWitness`. -/
theorem voteWitness_effect {cfg : ExecutionConfig} {c : Actuator.VoteWitness}
    (h : c.executeIn cfg w = .ok w') :
    ∃ owner owner', w.accounts.get owner.address = some owner ∧ owner.address = c.ownerAddress ∧
      owner'.address = owner.address ∧ owner'.votes = c.votes ∧
      Revotes w.votes w'.votes owner owner' ∧
      w' = { w with accounts := w.accounts.put owner', votes := w'.votes } := by
  simp only [Actuator.VoteWitness.executeIn, bind_eq_ok_iff, pure_eq_ok_iff,
    account_eq_ok_iff] at h
  obtain ⟨w₁, hre, owner₁, hg, newModel, -, owner₂, hi, rfl⟩ := h
  obtain ⟨accounts, hr, rfl⟩ := Actuator.withdrawReward_pays hre
  obtain ⟨owner₀, hf, -, hv₁, -, hp⟩ := hr.cases hg
  have ha₀ : owner₀.address = c.ownerAddress := Accounts.get_address hf
  have ha₁ : owner₁.address = c.ownerAddress := Accounts.get_address hg
  have hi' : owner₂.address = owner₁.address ∧ owner₂.votes = owner₁.votes := by
    split at hi
    · simp only [bind_eq_ok_iff, pure_eq_ok_iff] at hi
      obtain ⟨power, -, rfl⟩ := hi
      exact ⟨rfl, rfl⟩
    · rw [pure_eq_ok_iff] at hi
      subst hi
      exact ⟨rfl, rfl⟩
  have ha₂ : owner₂.address = owner₀.address :=
    hi'.1.trans (ha₁.trans ha₀.symm)
  refine ⟨owner₀, { owner₂ with votes := c.votes }, ha₀.symm ▸ hf, ha₀, ha₂,
    rfl, .inr ?_, ?_⟩
  · simp only [save, recordVotes, votesRow]
    rw [ha₂, hi'.2, hv₁]
  · have hs := hp { owner₂ with votes := c.votes } (ha₂.trans ha₀)
    simp only [save, recordVotes, hs]

theorem Tallied.voteWitness {cfg : ExecutionConfig} {c : Actuator.VoteWitness} (h : Tallied m w)
    (he : c.execute cfg w = .ok w') : Tallied m w' := by
  rw [Actuator.VoteWitness.execute, bind_eq_ok_iff] at he
  obtain ⟨-, -, he⟩ := he
  obtain ⟨owner, owner', hf, -, ha, -, hr, hw⟩ := voteWitness_effect he
  rw [hw]
  exact h.revotes hf ha hr

/-- A vote of a contract changes nothing, or writes the row of the account anew. -/
theorem tvmVote_cases (w : World) (owner : Bytes) (votes : List Vote) :
    (Tvm.transactional w (Tvm.pushBool (Tvm.voteWitness w owner votes))).2 = w ∨
      ∃ a, w.accounts.get owner = some a ∧
        (Tvm.transactional w (Tvm.pushBool (Tvm.voteWitness w owner votes))).2 = { w with
          accounts := w.accounts.put { a with votes }
          votes := w.votes.insert owner ⟨a.address, a.votes, votes⟩ } := by
  unfold Tvm.voteWitness
  split
  · exact .inl rfl
  next a ha =>
  split
  · exact .inl rfl
  cases Tvm.voteTotal votes with
  | error e => exact .inl rfl
  | ok total =>
    simp only [bind, Except.bind]
    split
    · exact .inl rfl
    · exact .inr ⟨a, ha, rfl⟩

/-! ## Runs -/

/-- What may happen to votes: the two ways to vote, the two operations that take votes away, a
maintenance round, and between them the save of an account with the votes it has, together with a
change of the properties of the chain. -/
inductive VoteAction where
  | voteWitness (c : Actuator.VoteWitness)
  | tvmVoteWitness (owner : Bytes) (votes : List Vote)
  | unfreezeBalance (c : Actuator.UnfreezeBalance)
  | unfreezeBalanceV2 (c : Actuator.UnfreezeBalanceV2)
  | maintenance
  | saveAccount (a : Account) (props : FMap Property Bytes)

section Runs

variable (cfg : ExecutionConfig) (m : MaintenanceConfig)

/-- The state after an action, when it succeeds. -/
def VoteAction.step (w : World) : VoteAction → Option World
  | voteWitness c => (c.execute cfg w).toOption
  | tvmVoteWitness owner votes =>
    some (Tvm.transactional w (Tvm.pushBool (Tvm.voteWitness w owner votes))).2
  | unfreezeBalance c => ((Operation.unfreezeBalance c).execute cfg w).toOption.map Prod.fst
  | unfreezeBalanceV2 c => ((Operation.unfreezeBalanceV2 c).execute cfg w).toOption.map Prod.fst
  | maintenance => (doMaintenance m w).toOption.map Prod.fst
  | saveAccount a props =>
    if a.votes = votesOf w a.address ∧
        (PowerRemoved { w with dynamicProperties := props } ↔ PowerRemoved w) then
      some { w with accounts := w.accounts.put a, dynamicProperties := props }
    else none

/-- A run of actions that succeed, each one allowed in the state it starts from. -/
inductive VoteRun (Allowed : World → VoteAction → Prop) (start : World) : World → Prop
  | refl : VoteRun Allowed start start
  | step {w w' : World} (action : VoteAction) (run : VoteRun Allowed start w)
      (allowed : Allowed w action) (succeeds : action.step cfg m w = some w') :
      VoteRun Allowed start w'

end Runs

/-- A contract that votes has no other old votes recorded than those it has: none at all, or as many
for each witness. -/
def KeepsOldVotes (w : World) : VoteAction → Prop
  | .tvmVoteWitness owner _ => ∀ a, w.accounts.get owner = some a →
      ∀ address, votesFor address (standing w.votes a) = votesFor address a.votes
  | _ => True

/-- The genesis state: the witnesses have the configured votes, and nobody has voted. -/
structure Genesis (m : MaintenanceConfig) (w : World) : Prop where
  keyed : Keyed w.witnesses
  count : ∀ address count, countAt w.witnesses address = some count →
    count = amountFor address m.genesisVotes
  noVotes : ∀ address a, w.accounts.get address = some a → a.votes = []
  votes_eq : w.votes = ∅
  power : ¬ PowerRemoved w

theorem Genesis.tallied {m : MaintenanceConfig} {w : World} (h : Genesis m w) : Tallied m w := by
  refine ⟨h.keyed, fun address count hc => ?_, fun address row hr => ?_⟩
  · have hn : recorded w address = 0 := by
      simp only [recorded, Accounts.total]
      refine FMap.total_eq_zero fun k a ha => ?_
      rw [h.noVotes k a ha]
      rfl
    rw [h.count address count hc, configured, if_neg h.power, tally_of_empty h.votes_eq, hn,
      add_zero]
  · rw [h.votes_eq, Finmap.lookup_empty] at hr
    cases hr

/-- **An action that keeps the old votes** keeps the tally. -/
theorem Tallied.step {cfg : ExecutionConfig} {m : MaintenanceConfig} {w w' : World}
    {action : VoteAction} (h : Tallied m w) (hk : KeepsOldVotes w action)
    (hs : action.step cfg m w = some w') : Tallied m w' := by
  cases action with
  | voteWitness c => exact h.voteWitness (toOption_eq_some_iff.mp hs)
  | tvmVoteWitness owner votes =>
    obtain rfl := Option.some.inj hs
    rcases tvmVote_cases w owner votes with hsa | ⟨a, ha, hv⟩
    · rw [hsa]
      exact h
    · have had : a.address = owner := Accounts.get_address ha
      rw [hv, ← had]
      exact h.record (had.symm ▸ ha) rfl rfl fun address => (hk a ha address).symm
  | unfreezeBalance c =>
    obtain ⟨⟨w₁, result⟩, he, rfl⟩ := Option.map_eq_some_iff.mp hs
    exact h.unfreezeBalance (toOption_eq_some_iff.mp he)
  | unfreezeBalanceV2 c =>
    obtain ⟨⟨w₁, result⟩, he, rfl⟩ := Option.map_eq_some_iff.mp hs
    exact h.unfreezeBalanceV2 (toOption_eq_some_iff.mp he)
  | maintenance =>
    obtain ⟨⟨w₁, result⟩, hr, rfl⟩ := Option.map_eq_some_iff.mp hs
    obtain ⟨active, consumed, cycle⟩ := result
    exact (h.maintenance (toOption_eq_some_iff.mp hr)).1
  | saveAccount a props =>
    simp only [VoteAction.step] at hs
    split at hs
    · next hg =>
      obtain rfl := Option.some.inj hs
      exact (h.put hg.1).congr rfl rfl h.keyed (fun _ => rfl) hg.2
    · cases hs

theorem VoteRun.tallied {cfg : ExecutionConfig} {m : MaintenanceConfig} {start w : World}
    (h : VoteRun cfg m KeepsOldVotes start w) (hst : Tallied m start) : Tallied m w := by
  induction h with
  | refl => exact hst
  | step action _ ha hs ih => exact ih.step ha hs

/-- **The tally after a round.** In every run in which a contract votes only while its recorded old
votes are those it has, each maintenance round leaves every witness with its configured votes and
the votes of the accounts, and no row in the votes store. -/
theorem voteCount_eq_tally_of_run {cfg : ExecutionConfig} {m : MaintenanceConfig}
    {start w w' : World} (hrun : VoteRun cfg m KeepsOldVotes start w) (hstart : Genesis m start)
    (hround : VoteAction.maintenance.step cfg m w = some w') :
    (∀ address witness, w'.witnesses.lookup address = some witness →
      witness.voteCount = (if PowerRemoved w' then 0 else amountFor address m.genesisVotes) +
        w'.accounts.total fun a => votesFor address a.votes) ∧ w'.votes = ∅ := by
  have htallied := hrun.tallied hstart.tallied
  obtain ⟨⟨w₁, result⟩, hdone, rfl⟩ := Option.map_eq_some_iff.mp hround
  obtain ⟨hafter, hempty⟩ := htallied.maintenance (toOption_eq_some_iff.mp hdone)
  refine ⟨fun address witness hwitness => ?_, hempty⟩
  have hcount : countAt w₁.witnesses address = some witness.voteCount := by
    rw [countAt, hwitness]
    rfl
  rw [hafter.count address witness.voteCount hcount, tally_of_empty hempty]
  rfl

/-! ## A contract that votes twice -/

namespace Sample

open Actuator.Sample (alice bob config)

/-- A witness. -/
def carol : Bytes := 0x41 :: List.replicate 20 3

/-- Two witnesses with a hundred configured votes each. -/
def maintenanceConfig : MaintenanceConfig where
  genesisVotes := [(bob, 100), (carol, 100)]
  witnessSortOptimized := true
  standbyReward _ _ _ := 0

/-- A contract with twenty TRX staked, and the two witnesses. -/
def genesis : World where
  accounts := ((Accounts.empty.put
    { address := alice, type := .contract, frozenV2 := [⟨0, 20 * trxPrecision⟩] }).put
    { address := bob }).put { address := carol }
  witnesses := (Finmap.insert bob { address := bob, voteCount := 100, isJobs := true } ∅).insert
    carol { address := carol, voteCount := 100, isJobs := true }
  dynamicProperties := (Finmap.insert Property.changeDelegation (be64 1) ∅).insert
    .currentCycleNumber (be64 0)

/-- A vote of the contract with all it has. -/
def voteFor (address : Bytes) : VoteAction := .tvmVoteWitness alice [⟨address, 20⟩]

/-- The state after an action. -/
def after (w : World) (action : VoteAction) : World :=
  (action.step config maintenanceConfig w).getD w

theorem genesis_sample : Genesis maintenanceConfig genesis := by
  refine ⟨fun address witness h => ?_, fun address count h => ?_, fun address a h => ?_, rfl,
    by decide⟩
  · simp only [genesis] at h
    by_cases hc : address = carol
    · subst hc
      rw [Finmap.lookup_insert, Option.some.injEq] at h
      rw [← h]
    · rw [Finmap.lookup_insert_of_ne _ hc] at h
      by_cases hb : address = bob
      · subst hb
        rw [Finmap.lookup_insert, Option.some.injEq] at h
        rw [← h]
      · rw [Finmap.lookup_insert_of_ne _ hb, Finmap.lookup_empty] at h
        cases h
  · simp only [genesis, countAt] at h
    by_cases hc : address = carol
    · subst hc
      rw [Finmap.lookup_insert] at h
      obtain rfl := Option.some.inj h
      decide
    · rw [Finmap.lookup_insert_of_ne _ hc] at h
      by_cases hb : address = bob
      · subst hb
        rw [Finmap.lookup_insert] at h
        obtain rfl := Option.some.inj h
        decide
      · rw [Finmap.lookup_insert_of_ne _ hb, Finmap.lookup_empty] at h
        cases h
  · simp only [genesis, Accounts.get_put, Accounts.get_empty] at h
    split_ifs at h <;> cases h <;> rfl

/-- An action that succeeds leads to `after`. -/
theorem step_eq_after (w : World) (action : VoteAction)
    (h : (action.step config maintenanceConfig w).isSome = true) :
    action.step config maintenanceConfig w = some (after w action) := by
  obtain ⟨w', hw'⟩ := Option.isSome_iff_exists.mp h
  rw [after, hw', Option.getD_some]

end Sample

/-- A round after one vote of the contract. -/
theorem voteCount_sample :
    (∀ address witness,
      (Sample.after (Sample.after Sample.genesis (Sample.voteFor Actuator.Sample.bob))
        .maintenance).witnesses.lookup address = some witness →
      witness.voteCount = (if PowerRemoved
          (Sample.after (Sample.after Sample.genesis (Sample.voteFor Actuator.Sample.bob))
            .maintenance) then 0
        else amountFor address Sample.maintenanceConfig.genesisVotes) +
        (Sample.after (Sample.after Sample.genesis (Sample.voteFor Actuator.Sample.bob))
          .maintenance).accounts.total fun a => votesFor address a.votes) ∧
      (Sample.after (Sample.after Sample.genesis (Sample.voteFor Actuator.Sample.bob))
        .maintenance).votes = ∅ := by
  have hkeeps : KeepsOldVotes Sample.genesis (Sample.voteFor Actuator.Sample.bob) := by
    intro a _ address
    rw [standing, show Sample.genesis.votes = ∅ from rfl, Finmap.lookup_empty]
    rfl
  have hrun : VoteRun Actuator.Sample.config Sample.maintenanceConfig KeepsOldVotes Sample.genesis
      (Sample.after Sample.genesis (Sample.voteFor Actuator.Sample.bob)) :=
    .step _ .refl hkeeps (Sample.step_eq_after _ _ (by decide))
  exact voteCount_eq_tally_of_run hrun Sample.genesis_sample
    (Sample.step_eq_after _ _ (by decide))

/-- The contract votes for one witness and then, in the same period, for the other: its second row
says that the votes of the first were counted, and the round takes them off the configured ones. -/
theorem voteCount_short_after_second_vote :
    ¬ ∀ {w w' : World},
      VoteRun Actuator.Sample.config Sample.maintenanceConfig (fun _ _ => True) Sample.genesis w →
      VoteAction.maintenance.step Actuator.Sample.config Sample.maintenanceConfig w = some w' →
      ∀ address witness, w'.witnesses.lookup address = some witness →
        witness.voteCount = (if PowerRemoved w' then 0
            else amountFor address Sample.maintenanceConfig.genesisVotes) +
          w'.accounts.total fun a => votesFor address a.votes := by
  intro h
  have hfirst := Sample.step_eq_after Sample.genesis (Sample.voteFor Actuator.Sample.bob)
    (by decide)
  have hsecond := Sample.step_eq_after
    (Sample.after Sample.genesis (Sample.voteFor Actuator.Sample.bob))
    (Sample.voteFor Sample.carol) (by decide)
  have hround := Sample.step_eq_after
    (Sample.after (Sample.after Sample.genesis (Sample.voteFor Actuator.Sample.bob))
      (Sample.voteFor Sample.carol)) .maintenance (by decide)
  have hcount := h (.step _ (.step _ .refl trivial hfirst) trivial hsecond) hround
    Actuator.Sample.bob { address := Actuator.Sample.bob, voteCount := 80, isJobs := true }
    (by decide)
  revert hcount
  decide

end RustTron.Consensus
