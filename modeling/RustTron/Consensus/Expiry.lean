import RustTron.Consensus.Proposals

/-!
# Proposals and their expiration times

The expiration time of a proposal is the time up to which it can be approved and deleted. The scan
does not compare it with the time of the block but with the next maintenance time, in every block:
a proposal that expires at the next maintenance time is decided in the block after the maintenance
before, and one that expires in a period that no block fell into is still pending after the
maintenance block that follows.

## Main definitions

* `Governance.Numbered`: the proposals are numbered up to the latest one
* `RowLe`: what can become of the row of a proposal
* `DecidedAtExpiry`: the proposals of a run are decided at their expiration times
* `Step.Timely`: the scan of a block meets the expiration times

## Main results

* `lookup_processExpiredProposals`: which proposals a scan decides
* `decidedAtExpiry_iff`: the runs in which proposals are decided at their expiration times
-/

namespace RustTron

/-! ## The order of the states of a proposal -/

/-- A proposal is decided. -/
def Proposal.Decided (p : Proposal) : Prop := p.state = .approved ∨ p.state = .disapproved

instance (p : Proposal) : Decidable p.Decided := inferInstanceAs (Decidable (_ ∨ _))

/-- How far a proposal has come. -/
def ProposalState.rank : ProposalState → Nat
  | pending => 0
  | disapproved => 1
  | approved => 1
  | canceled => 2

theorem ProposalState.rank_eq_zero_iff {s : ProposalState} : s.rank = 0 ↔ s = .pending := by
  cases s <;> decide

theorem ProposalState.canceled_top (s : ProposalState) :
    .canceled = s ∨ s.rank < canceled.rank := by
  cases s <;> decide

theorem Proposal.decided_iff {p : Proposal} : p.Decided ↔ p.state.rank = 1 := by
  unfold Proposal.Decided
  cases p.state <;> decide

/-- A proposal stays where it is or comes further: a row stays, keeps its expiration time, and
neither a decided nor a canceled proposal is pending again. -/
def RowLe (row row' : Option Proposal) : Prop :=
  ∀ p, row = some p → ∃ p', row' = some p' ∧ p'.expirationTime = p.expirationTime ∧
    (p'.state = p.state ∨ p.state.rank < p'.state.rank)

/-- No proposal has been decided. -/
def NoVerdict (row row' : Option Proposal) : Prop :=
  ∀ p', row' = some p' → p'.Decided → ∃ p, row = some p ∧ p.Decided

theorem RowLe.refl (row : Option Proposal) : RowLe row row := fun p h => ⟨p, h, rfl, .inl rfl⟩

theorem RowLe.trans {row row' row'' : Option Proposal} (h : RowLe row row')
    (h' : RowLe row' row'') : RowLe row row'' := by
  intro p hp
  obtain ⟨p', hp', he, hs⟩ := h p hp
  obtain ⟨p'', hp'', he', hs'⟩ := h' p' hp'
  refine ⟨p'', hp'', he'.trans he, ?_⟩
  rcases hs with hs | hs <;> rcases hs' with hs' | hs'
  · exact .inl (hs'.trans hs)
  · exact .inr (hs ▸ hs')
  · exact .inr (hs' ▸ hs)
  · exact .inr (hs.trans hs')

theorem RowLe.rank_le {row : Option Proposal} {p p' : Proposal} (h : RowLe (some p) row)
    (hr : row = some p') : p.state.rank ≤ p'.state.rank := by
  obtain ⟨q, hq, -, hs⟩ := h p rfl
  cases hr.symm.trans hq
  rcases hs with hs | hs
  · rw [hs]
  · exact hs.le

theorem NoVerdict.refl (row : Option Proposal) : NoVerdict row row := fun p h hp => ⟨p, h, hp⟩

theorem NoVerdict.trans {row row' row'' : Option Proposal} (h : NoVerdict row row')
    (h' : NoVerdict row' row'') : NoVerdict row row'' := by
  intro p'' hp'' hd
  obtain ⟨p', hp', hd'⟩ := h' p'' hp'' hd
  exact h p' hp' hd'

/-! ## Numbering -/

namespace Governance

/-- **The numbering of proposals**: every row stands under the number of its proposal, which is not
above the latest number. -/
structure Numbered (g : Governance) : Prop where
  nonneg : 0 ≤ g.longOr "LATEST_PROPOSAL_NUM" 0
  bound : ∀ {id p}, g.proposals.lookup id = some p →
    1 ≤ id ∧ id ≤ g.longOr "LATEST_PROPOSAL_NUM" 0
  keyed : ∀ {id p}, g.proposals.lookup id = some p → p.proposalId = id

/-- The scan gets to a proposal: none with a higher number has been decided. -/
def Reached (g : Governance) (id : Int) : Prop :=
  ∀ j p, id < j → g.proposals.lookup j = some p → ¬ p.Decided

variable {g g' : Governance}

theorem Numbered.congr (h : g.Numbered) (hp : g'.proposals = g.proposals)
    (hl : g'.dynamicRaw "LATEST_PROPOSAL_NUM" = g.dynamicRaw "LATEST_PROPOSAL_NUM") :
    g'.Numbered where
  nonneg := by
    rw [longOr_congr hl]
    exact h.nonneg
  bound hr := by
    rw [longOr_congr hl]
    exact h.bound (hp ▸ hr)
  keyed hr := h.keyed (hp ▸ hr)

end Governance

/-! ## Transactions -/

namespace Consensus

open Actuator Governance

variable {g g' : Governance}

/-- What a transaction does to the proposals. -/
structure Unjudged (g g' : Governance) : Prop where
  numbered : g'.Numbered
  row : ∀ id, RowLe (g.proposals.lookup id) (g'.proposals.lookup id)
  noVerdict : ∀ id, NoVerdict (g.proposals.lookup id) (g'.proposals.lookup id)
  nextTime : g'.dynamicRaw "NEXT_MAINTENANCE_TIME" = g.dynamicRaw "NEXT_MAINTENANCE_TIME"

theorem Unjudged.refl (h : g.Numbered) : Unjudged g g :=
  ⟨h, fun _ => .refl _, fun _ => .refl _, rfl⟩

theorem Unjudged.trans {g'' : Governance} (h : Unjudged g g') (h' : Unjudged g' g'') :
    Unjudged g g'' :=
  ⟨h'.numbered, fun id => (h.row id).trans (h'.row id),
    fun id => (h.noVerdict id).trans (h'.noVerdict id), h'.nextTime.trans h.nextTime⟩

theorem Unjudged.of_eq (h : g.Numbered) (hp : g'.proposals = g.proposals)
    (hl : g'.dynamicRaw "LATEST_PROPOSAL_NUM" = g.dynamicRaw "LATEST_PROPOSAL_NUM")
    (hn : g'.dynamicRaw "NEXT_MAINTENANCE_TIME" = g.dynamicRaw "NEXT_MAINTENANCE_TIME") :
    Unjudged g g' :=
  ⟨h.congr hp hl, fun _ => hp ▸ .refl _, fun _ => hp ▸ .refl _,
    hn⟩

/-- A row written over by one that comes no less far and is not newly decided. -/
theorem Unjudged.put {p p' : Proposal} {id : Int} (h : g.Numbered)
    (hr : g.proposals.lookup id = some p) (hke : p'.proposalId = p.proposalId)
    (hle : RowLe (some p) (some p')) (hv : NoVerdict (some p) (some p')) :
    Unjudged g (putProposal g p.proposalId p') := by
  have hid : p.proposalId = id := h.keyed hr
  have hl : ∀ k, (putProposal g p.proposalId p').proposals.lookup k =
      if k = id then some p' else g.proposals.lookup k := by
    intro k
    rw [hid]
    by_cases hk : k = id
    · rw [if_pos hk, hk]
      exact Finmap.lookup_insert _
    · rw [if_neg hk]
      exact Finmap.lookup_insert_of_ne _ hk
  refine ⟨⟨h.nonneg, ?_, ?_⟩, fun k => ?_, fun k => ?_, rfl⟩
  · intro k q hq
    rw [hl] at hq
    split at hq
    · next hk => exact hk ▸ h.bound hr
    · exact h.bound hq
  · intro k q hq
    rw [hl] at hq
    split at hq
    · next hk =>
      cases hq
      rw [hk, hke, hid]
    · exact h.keyed hq
  · rw [hl]
    split
    · next hk =>
      rw [hk, hr]
      exact hle
    · exact .refl _
  · rw [hl]
    split
    · next hk =>
      rw [hk, hr]
      exact hv
    · exact .refl _

theorem proposal_eq_ok_iff {id : Int} {p : Proposal} :
    proposal g id = .ok p ↔ g.proposals.lookup id = some p := by
  unfold proposal
  split <;> simp_all

theorem unjudged_create {c : ProposalCreate} (h : g.Numbered) (hr : c.executeIn g = .ok g') :
    Unjudged g g' := by
  simp only [ProposalCreate.executeIn, bind_eq_ok_iff, checkedAdd_eq_ok_iff] at hr
  obtain ⟨latest, hla, id, ⟨hid, rfl⟩, now, -, next, -, interval, -, _, -, hr⟩ := hr
  have hla := longOr_of_long hla 0
  by_cases hz : interval = 0
  · rw [if_pos hz] at hr
    cases hr
  rw [if_neg hz] at hr
  cases hr
  generalize hp : ({ proposalId := latest + 1, .. } : Proposal) = p
  have hpe : p.state = .pending := by rw [← hp]
  have hke : p.proposalId = latest + 1 := by rw [← hp]
  have hne : g.proposals.lookup (latest + 1) = none := by
    rcases hro : g.proposals.lookup (latest + 1) with _ | q
    · rfl
    · have := (h.bound hro).2
      omega
  have hn : ((putProposal g (latest + 1) p).putDynamic "LATEST_PROPOSAL_NUM"
      (be64 (latest + 1))).longOr "LATEST_PROPOSAL_NUM" 0 = latest + 1 :=
    longOr_putDynamic_self (by decide) hid 0
  have hl : ∀ k, ((putProposal g (latest + 1) p).putDynamic "LATEST_PROPOSAL_NUM"
      (be64 (latest + 1))).proposals.lookup k =
        if k = latest + 1 then some p else g.proposals.lookup k := by
    intro k
    rw [proposals_putDynamic]
    by_cases hk : k = latest + 1
    · rw [if_pos hk, hk]
      exact Finmap.lookup_insert _
    · rw [if_neg hk]
      exact Finmap.lookup_insert_of_ne _ hk
  have hno := h.nonneg
  refine ⟨⟨?_, ?_, ?_⟩, fun k => ?_, fun k => ?_, dynamicRaw_putDynamic_of_ne (by decide)⟩
  · rw [hn]
    omega
  · intro k q hq
    rw [hl] at hq
    rw [hn]
    split at hq
    · omega
    · have := h.bound hq
      omega
  · intro k q hq
    rw [hl] at hq
    split at hq
    · next hk =>
      cases hq
      rw [hk, hke]
    · exact h.keyed hq
  · rw [hl]
    split
    · next hk =>
      rw [hk, hne]
      intro q hq
      cases hq
    · exact .refl _
  · rw [hl]
    split
    · intro q hq hd
      cases hq
      rw [Proposal.decided_iff, hpe] at hd
      cases hd
    · exact .refl _

theorem unjudged_approve {c : ProposalApprove} (h : g.Numbered) (hr : c.executeIn g = .ok g') :
    Unjudged g g' := by
  simp only [ProposalApprove.executeIn, bind_eq_ok_iff, proposal_eq_ok_iff] at hr
  obtain ⟨p, hro, hr⟩ := hr
  cases hr
  refine Unjudged.put h hro ?_ ?_ ?_
  · rfl
  · rintro q ⟨⟩
    exact ⟨_, rfl, rfl, .inl rfl⟩
  · rintro q ⟨⟩ hd
    exact ⟨p, rfl, hd⟩

theorem unjudged_delete {c : ProposalDelete} (h : g.Numbered) (hr : c.executeIn g = .ok g') :
    Unjudged g g' := by
  simp only [ProposalDelete.executeIn, bind_eq_ok_iff, proposal_eq_ok_iff] at hr
  obtain ⟨p, hro, hr⟩ := hr
  cases hr
  refine Unjudged.put h hro ?_ ?_ ?_
  · rfl
  · rintro q ⟨⟩
    exact ⟨_, rfl, rfl, ProposalState.canceled_top _⟩
  · rintro q ⟨⟩ hd
    rw [Proposal.decided_iff] at hd
    cases hd

theorem OtherWork.unjudged (work : OtherWork) (h : g.Numbered) : Unjudged g (work.run g) :=
  .of_eq h (work.proposals g) (work.properties g _ (by decide)) (work.properties g _ (by decide))

/-- **A transaction decides no proposal.** -/
theorem unjudged_execute {tx : Transaction} (h : g.Numbered) (hr : tx.execute g = .ok g') :
    Unjudged g g' := by
  cases tx with
  | create c =>
    rw [Transaction.execute, bind_eq_ok_iff] at hr
    obtain ⟨_, -, hr⟩ := hr
    exact unjudged_create h hr
  | approve c =>
    rw [Transaction.execute, bind_eq_ok_iff] at hr
    obtain ⟨_, -, hr⟩ := hr
    exact unjudged_approve h hr
  | delete c =>
    rw [Transaction.execute, bind_eq_ok_iff] at hr
    obtain ⟨_, -, hr⟩ := hr
    exact unjudged_delete h hr
  | other work =>
    cases hr
    exact work.unjudged h

theorem unjudged_transactions {txs : List Transaction} (h : g.Numbered)
    (hr : txs.foldlM Transaction.execute g = .ok g') : Unjudged g g' := by
  induction txs generalizing g with
  | nil =>
    cases hr
    exact .refl h
  | cons tx txs ih =>
    rw [List.foldlM_cons, bind_eq_ok_iff] at hr
    obtain ⟨g₁, hf, hre⟩ := hr
    have hs := unjudged_execute h hf
    exact hs.trans (ih hs.numbered hre)

theorem Block.unjudged_beforeProposals {b : Block} (h : g.Numbered)
    (hr : b.beforeProposals g = .ok g') : Unjudged g g' := by
  simp only [Block.beforeProposals, bind_eq_ok_iff, mapError_eq_ok_iff] at hr
  obtain ⟨g₁, ht, hr⟩ := hr
  cases hr
  have hs := unjudged_transactions h ht
  exact hs.trans (b.payReward.unjudged hs.numbered)

/-! ## The scan -/

/-- The verdict on a proposal. -/
def verdict (active : List Bytes) (p : Proposal) : Proposal :=
  { p with
    state := if approvalThreshold active.length ≤ activeApprovals p active then .approved
      else .disapproved }

theorem decided_verdict (active : List Bytes) (p : Proposal) : (verdict active p).Decided := by
  unfold verdict Proposal.Decided
  dsimp only
  split
  · exact .inl rfl
  · exact .inr rfl

/-- A scan over the numbers `ids` decides the proposal. -/
structure DueAmong (g : Governance) (now : Int) (ids : List Int) (id : Int) (p : Proposal) :
    Prop where
  mem : id ∈ ids
  row : g.proposals.lookup id = some p
  pending : p.state = .pending
  expired : p.expirationTime ≤ now
  reached : ∀ j ∈ ids, id < j → ∀ q, g.proposals.lookup j = some q → ¬ q.Decided

/-- The properties that the rules write. -/
def Written (rules : List (Int × ParameterRule)) (name : String) : Prop :=
  ∃ entry ∈ rules, entry.2.dynamic = name

/-- What the parameters of a proposal leave as it is. -/
structure Parametrised (rules : List (Int × ParameterRule)) (g g' : Governance) : Prop where
  proposals : g'.proposals = g.proposals
  properties : ∀ name, ¬ Written rules name → g'.dynamicRaw name = g.dynamicRaw name

variable {rules : List (Int × ParameterRule)} {now : Int} {active : List Bytes}

theorem mem_of_lookup_eq_some {α β : Type} [BEq α] [LawfulBEq α] {k : α} {v : β}
    {entries : List (α × β)} (h : entries.lookup k = some v) : (k, v) ∈ entries := by
  obtain ⟨l₁, l₂, rfl, -⟩ := List.lookup_eq_some_iff.mp h
  simp

theorem parametrised_applyParametersFrom {params : FMap Int Int} {rows : List (Int × Int)}
    {writes writes' : List (String × Int)}
    (h : applyParametersFrom rules params rows g writes = .ok (g', writes')) :
    Parametrised rules g g' := by
  induction rows generalizing g writes with
  | nil =>
    cases h
    exact ⟨rfl, fun _ _ => rfl⟩
  | cons row rows ih =>
    obtain ⟨id, value⟩ := row
    rw [applyParametersFrom] at h
    split at h
    · exact ih h
    · next rule hr =>
      split at h
      · exact ih h
      · split at h
        · exact ih h
        · rw [bind_eq_ok_iff] at h
          obtain ⟨g₁, hs, h⟩ := h
          rw [Governance.saveDynamicLong] at hs
          split at hs
          · cases hs
            obtain ⟨hpr, hp⟩ := ih h
            refine ⟨hpr.trans proposals_putDynamic, fun name hn => ?_⟩
            have hne : name ≠ rule.dynamic := fun heq =>
              hn ⟨_, mem_of_lookup_eq_some hr, heq.symm⟩
            exact (hp name hn).trans (dynamicRaw_putDynamic_of_ne hne)
          · cases hs

theorem decideProposal_eq_ok {id : Int} {p : Proposal} {entry : ProposalHistory}
    (h : decideProposal rules active g id p = .ok (g', entry)) :
    (∀ name, ¬ Written rules name → g'.dynamicRaw name = g.dynamicRaw name) ∧
      g'.proposals = g.proposals.insert id (verdict active p) := by
  simp only [decideProposal, bind_eq_ok_iff] at h
  obtain ⟨⟨g₁, writes⟩, ha, h⟩ := h
  cases h
  have hp : Parametrised rules g g₁ := by
    split at ha
    · exact parametrised_applyParametersFrom ha
    · cases ha
      exact ⟨rfl, fun _ _ => rfl⟩
  refine ⟨hp.properties, ?_⟩
  rw [putProposal, hp.proposals]
  by_cases hm : approvalThreshold active.length ≤ activeApprovals p active <;>
    simp [verdict, hm]

/-- What is due among the numbers below, in a state with the same rows there. -/
theorem dueAmong_cons_iff {id k : Int} {ids : List Int} {p : Proposal}
    (hh : ∀ q, g.proposals.lookup k = some q → ¬ q.Decided)
    (hi : k ∉ ids) (hid : id ≠ k)
    (hro : ∀ j, j ≠ k → g'.proposals.lookup j = g.proposals.lookup j) :
    DueAmong g now (k :: ids) id p ↔ DueAmong g' now ids id p := by
  constructor
  · rintro ⟨hm, hrow, hp, he, hr⟩
    refine ⟨(List.mem_cons.mp hm).resolve_left hid, (hro id hid).trans hrow, hp,
      he, fun j hj hlt q hq => hr j (List.mem_cons_of_mem _ hj) hlt q ?_⟩
    rw [← hro j fun h => hi (h ▸ hj)]
    exact hq
  · rintro ⟨hm, hrow, hp, he, hr⟩
    refine ⟨List.mem_cons_of_mem _ hm, (hro id hid).symm.trans hrow, hp, he,
      fun j hj hlt q hq => ?_⟩
    by_cases hjk : j = k
    · exact hh q (hjk ▸ hq)
    · exact hr j ((List.mem_cons.mp hj).resolve_left hjk) hlt q ((hro j hjk).trans hq)

/-- What a scan does: every proposal that is due gets its verdict, and nothing else changes but the
parameters. -/
structure Scanned (rules : List (Int × ParameterRule)) (now : Int) (active : List Bytes)
    (ids : List Int) (g g' : Governance) : Prop where
  due : ∀ id p, DueAmong g now ids id p → g'.proposals.lookup id = some (verdict active p)
  rest : ∀ id, (∀ p, ¬ DueAmong g now ids id p) →
    g'.proposals.lookup id = g.proposals.lookup id
  properties : ∀ name, ¬ Written rules name → g'.dynamicRaw name = g.dynamicRaw name

/-- The first number is not due, and a scan over the others does the same. -/
theorem Scanned.skip {k : Int} {ids : List Int}
    (hh : ∀ q, g.proposals.lookup k = some q → ¬ q.Decided) (hi : k ∉ ids)
    (hd : ∀ p, ¬ DueAmong g now (k :: ids) k p) (h : Scanned rules now active ids g g') :
    Scanned rules now active (k :: ids) g g' := by
  refine ⟨fun id p hp => ?_, fun id hid => ?_, h.properties⟩
  · by_cases hk : id = k
    · exact absurd (hk ▸ hp) (hd p)
    · exact h.due id p ((dueAmong_cons_iff hh hi hk fun _ _ => rfl).mp hp)
  · apply h.rest
    intro p hp
    by_cases hk : id = k
    · exact hi (hk ▸ hp.mem)
    · exact hid p ((dueAmong_cons_iff hh hi hk fun _ _ => rfl).mpr hp)

/-- **What a scan does**, by induction on the numbers that are left: the rows below are those of
the state it began with, since a decision writes the row it is about and no other. -/
theorem scanned_scanFrom {ids : List Int} (hi : ids.Pairwise (· > ·))
    {scan scan' : ProposalScan} (h : scanFrom rules now active ids g scan = .ok (g', scan')) :
    Scanned rules now active ids g g' := by
  induction ids generalizing g scan with
  | nil =>
    cases h
    exact ⟨fun id p hp => absurd hp.mem (List.not_mem_nil), fun _ _ => rfl, fun _ _ => rfl⟩
  | cons k ids ih =>
    obtain ⟨hb, hi⟩ := List.pairwise_cons.mp hi
    have hk : k ∉ ids := fun hm => lt_irrefl k (hb k hm)
    rw [scanFrom] at h
    split at h
    · next hr =>
      refine (ih hi h).skip (fun q hq => ?_) hk fun p hp => ?_
      · cases hr.symm.trans hq
      · cases hr.symm.trans hp.row
    · next p hr =>
      split at h
      · next hd =>
        -- the scan stops at a decided proposal, and none below it is due
        cases h
        refine ⟨fun id q hq => ?_, fun _ _ => rfl, fun _ _ => rfl⟩
        by_cases hid : id = k
        · subst hid
          cases hr.symm.trans hq.row
          rw [hq.pending] at hd
          rcases hd with hd | hd <;> cases hd
        · have hlt := hb id ((List.mem_cons.mp hq.mem).resolve_left hid)
          exact absurd hd (hq.reached k List.mem_cons_self hlt p hr)
      · next hd =>
        have hh : ∀ q, g.proposals.lookup k = some q → ¬ q.Decided := by
          intro q hq
          cases hr.symm.trans hq
          exact hd
        split at h
        · next hsk =>
          refine (ih hi h).skip hh hk fun q hq => ?_
          cases hr.symm.trans hq.row
          rcases hsk with hc | hl
          · cases hq.pending.symm.trans hc
          · exact absurd hq.expired (not_le.mpr hl)
        · next hdu =>
          rw [bind_eq_ok_iff] at h
          obtain ⟨⟨g₁, entry⟩, hde, h⟩ := h
          obtain ⟨hpro, hpr⟩ := decideProposal_eq_ok hde
          have hre := ih hi h
          have hse : g₁.proposals.lookup k = some (verdict active p) := by
            rw [hpr]
            exact Finmap.lookup_insert _
          have ho : ∀ j, j ≠ k → g₁.proposals.lookup j = g.proposals.lookup j := by
            intro j hj
            rw [hpr]
            exact Finmap.lookup_insert_of_ne _ hj
          have hhe : g'.proposals.lookup k = some (verdict active p) :=
            (hre.rest k fun q hq => hk hq.mem).trans hse
          refine ⟨fun id q hq => ?_, fun id hid => ?_, fun name hn => ?_⟩
          · by_cases hid : id = k
            · subst hid
              cases hr.symm.trans hq.row
              exact hhe
            · exact hre.due id q ((dueAmong_cons_iff hh hk hid ho).mp hq)
          · by_cases hk' : id = k
            · subst hk'
              rw [not_or] at hdu hd
              refine absurd ⟨List.mem_cons_self, hr, ?_, not_lt.mp hdu.2, ?_⟩ (hid p)
              · cases hs : p.state with
                | pending => rfl
                | disapproved => exact absurd hs hd.2
                | approved => exact absurd hs hd.1
                | canceled => exact absurd hs hdu.1
              · intro j hj hlt
                rcases List.mem_cons.mp hj with rfl | hj
                · exact absurd hlt (lt_irrefl _)
                · exact absurd hlt (not_lt.mpr (hb j hj).le)
            · rw [hre.rest id fun q hq =>
                hid q ((dueAmong_cons_iff hh hk hk' ho).mpr hq)]
              exact ho id hk'
          · exact (hre.properties name hn).trans (hpro name hn)

theorem mem_idsDownFrom {latest id : Int} : id ∈ idsDownFrom latest ↔ 1 ≤ id ∧ id ≤ latest := by
  simp only [idsDownFrom, List.mem_reverse, List.mem_map, List.mem_range]
  constructor
  · rintro ⟨n, hn, rfl⟩
    omega
  · rintro ⟨ho, hle⟩
    exact ⟨(id - 1).toNat, by omega, by omega⟩

theorem pairwise_idsDownFrom (latest : Int) : (idsDownFrom latest).Pairwise (· > ·) := by
  rw [idsDownFrom, List.pairwise_reverse, List.pairwise_map]
  refine List.pairwise_lt_range.imp ?_
  intro m n hlt
  omega

/-- A proposal is due in a block: it is pending, expires at the next maintenance time, and the scan
gets to it. -/
structure Due (g : Governance) (now : Int) (id : Int) (p : Proposal) : Prop where
  row : g.proposals.lookup id = some p
  pending : p.state = .pending
  expired : p.expirationTime ≤ now
  reached : g.Reached id

theorem dueAmong_iff_due (h : g.Numbered) {id : Int} {p : Proposal} :
    DueAmong g now (idsDownFrom (g.longOr "LATEST_PROPOSAL_NUM" 0)) id p ↔ Due g now id p := by
  constructor
  · rintro ⟨-, hro, hp, he, hr⟩
    exact ⟨hro, hp, he, fun j q hlt hq =>
      hr j (mem_idsDownFrom.mpr (h.bound hq)) hlt q hq⟩
  · rintro ⟨hro, hp, he, hr⟩
    exact ⟨mem_idsDownFrom.mpr (h.bound hro), hro, hp, he, fun j _ hlt q hq =>
      hr j q hlt hq⟩

/-- **Which proposals a scan decides**: those that are due at the next maintenance time. -/
theorem lookup_processExpiredProposals (hn : g.Numbered) {scan : ProposalScan}
    (h : processExpiredProposals rules g = .ok (g', scan)) :
    ∃ next, g.dynamicLong "NEXT_MAINTENANCE_TIME" = .ok next ∧
      (∀ id p, Due g next id p →
        g'.proposals.lookup id = some (verdict g.world.activeWitnesses p)) ∧
      (∀ id, (∀ p, ¬ Due g next id p) → g'.proposals.lookup id = g.proposals.lookup id) ∧
      ∀ name, ¬ Written rules name → g'.dynamicRaw name = g.dynamicRaw name := by
  simp only [processExpiredProposals, bind_eq_ok_iff] at h
  obtain ⟨next, hne, h⟩ := h
  have hs := scanned_scanFrom (pairwise_idsDownFrom _) h
  refine ⟨next, hne, fun id p hp => ?_, fun id hid => ?_, hs.properties⟩
  · exact hs.due id p ((dueAmong_iff_due hn).mpr hp)
  · exact hs.rest id fun p hp => hid p ((dueAmong_iff_due hn).mp hp)

/-! ## Blocks -/

theorem not_written_latestProposalNum :
    ¬ Written canonicalParameterRules "LATEST_PROPOSAL_NUM" := by
  unfold Written
  decide

theorem dynamicRaw_of_properties {name : String} (hn : propertyOf name = none)
    (h : g'.properties = g.properties) : g'.dynamicRaw name = g.dynamicRaw name := by
  simp only [dynamicRaw, hn, h]

/-- Maintenance leaves the proposals and their number as they are. -/
theorem applyMaintenanceBlock_frame {cfg : MaintenanceConfig} {number time : Int}
    {outcome : MaintenanceOutcome}
    (h : applyMaintenanceBlock cfg number time g = .ok (g', outcome)) :
    g'.proposals = g.proposals ∧
      g'.dynamicRaw "LATEST_PROPOSAL_NUM" = g.dynamicRaw "LATEST_PROPOSAL_NUM" := by
  have hs : ∀ {name : String} {bytes : Bytes} {g g' : Governance}, name ≠ "LATEST_PROPOSAL_NUM" →
      (if name ∈ dynamicKeys then .ok (g.putDynamic name bytes) else
        .error (.missingDynamic name) : Except StateError Governance) = .ok g' →
      g'.proposals = g.proposals ∧
        g'.dynamicRaw "LATEST_PROPOSAL_NUM" = g.dynamicRaw "LATEST_PROPOSAL_NUM" := by
    intro name bytes g g' hne h
    split at h
    · cases h
      exact ⟨proposals_putDynamic, dynamicRaw_putDynamic_of_ne hne.symm⟩
    · cases h
  simp only [applyMaintenanceBlock, bind_eq_ok_iff] at h
  obtain ⟨previousNext, -, ⟨world, current, consumed, cycle⟩, -, next, -, g₁, hn, g₂, hf,
    h⟩ := h
  cases h
  obtain ⟨hp, hl⟩ := hs (by decide) hf
  have hw : ({ g with world } : Governance).dynamicRaw "LATEST_PROPOSAL_NUM" =
      g.dynamicRaw "LATEST_PROPOSAL_NUM" := dynamicRaw_of_properties (by decide) rfl
  split at hn
  · obtain ⟨hp', hl'⟩ := hs (by decide) hn
    exact ⟨hp.trans hp', (hl.trans hl').trans hw⟩
  · cases hn
    exact ⟨hp, hl.trans hw⟩

/-! ## Runs -/

/-- A block of a run, with the states before and after it. -/
structure Step where
  before : Governance
  block : Block
  after : Governance

/-- A run of applied blocks, the oldest first. -/
inductive Run (cfg : MaintenanceConfig) : Governance → List Step → Prop
  | nil (g : Governance) : Run cfg g []
  | cons {g g' : Governance} {b : Block} {steps : List Step} (happly : b.apply cfg g = .ok g')
      (hrest : Run cfg g' steps) : Run cfg g (⟨g, b, g'⟩ :: steps)

namespace Step

/-- The next maintenance time before a block. -/
def nextMaintenanceTime (s : Step) : Int := s.before.longOr "NEXT_MAINTENANCE_TIME" 0

/-- A maintenance block. -/
def Maintenance (s : Step) : Prop := s.nextMaintenanceTime ≤ s.block.timestamp

/-- A block decides a proposal. -/
def Decides (s : Step) (id : Int) (p : Proposal) : Prop :=
  s.after.proposals.lookup id = some p ∧ p.Decided ∧
    ∀ q, s.before.proposals.lookup id = some q → ¬ q.Decided

/-- **The scan of a block meets the expiration times.** The proposals that are due at the next
maintenance time have expired at the time of the block. In a maintenance block, those that have
expired at the time of the block are due at the next maintenance time, and the scan gets to them. -/
structure Timely (s : Step) : Prop where
  notEarly : ∀ g id p, s.block.beforeProposals s.before = .ok g →
    Due g s.nextMaintenanceTime id p → p.expirationTime ≤ s.block.timestamp
  notLate : s.Maintenance → ∀ g id p, s.block.beforeProposals s.before = .ok g →
    g.proposals.lookup id = some p → p.state = .pending → p.expirationTime ≤ s.block.timestamp →
      p.expirationTime ≤ s.nextMaintenanceTime ∧ g.Reached id

end Step

/-- **The proposals of a run are decided at their expiration times**: none before, none twice, and
none is left pending by a maintenance block. -/
structure DecidedAtExpiry (steps : List Step) : Prop where
  notBefore : ∀ s ∈ steps, ∀ id p, s.Decides id p → p.expirationTime ≤ s.block.timestamp
  once : steps.Pairwise fun s t => ∀ id p q, s.Decides id p → ¬ t.Decides id q
  notAfter : ∀ l₁ s l₂, steps = l₁ ++ s :: l₂ → s.Maintenance → ∀ id p,
    s.after.proposals.lookup id = some p → p.expirationTime ≤ s.block.timestamp →
      ∀ t ∈ s :: l₂, ∀ q, t.after.proposals.lookup id = some q → q.state ≠ .pending

/-- What a block does to the proposals, with the state `scanned` that its scan runs in. -/
structure Judged (s : Step) (scanned : Governance) : Prop where
  beforeProposals : s.block.beforeProposals s.before = .ok scanned
  unjudged : Unjudged s.before scanned
  due : ∀ id p, Due scanned s.nextMaintenanceTime id p →
    s.after.proposals.lookup id = some (verdict scanned.world.activeWitnesses p)
  rest : ∀ id, (∀ p, ¬ Due scanned s.nextMaintenanceTime id p) →
    s.after.proposals.lookup id = scanned.proposals.lookup id
  numbered : s.after.Numbered

theorem verdict_rowLe {active : List Bytes} {p : Proposal} (h : p.state = .pending) :
    RowLe (some p) (some (verdict active p)) := by
  rintro q ⟨⟩
  refine ⟨_, rfl, rfl, .inr ?_⟩
  rw [h, Proposal.decided_iff.mp (decided_verdict active p)]
  decide

/-- **A block and the proposals**: its transactions decide none, its scan those that are due, and
its maintenance none. -/
theorem Block.judged_apply {cfg : MaintenanceConfig} {b : Block} (h : g.Numbered)
    (ha : b.apply cfg g = .ok g') : ∃ scanned, Judged ⟨g, b, g'⟩ scanned := by
  simp only [Block.apply, bind_eq_ok_iff, mapError_eq_ok_iff] at ha
  obtain ⟨scanned, hb, ⟨g₂, scan⟩, hs, g₃, hm, haf⟩ := ha
  cases haf
  have hu := b.unjudged_beforeProposals h hb
  obtain ⟨next, hne, hd, hre, hpr⟩ :=
    lookup_processExpiredProposals hu.numbered hs
  have ht : Step.nextMaintenanceTime ⟨g, b, b.persist (b.forkStats.run g₃)⟩ = next := by
    rw [dynamicLong_congr hu.nextTime] at hne
    rw [Step.nextMaintenanceTime, Governance.longOr, hne]
    rfl
  -- after the scan, no hook writes a proposal or their number
  simp only [Block.maintenanceAndDpos, bind_eq_ok_iff] at hm
  obtain ⟨⟨g₄, outcome⟩, hm, hpu⟩ := hm
  cases hpu
  obtain ⟨hpro, hl⟩ := applyMaintenanceBlock_frame hm
  have hr : (b.persist (b.forkStats.run g₄)).proposals = g₂.proposals := by
    rw [Block.persist, proposals_putDynamic, proposals_putDynamic, b.forkStats.proposals,
      hpro, b.production.proposals]
  have hn : (b.persist (b.forkStats.run g₄)).dynamicRaw "LATEST_PROPOSAL_NUM" =
      scanned.dynamicRaw "LATEST_PROPOSAL_NUM" := by
    rw [Block.persist, dynamicRaw_putDynamic_of_ne (by decide),
      dynamicRaw_putDynamic_of_ne (by decide), b.forkStats.properties _ _ (by decide), hl,
      b.production.properties _ _ (by decide), hpr _ not_written_latestProposalNum]
  have hk : ∀ id p', g₂.proposals.lookup id = some p' → ∃ p,
      scanned.proposals.lookup id = some p ∧ p.proposalId = p'.proposalId := by
    intro id p' hp'
    by_cases hid : ∃ p, Due scanned next id p
    · obtain ⟨p, hp⟩ := hid
      cases (hd id p hp).symm.trans hp'
      exact ⟨p, hp.row, rfl⟩
    · rw [hre id (not_exists.mp hid)] at hp'
      exact ⟨p', hp', rfl⟩
  refine ⟨scanned, hb, hu, ?_, ?_, ⟨?_, ?_, ?_⟩⟩
  · rw [ht]
    exact fun id p hp => (congrArg (·.lookup id) hr).trans (hd id p hp)
  · rw [ht]
    exact fun id hid => (congrArg (·.lookup id) hr).trans (hre id hid)
  · rw [longOr_congr hn]
    exact hu.numbered.nonneg
  · intro id p hp
    dsimp only at hp
    rw [hr] at hp
    obtain ⟨q, hq, -⟩ := hk id p hp
    rw [longOr_congr hn]
    exact hu.numbered.bound hq
  · intro id p hp
    dsimp only at hp
    rw [hr] at hp
    obtain ⟨q, hq, hke⟩ := hk id p hp
    exact hke.symm.trans (hu.numbered.keyed hq)

namespace Judged

variable {s : Step} {scanned : Governance}

theorem rowLe_scan (h : Judged s scanned) (id : Int) :
    RowLe (scanned.proposals.lookup id) (s.after.proposals.lookup id) := by
  by_cases hid : ∃ p, Due scanned s.nextMaintenanceTime id p
  · obtain ⟨p, hp⟩ := hid
    rw [hp.row, h.due id p hp]
    exact verdict_rowLe hp.pending
  · rw [h.rest id (not_exists.mp hid)]
    exact .refl _

theorem rowLe (h : Judged s scanned) (id : Int) :
    RowLe (s.before.proposals.lookup id) (s.after.proposals.lookup id) :=
  (h.unjudged.row id).trans (h.rowLe_scan id)

/-- A block decides the proposals that are due. -/
theorem decides_of_due (h : Judged s scanned) {id : Int} {p : Proposal}
    (hp : Due scanned s.nextMaintenanceTime id p) :
    s.Decides id (verdict scanned.world.activeWitnesses p) := by
  refine ⟨h.due id p hp, decided_verdict _ p, fun q hq hd => ?_⟩
  have hle := (hq ▸ h.unjudged.row id).rank_le hp.row
  rw [Proposal.decided_iff.mp hd, hp.pending] at hle
  exact absurd hle (by decide)

theorem due_of_decides (h : Judged s scanned) {id : Int} {p : Proposal} (hp : s.Decides id p) :
    ∃ q, Due scanned s.nextMaintenanceTime id q ∧ p.expirationTime = q.expirationTime := by
  obtain ⟨hr, hd, hb⟩ := hp
  by_cases hid : ∃ q, Due scanned s.nextMaintenanceTime id q
  · obtain ⟨q, hq⟩ := hid
    cases (h.due id q hq).symm.trans hr
    exact ⟨q, hq, rfl⟩
  · rw [h.rest id (not_exists.mp hid)] at hr
    obtain ⟨q, hq, hd'⟩ := h.unjudged.noVerdict id p hr hd
    exact absurd hd' (hb q hq)

/-- A maintenance block leaves no proposal pending that has expired at its time, if its scan gets
to all of them and they are due at the next maintenance time. -/
theorem not_pending (h : Judged s scanned) (ht : s.Timely) (hm : s.Maintenance)
    {id : Int} {p : Proposal} (hr : s.after.proposals.lookup id = some p)
    (he : p.expirationTime ≤ s.block.timestamp) : p.state ≠ .pending := by
  intro hp
  by_cases hid : ∃ q, Due scanned s.nextMaintenanceTime id q
  · obtain ⟨q, hq⟩ := hid
    cases (h.due id q hq).symm.trans hr
    have := Proposal.decided_iff.mp (decided_verdict scanned.world.activeWitnesses q)
    rw [hp] at this
    cases this
  · rw [h.rest id (not_exists.mp hid)] at hr
    obtain ⟨hn, hre⟩ :=
      ht.notLate hm scanned id p h.beforeProposals hr hp he
    exact hid ⟨p, hr, hp, hn, hre⟩

end Judged

theorem Run.judged {cfg : MaintenanceConfig} {steps : List Step} (hg : g.Numbered)
    (h : Run cfg g steps) : ∀ s ∈ steps, (∃ scanned, Judged s scanned) ∧
      ∀ id, RowLe (g.proposals.lookup id) (s.before.proposals.lookup id) := by
  induction h with
  | nil => exact fun s hs => absurd hs List.not_mem_nil
  | cons ha _ ih =>
    obtain ⟨scanned, hj⟩ := Block.judged_apply hg ha
    intro s hs
    rcases List.mem_cons.mp hs with rfl | hs
    · exact ⟨⟨scanned, hj⟩, fun _ => .refl _⟩
    · obtain ⟨hs', hle⟩ := ih hj.numbered s hs
      exact ⟨hs', fun id => (hj.rowLe id).trans (hle id)⟩

/-- **The rows over a run**: what a block leaves comes no less far in the later ones. -/
theorem Run.pairwise {cfg : MaintenanceConfig} {steps : List Step} (hg : g.Numbered)
    (h : Run cfg g steps) : steps.Pairwise fun s t =>
      ∀ id, RowLe (s.after.proposals.lookup id) (t.before.proposals.lookup id) := by
  induction h with
  | nil => exact .nil
  | cons ha hr ih =>
    obtain ⟨scanned, hj⟩ := Block.judged_apply hg ha
    exact .cons (fun t ht => (hr.judged hj.numbered t ht).2) (ih hj.numbered)

/-- **Proposals are decided at their expiration times** in a run of blocks if and only if the scan
of every block meets the expiration times. -/
theorem decidedAtExpiry_iff {cfg : MaintenanceConfig} {steps : List Step} (hg : g.Numbered)
    (h : Run cfg g steps) : DecidedAtExpiry steps ↔ ∀ s ∈ steps, s.Timely := by
  have hjudged := fun s hs => (h.judged hg s hs).1
  have hpairwise := h.pairwise hg
  constructor
  · intro hdecided s hs
    obtain ⟨scanned, hs'⟩ := hjudged s hs
    refine ⟨fun g₁ id p hbefore hp => ?_, fun hmaintenance g₁ id p hbefore hrow hpending
      hexpired => ?_⟩
    · cases hs'.beforeProposals.symm.trans hbefore
      have hexpired := hdecided.notBefore s hs id _ (hs'.decides_of_due hp)
      exact hexpired
    · cases hs'.beforeProposals.symm.trans hbefore
      by_contra hdue
      -- the proposal is not due, so that the block leaves it pending
      have hkept : s.after.proposals.lookup id = some p := by
        rw [hs'.rest id, hrow]
        intro q hq
        cases hq.row.symm.trans hrow
        exact hdue ⟨hq.expired, hq.reached⟩
      obtain ⟨l₁, l₂, hsplit⟩ := List.append_of_mem hs
      exact hdecided.notAfter l₁ s l₂ hsplit hmaintenance id p hkept hexpired s
        List.mem_cons_self p hkept hpending
  · intro htimely
    refine ⟨fun s hs id p hp => ?_, ?_, fun l₁ s l₂ hsplit hmaintenance id p hrow hexpired t ht q
      hq => ?_⟩
    · obtain ⟨scanned, hs'⟩ := hjudged s hs
      obtain ⟨q, hq, hexp⟩ := hs'.due_of_decides hp
      rw [hexp]
      exact (htimely s hs).notEarly scanned id q hs'.beforeProposals hq
    · refine hpairwise.imp_of_mem ?_
      intro s t _ ht hle id p q hp hq
      obtain ⟨p', hp', -, hstate⟩ := hle id p hp.1
      obtain ⟨_, ht'⟩ := hjudged t ht
      -- after its verdict a proposal is decided or canceled, and in `t` it is decided
      have hrank := (hp' ▸ ht'.rowLe id).rank_le hq.1
      rw [Proposal.decided_iff.mp hq.2.1] at hrank
      apply hq.2.2 p' hp'
      rw [Proposal.decided_iff]
      have hone := Proposal.decided_iff.mp hp.2.1
      rcases hstate with hstate | hstate
      · rw [hstate, hone]
      · omega
    · have hs : s ∈ steps := by
        rw [hsplit]
        simp
      obtain ⟨scanned, hs'⟩ := hjudged s hs
      have hdone := hs'.not_pending (htimely s hs) hmaintenance hrow hexpired
      rcases List.mem_cons.mp ht with rfl | ht
      · cases hrow.symm.trans hq
        exact hdone
      · have ht' : t ∈ steps := by
          rw [hsplit]
          simp [ht]
        obtain ⟨_, htjudged⟩ := hjudged t ht'
        rw [hsplit, List.pairwise_append] at hpairwise
        have hle := (List.pairwise_cons.mp hpairwise.2.1).1 t ht id
        have hrank := (hrow ▸ hle.trans (htjudged.rowLe id)).rank_le hq
        intro hpending
        rw [hpending, ProposalState.rank] at hrank
        exact hdone (ProposalState.rank_eq_zero_iff.mp (Nat.le_zero.mp hrank))

/-! ## Runs on concrete blocks -/

section Executable

/-- The rows of the proposals, in the order of their numbers. -/
def rows (g : Governance) : List (Int × Proposal) := FMap.sortedRows (· ≤ ·) g.proposals

theorem forall_rows_iff {P : Int → Proposal → Prop} :
    (∀ id p, g.proposals.lookup id = some p → P id p) ↔ ∀ e ∈ rows g, P e.1 e.2 := by
  simp only [rows, FMap.mem_sortedRows]
  exact ⟨fun h e he => h e.1 e.2 he, fun h id p hp => h (id, p) hp⟩

instance (id : Int) : Decidable (g.Reached id) :=
  decidable_of_iff (∀ e ∈ rows g, id < e.1 → ¬ e.2.Decided) <| by
    rw [← forall_rows_iff (P := fun j p => id < j → ¬ p.Decided)]
    exact ⟨fun h j p hlt hp => h j p hp hlt, fun h j p hp hlt => h j p hlt hp⟩

instance (s : Step) : Decidable s.Maintenance := inferInstanceAs (Decidable (_ ≤ _))

theorem Step.timely_iff {s : Step} (h : s.block.beforeProposals s.before = .ok g) :
    s.Timely ↔
      (∀ e ∈ rows g, e.2.state = .pending → e.2.expirationTime ≤ s.nextMaintenanceTime →
        g.Reached e.1 → e.2.expirationTime ≤ s.block.timestamp) ∧
      (s.Maintenance → ∀ e ∈ rows g, e.2.state = .pending →
        e.2.expirationTime ≤ s.block.timestamp →
          e.2.expirationTime ≤ s.nextMaintenanceTime ∧ g.Reached e.1) := by
  rw [← forall_rows_iff (P := fun id p => p.state = .pending →
      p.expirationTime ≤ s.nextMaintenanceTime → g.Reached id →
        p.expirationTime ≤ s.block.timestamp),
    ← forall_rows_iff (P := fun id p => p.state = .pending →
      p.expirationTime ≤ s.block.timestamp →
        p.expirationTime ≤ s.nextMaintenanceTime ∧ g.Reached id)]
  constructor
  · rintro ⟨hea, hl⟩
    refine ⟨fun id p hr hp he hre => ?_, fun hm id p hr hp he =>
      hl hm g id p h hr hp he⟩
    exact hea g id p h ⟨hr, hp, he, hre⟩
  · rintro ⟨hea, hl⟩
    refine ⟨fun g₁ id p hg₁ hd => ?_, fun hm g₁ id p hg₁ hr hp he => ?_⟩
    · cases h.symm.trans hg₁
      exact hea id p hd.row hd.pending hd.expired hd.reached
    · cases h.symm.trans hg₁
      exact hl hm id p hr hp he

instance (s : Step) : Decidable s.Timely :=
  match h : s.block.beforeProposals s.before with
  | .ok _ => decidable_of_iff _ (Step.timely_iff h).symm
  | .error _ => .isTrue ⟨fun _ _ _ hg _ => (by cases h.symm.trans hg),
      fun _ _ _ _ hg _ _ _ => (by cases h.symm.trans hg)⟩

/-- The run of the blocks of a list. -/
def applyAll (cfg : MaintenanceConfig) : List Block → Governance → Except BlockError (List Step)
  | [], _ => pure []
  | b :: bs, g => do
    let g' ← b.apply cfg g
    let steps ← applyAll cfg bs g'
    pure (⟨g, b, g'⟩ :: steps)

theorem run_applyAll {cfg : MaintenanceConfig} {bs : List Block} {steps : List Step}
    (h : applyAll cfg bs g = .ok steps) : Run cfg g steps := by
  induction bs generalizing g steps with
  | nil =>
    cases h
    exact .nil g
  | cons b bs ih =>
    simp only [applyAll, bind_eq_ok_iff] at h
    obtain ⟨g', ha, rest, hr, h⟩ := h
    cases h
    exact .cons ha (ih hr)

/-- The run of the blocks of a list, if all of them are applied. -/
def runOf (cfg : MaintenanceConfig) (bs : List Block) (g : Governance) : List Step :=
  (applyAll cfg bs g).toOption.getD []

theorem run_runOf {cfg : MaintenanceConfig} {bs : List Block}
    (h : (applyAll cfg bs g).toBool) : Run cfg g (runOf cfg bs g) := by
  rw [runOf]
  rcases hs : applyAll cfg bs g with e | steps
  · rw [hs] at h
    cases h
  · exact run_applyAll hs

end Executable

namespace ProposalSample

/-- A witness. -/
def witness : Bytes := 0x41 :: List.replicate 20 1

/-- The first block is applied, and the next maintenance time is six hours from genesis. -/
def start : Governance where
  world :=
    { accounts := Accounts.empty.put { address := witness }
      witnesses := (∅ : FMap Bytes Witness).insert witness { address := witness }
      activeWitnesses := [witness]
      dynamicProperties :=
        (∅ : FMap Property Bytes).insert .latestBlockHeaderTimestamp (be64 3000) }
  properties :=
    [("LATEST_PROPOSAL_NUM", 0), ("NEXT_MAINTENANCE_TIME", 21600000),
      ("MAINTENANCE_TIME_INTERVAL", 21600000), ("LATEST_BLOCK_HEADER_NUMBER", 1)].foldl
        (fun m e => m.insert e.1 (be64 e.2)) ∅

theorem numbered_start : start.Numbered where
  nonneg := by decide
  bound h := by cases h
  keyed h := by cases h

/-- Hooks that change nothing here. -/
def idle : OtherWork := ⟨id, fun _ => rfl, fun _ _ _ => rfl⟩

/-- A block at a time. -/
def blockAt (number timestamp : Int) (transactions : List Transaction) : Block :=
  ⟨number, timestamp, transactions, idle, idle, idle⟩

def config : MaintenanceConfig := ⟨[], false, fun _ _ _ => 0⟩

/-- A proposal in the second block, which expires after three days and three hours, and a fourth
block at a given time after the maintenance three hours before it expires. -/
def blocks (last : Int) : List Block :=
  [blockAt 2 6000 [.create ⟨witness, (∅ : FMap Int Int).insert 3 5⟩], blockAt 3 259200000 [],
    blockAt 4 last []]

def steps (last : Int) : List Step := runOf config (blocks last) start

end ProposalSample

open ProposalSample in
/-- The fourth block at the expiration time of the proposal, itself a maintenance block. -/
theorem decidedAtExpiry_sample :
    start.Numbered ∧ Run config start (steps 280800000) ∧ DecidedAtExpiry (steps 280800000) := by
  have hrun : Run config start (steps 280800000) := run_runOf (by decide)
  exact ⟨numbered_start, hrun, (decidedAtExpiry_iff numbered_start hrun).mpr (by decide)⟩

open ProposalSample in
/-- The fourth block three seconds after the third: the proposal is decided six hours before its
expiration time. -/
theorem decided_six_hours_early :
    start.Numbered ∧ Run config start (steps 259203000) ∧ ¬ DecidedAtExpiry (steps 259203000) := by
  refine ⟨numbered_start, run_runOf (by decide), fun h => ?_⟩
  have hearly : ∃ s ∈ steps 259203000, s.block.timestamp = 259203000 ∧
      (s.before.proposals.lookup 1).map Proposal.state = some .pending ∧
      (s.after.proposals.lookup 1).map (fun p => (p.state, p.expirationTime)) =
        some (.approved, 280800000) := by
    decide
  obtain ⟨s, hs, htime, hbefore, hafter⟩ := hearly
  obtain ⟨p, hp, hstate⟩ := Option.map_eq_some_iff.mp hafter
  obtain ⟨q, hq, hpending⟩ := Option.map_eq_some_iff.mp hbefore
  simp only [Prod.mk.injEq] at hstate
  have hdecides : s.Decides 1 p := by
    refine ⟨hp, .inl hstate.1, fun q' hq' hdecided => ?_⟩
    cases hq.symm.trans hq'
    rw [Proposal.decided_iff, hpending] at hdecided
    cases hdecided
  have hle := h.notBefore s hs 1 p hdecides
  rw [htime, hstate.2] at hle
  exact absurd hle (by decide)

end Consensus

end RustTron
