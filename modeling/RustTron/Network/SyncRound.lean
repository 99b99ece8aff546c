import RustTron.Network.SyncCoordinator
import Mathlib

/-!
# A round of synchronization between two nodes

A node that is behind sends its summary to a node whose chain is complete, validates the answer and
hands it to its coordinator. The summary halves the distance to the head; the answer holds up to
2001 ids, and its validation asks a batch that is not the last to be that long. The coordinator takes
100 ids of a peer and no more. A round goes through exactly where the answer brings at most so many
that are new, and the head is near enough for the summary to reach it.

## Main definitions

* `NodeChain`: a chain as a node retains it
* `summaryHeights`: the heights of a summary, in closed form
* `RoundProgress`, `Fits`: what a round achieves, and when

## Main results

* `sparseFrom_eq`: the loop of the summary computes the heights of the closed form
* `roundProgress_iff`: a round makes progress exactly where its inventory fits
-/

namespace RustTron.Network

/-- A chain that is retained from the height `low` to the height `head`. -/
structure NodeChain where
  low : Int
  head : Int
  hash : Int → Hash32
  nonneg : 0 ≤ low
  low_le : low ≤ head
  head_le : head ≤ i64Max

namespace NodeChain

/-- The id of the block at a height. -/
def id (c : NodeChain) (n : Int) : SyncBlockId := ⟨c.hash n, n⟩

/-- The id at a height that is retained. -/
def idAt (c : NodeChain) (n : Int) : Option SyncBlockId :=
  if c.low ≤ n ∧ n ≤ c.head then some (c.id n) else none

/-- The block is on the chain. -/
def onMain (c : NodeChain) (i : SyncBlockId) : Bool := c.idAt i.number = some i

@[simp] theorem number_id (c : NodeChain) (n : Int) : (c.id n).number = n := rfl

theorem idAt_of_mem {c : NodeChain} {n : Int} (hl : c.low ≤ n) (hh : n ≤ c.head) :
    c.idAt n = some (c.id n) := if_pos ⟨hl, hh⟩

theorem idAt_eq_some_iff {c : NodeChain} {n : Int} {i : SyncBlockId} :
    c.idAt n = some i ↔ (c.low ≤ n ∧ n ≤ c.head) ∧ c.id n = i := by
  unfold idAt
  split
  · next h => simp [h]
  · next h => simp [h]

end NodeChain

/-! ### The heights of a summary -/

/-- The heights of a summary of the `span` highest blocks: the span is halved from entry to entry. -/
def summaryHeights (high : Int) (span : Nat) : List Int :=
  (List.range (span.log2 + 1)).map fun k => high + 1 - (span / 2 ^ k : Nat)

theorem summaryHeights_one (high : Int) : summaryHeights high 1 = [high] := by
  have hl : Nat.log2 1 = 0 := by decide
  simp [summaryHeights, hl]

theorem summaryHeights_cons (high : Int) {span : Nat} (h : 2 ≤ span) :
    summaryHeights high span = (high + 1 - span) :: summaryHeights high (span / 2) := by
  have hl : span.log2 = (span / 2).log2 + 1 := by rw [Nat.log2_def, if_pos h]
  rw [summaryHeights, List.range_succ_eq_map, List.map_cons, List.map_map, hl, summaryHeights]
  congr 1
  · simp
  · refine List.map_congr_left fun k _ => ?_
    simp only [Function.comp_apply, Nat.succ_eq_add_one]
    rw [Nat.pow_succ', Nat.div_div_eq_div_mul]

theorem mem_summaryHeights (high : Int) {span : Nat} (hs : 1 ≤ span) :
    (high + 1 - span ∈ summaryHeights high span ∧ high ∈ summaryHeights high span) ∧
      ∀ n ∈ summaryHeights high span, high + 1 - span ≤ n ∧ n ≤ high := by
  induction span using Nat.strong_induction_on with
  | _ span ih =>
    rcases Nat.lt_or_ge span 2 with h | h
    · obtain rfl : span = 1 := by omega
      rw [summaryHeights_one]
      simp
    · obtain ⟨⟨-, hh⟩, hr⟩ := ih (span / 2) (by omega) (by omega)
      rw [summaryHeights_cons high h]
      refine ⟨⟨List.mem_cons_self, List.mem_cons_of_mem _ hh⟩, fun n hn => ?_⟩
      rcases List.mem_cons.mp hn with rfl | hn
      · omega
      · have := hr n hn
        omega

theorem pairwise_summaryHeights (high : Int) {span : Nat} (hs : 1 ≤ span) :
    (summaryHeights high span).Pairwise (· < ·) := by
  induction span using Nat.strong_induction_on with
  | _ span ih =>
    rcases Nat.lt_or_ge span 2 with h | h
    · obtain rfl : span = 1 := by omega
      rw [summaryHeights_one]
      exact List.pairwise_singleton _ _
    · rw [summaryHeights_cons high h]
      refine List.pairwise_cons.mpr ⟨fun n hn => ?_, ih (span / 2) (by omega) (by omega)⟩
      have hr := mem_summaryHeights high (show 1 ≤ span / 2 by omega)
      have := hr.2 n hn
      omega

theorem length_summaryHeights_le (high : Int) {span room : Nat} (hs : 1 ≤ span)
    (hr : span < 2 ^ room) : (summaryHeights high span).length ≤ room := by
  rw [summaryHeights, List.length_map, List.length_range]
  exact (Nat.log2_lt (by omega)).mpr hr

/-! ### The loop of the summary -/

section Loop

variable {idAt : Int → Option SyncBlockId} {f : Int → SyncBlockId} {low high : Int}

theorem sparseFrom_succ {fuel room : Nat} (hle : low ≤ high)
    (hs : high - low + 2 ≤ i64Max) (hid : idAt low = some (f low)) :
    sparseFrom idAt high (fuel + 1) (room + 1) low =
      f low :: sparseFrom idAt high fuel room (saturateI64 (low + (high - low + 2) / 2)) := by
  have hi : wrapI64 (high - low) = high - low :=
    wrapI64_of_inI64 ⟨by unfold i64Min; omega, by omega⟩
  have ho : wrapI64 (high - low + 2) = high - low + 2 :=
    wrapI64_of_inI64 ⟨by unfold i64Min; omega, hs⟩
  have hd : (high - low + 2).tdiv 2 = (high - low + 2) / 2 :=
    Int.tdiv_eq_ediv_of_nonneg (by omega)
  rw [sparseFrom, if_pos ⟨hle, Nat.succ_pos _⟩, hi, ho, hd, hid]
  dsimp only
  rw [if_neg (by omega), Nat.add_sub_cancel]

/-- The loop computes the heights of the closed form, unless it runs on at the highest number. -/
theorem sparseFrom_eq (room : Nat) : ∀ {fuel : Nat} {low : Int}, room ≤ 30 → room ≤ fuel → 0 ≤ low →
    low ≤ high → high ≤ i64Max → (∀ n, low ≤ n → n ≤ high → idAt n = some (f n)) →
    (high - low + 1).toNat < 2 ^ room → (high < i64Max ∨ 2 ^ room ≤ 2 * (high - low + 1).toNat) →
    sparseFrom idAt high fuel room low = (summaryHeights high (high - low + 1).toNat).map f := by
  induction room with
  | zero =>
    intro fuel low _ _ _ hle _ _ hs
    omega
  | succ room ih =>
    intro fuel low hr hfu hlo hle hhi hid hs hl
    obtain ⟨fuel, rfl⟩ : ∃ n, fuel = n + 1 := ⟨fuel - 1, by omega⟩
    have hpo : 2 ^ (room + 1) ≤ 2 ^ 30 := Nat.pow_le_pow_right (by omega) hr
    have hp' : 2 ^ (room + 1) = 2 * 2 ^ room := Nat.pow_succ'
    rw [sparseFrom_succ hle (by unfold i64Max; omega) (hid low le_rfl hle)]
    rcases Nat.lt_or_ge (high - low + 1).toNat 2 with h | h
    -- the head itself: the loop ends, for want of heights or of room
    · obtain rfl : low = high := by omega
      have ho : (low - low + 1).toNat = 1 := by omega
      have he : sparseFrom idAt low fuel room (saturateI64 (low + (low - low + 2) / 2)) = [] := by
        cases fuel with
        | zero => rfl
        | succ fuel =>
          rw [sparseFrom, if_neg]
          rintro ⟨hne, hp⟩
          have hb : low < i64Max := by
            rcases hl with h | h
            · exact h
            · have : 2 ≤ 2 ^ room := by
                calc 2 = 2 ^ 1 := rfl
                  _ ≤ 2 ^ room := Nat.pow_le_pow_right (by omega) hp
              omega
          rw [saturateI64_of_inI64 ⟨by unfold i64Min; omega, by omega⟩] at hne
          omega
      rw [ho, summaryHeights_one, he]
      rfl
    · have hne : saturateI64 (low + (high - low + 2) / 2) = low + (high - low + 2) / 2 :=
        saturateI64_of_inI64 ⟨by unfold i64Min; omega, by omega⟩
      have hh : (high - (low + (high - low + 2) / 2) + 1).toNat = (high - low + 1).toNat / 2 := by
        omega
      have hf : high + 1 - ((high - low + 1).toNat : Int) = low := by omega
      rw [hne, summaryHeights_cons high h, List.map_cons, hf, ← hh]
      congr 1
      refine ih (by omega) (by omega) (by omega) (by omega) hhi
        (fun n hn => hid n (by omega)) (by omega) ?_
      refine hl.imp_right fun hla => ?_
      have hev : 2 ^ room = 2 * (2 ^ room / 2) := by
        cases room with
        | zero => omega
        | succ room => rw [Nat.pow_succ']; omega
      omega

theorem head_notMem_sparseFrom (room : Nat) : ∀ {fuel : Nat} {low : Int}, 0 ≤ low → low ≤ high →
    high ≤ i64Max → (∀ n, low ≤ n → n ≤ high → idAt n = some (f n)) → (∀ n, (f n).number = n) →
    2 ^ room ≤ (high - low + 1).toNat → f high ∉ sparseFrom idAt high fuel room low := by
  induction room with
  | zero =>
    intro fuel low _ _ _ _ _ _
    cases fuel with
    | zero => exact List.not_mem_nil
    | succ fuel =>
      rw [sparseFrom, if_neg fun h => absurd h.2 (Nat.lt_irrefl 0)]
      exact List.not_mem_nil
  | succ room ih =>
    intro fuel low hl hle hh hid hnu hs
    have hpo : 2 ^ (room + 1) = 2 * 2 ^ room := Nat.pow_succ'
    have hp : 1 ≤ 2 ^ room := Nat.one_le_two_pow
    have hne : f high ≠ f low := fun h => by
      have hnum := congrArg SyncBlockId.number h
      rw [hnu, hnu] at hnum
      omega
    cases fuel with
    | zero => exact List.not_mem_nil
    | succ fuel =>
      by_cases ho : high - low + 2 ≤ i64Max
      · have hnex : saturateI64 (low + (high - low + 2) / 2) = low + (high - low + 2) / 2 :=
          saturateI64_of_inI64 ⟨by unfold i64Min; omega, by omega⟩
        rw [sparseFrom_succ hle ho (hid low le_rfl hle), hnex, List.mem_cons, not_or]
        refine ⟨hne, ih (by omega) (by omega) hh (fun n hn => hid n (by omega)) hnu ?_⟩
        omega
      -- the distance overflows, and the loop ends after its first entry
      · have ha : (wrapI64 (wrapI64 (high - low) + 2)).tdiv 2 ≤ 0 := by
          have hi : wrapI64 (high - low) = high - low :=
            wrapI64_of_inI64 ⟨by unfold i64Min; omega, by omega⟩
          have hneg : wrapI64 (high - low + 2) ≤ 0 := by
            unfold wrapI64
            unfold i64Max at hh ho
            omega
          have hd := Int.tdiv_nonneg (Int.neg_nonneg_of_nonpos hneg) (Int.natCast_nonneg 2)
          rw [Int.neg_tdiv] at hd
          rw [hi]
          exact Int.neg_nonneg.mp hd
        rw [sparseFrom, if_pos ⟨hle, Nat.succ_pos _⟩, hid low le_rfl hle]
        dsimp only
        rw [if_pos ha, List.mem_singleton]
        exact hne

/-- At the highest number the summary runs on as long as there is room. -/
theorem not_pairwise_sparseFrom (room : Nat) : ∀ {fuel : Nat} {low : Int}, room ≤ 30 →
    room + 1 ≤ fuel → 0 ≤ low → low ≤ high → high = i64Max →
    (∀ n, low ≤ n → n ≤ high → idAt n = some (f n)) →
    (high - low + 1).toNat < 2 ^ room →
    ¬ (sparseFrom idAt high fuel (room + 1) low).Pairwise fun a b => a.number < b.number := by
  induction room with
  | zero =>
    intro fuel low _ _ _ hle _ _ hs
    omega
  | succ room ih =>
    intro fuel low hr hf hl hle hh hid hs
    obtain ⟨fuel, rfl⟩ : ∃ n, fuel = n + 1 := ⟨fuel - 1, by omega⟩
    have hpo : 2 ^ (room + 1) ≤ 2 ^ 30 := Nat.pow_le_pow_right (by omega) hr
    have hp' : 2 ^ (room + 1) = 2 * 2 ^ room := Nat.pow_succ'
    rw [sparseFrom_succ hle (by unfold i64Max; omega) (hid low le_rfl hle)]
    rcases Nat.lt_or_ge (high - low + 1).toNat 2 with h | h
    · obtain rfl : low = high := by omega
      obtain ⟨fuel, rfl⟩ : ∃ n, fuel = n + 1 := ⟨fuel - 1, by omega⟩
      have hne : saturateI64 (low + (low - low + 2) / 2) = low := by
        unfold saturateI64
        unfold i64Max i64Min at *
        omega
      rw [hne, sparseFrom_succ hle (by unfold i64Max; omega) (hid low le_rfl le_rfl)]
      exact fun hp =>
        absurd (List.rel_of_pairwise_cons hp List.mem_cons_self) (lt_irrefl _)
    · have hne : saturateI64 (low + (high - low + 2) / 2) = low + (high - low + 2) / 2 :=
        saturateI64_of_inI64 ⟨by unfold i64Min; omega, by omega⟩
      rw [hne]
      refine fun hp => ih (by omega) (by omega) (by omega) (by omega) hh
        (fun n hn => hid n (by omega)) (by omega) hp.of_cons

end Loop

/-! ### The answer -/

theorem mem_heights {low high n : Int} : n ∈ heights low high ↔ low ≤ n ∧ n ≤ high := by
  rw [heights, List.mem_map]
  constructor
  · rintro ⟨k, hk, rfl⟩
    rw [List.mem_range] at hk
    omega
  · rintro ⟨hl, hh⟩
    exact ⟨(n - low).toNat, List.mem_range.mpr (by omega), by omega⟩

theorem heights_cons {low high : Int} (h : low ≤ high) :
    heights low high = low :: heights (low + 1) high := by
  have hl : (high - low + 1).toNat = (high - (low + 1) + 1).toNat + 1 := by omega
  rw [heights, hl, List.range_succ_eq_map, List.map_cons, List.map_map, heights]
  congr 1
  · simp
  · refine List.map_congr_left fun k _ => ?_
    simp only [Function.comp_apply, Nat.succ_eq_add_one]
    push_cast
    ring

theorem length_heights (low high : Int) : (heights low high).length = (high - low + 1).toNat := by
  rw [heights, List.length_map, List.length_range]

theorem pairwise_heights (low high : Int) : (heights low high).Pairwise (· < ·) := by
  rw [heights, List.pairwise_map]
  refine List.pairwise_lt_range.imp fun h => ?_
  omega

theorem mapM_some {α β : Type} {g : α → Option β} {h : α → β} :
    ∀ {l : List α}, (∀ a ∈ l, g a = some (h a)) → l.mapM g = some (l.map h)
  | [], _ => rfl
  | a :: l, ha => by
    rw [List.mapM_cons, ha a List.mem_cons_self,
      mapM_some fun b hb => ha b (List.mem_cons_of_mem _ hb)]
    rfl

theorem answerSyncRequest_eq {ids : List SyncBlockId} {first common : SyncBlockId} {head : Int}
    {onMain : SyncBlockId → Bool} {idAt : Int → Option SyncBlockId} {found : List SyncBlockId}
    (hh : ids.head? = some first) (hl : ids.length ≤ maxChainSummary)
    (hf : onMain first = true) (hc : commonBlock ids onMain = some common)
    (hfo : (heights common.number (min head (saturateI64 (common.number + syncBatch)))).mapM idAt
      = some found) :
    answerSyncRequest ⟨ids⟩ head none onMain idAt =
      .ok ⟨found, saturateI64 (head - min head (saturateI64 (common.number + syncBatch)))⟩ := by
  obtain ⟨rest, rfl⟩ := List.head?_eq_some_iff.mp hh
  unfold answerSyncRequest
  dsimp only
  rw [if_neg (not_lt.mpr hl), if_neg (by simp [hf]), if_neg (by simp), hc]
  dsimp only
  rw [hfo]

theorem validateChainInventory_eq_ok {inv : ChainInventory} {requested : SyncBlockChain}
    {maxFuture : Int} {first last : SyncBlockId} (hfi : inv.ids.head? = some first)
    (hla : inv.ids.getLast? = some last) (hl : inv.ids.length ≤ maxChainInventory)
    (hr : 0 ≤ inv.remain) (hs : inv.remain ≠ 0 → syncBatch ≤ inv.ids.length)
    (hc : consecutive inv.ids = true) (hli : first ∈ requested.ids)
    (hf : saturateI64 (last.number + inv.remain) ≤ maxFuture) :
    validateChainInventory inv requested maxFuture = .ok () := by
  obtain ⟨ids, remain⟩ := inv
  obtain ⟨rest, rfl⟩ := List.head?_eq_some_iff.mp hfi
  unfold validateChainInventory
  dsimp only at *
  have hgl : (first :: rest).getLast (by simp) = last :=
    Option.some.inj ((List.getLast?_eq_getLast_of_ne_nil _).symm.trans hla)
  rw [if_neg (not_lt.mpr hl), if_neg (not_lt.mpr hr),
    if_neg fun h => absurd (hs h.1) (not_le.mpr h.2), if_neg (by simp [hc]),
    if_neg (not_not.mpr hli), hgl, if_neg (not_lt.mpr hf)]

theorem consecutive_heights (c : NodeChain) {high : Int} (hh : high ≤ i64Max) :
    ∀ (n : Nat) {low : Int}, 0 ≤ low → (high - low + 1).toNat = n →
      consecutive ((heights low high).map c.id) = true := by
  intro n
  induction n with
  | zero =>
    intro low _ hn
    have hni : heights low high = [] := by
      rw [← List.length_eq_zero_iff, length_heights]
      exact hn
    rw [hni]
    rfl
  | succ n ih =>
    intro low hl hn
    have hne := ih (show 0 ≤ low + 1 by omega) (by omega)
    rw [heights_cons (by omega), List.map_cons]
    rcases Int.lt_or_le low high with h | h
    · rw [heights_cons (by omega), List.map_cons] at hne ⊢
      rw [consecutive, hne, Bool.and_true, beq_iff_eq]
      exact (wrapI64_of_inI64 ⟨by unfold i64Min; simp; omega, by simp; omega⟩).symm
    · have hni : heights (low + 1) high = [] := by
        rw [← List.length_eq_zero_iff, length_heights]
        omega
      rw [hni]
      rfl

/-! ### The delivery -/

namespace SyncCoordinator

variable {Peer : Type} [LinearOrder Peer]

/-- Nothing is queued, requested or in process. -/
structure Idle (s : SyncCoordinator Peer) : Prop where
  queue : ∀ peer, s.queueOf peer = []
  requested : s.requested = ∅
  inProcess : s.inProcess = ∅

/-- The peer delivers the blocks one by one, and each is applied. -/
def deliver (s : SyncCoordinator Peer) (peer : Peer) :
    List SyncBlockId → Except SyncError (SyncCoordinator Peer)
  | [] => .ok s
  | id :: rest =>
    match s.receive peer id with
    | (.ok _, t) => (t.applied id).deliver peer rest
    | (.error e, _) => .error e

theorem Idle.globalCount {s : SyncCoordinator Peer} (h : s.Idle) : s.globalCount = 0 := by
  have hq : FMap.total (fun _ queue => queue.length) s.queues = 0 := by
    refine Multiset.sum_eq_zero fun x hx => ?_
    obtain ⟨e, he, rfl⟩ := Multiset.mem_map.mp hx
    have hl : s.queues.lookup e.1 = some e.2 := Finmap.mem_lookup_iff.mpr he
    have hem := h.queue e.1
    rw [queueOf, hl] at hem
    exact congrArg List.length hem
  rw [SyncCoordinator.globalCount, hq, h.requested, h.inProcess]
  rfl

theorem Idle.peerCount {s : SyncCoordinator Peer} (h : s.Idle) (peer : Peer) :
    s.peerCount peer = 0 := by
  rw [SyncCoordinator.peerCount, requestedCount, inProcessCount, h.queue, h.requested, h.inProcess]
  rfl

theorem Idle.additions {s : SyncCoordinator Peer} (h : s.Idle) (inv : ChainInventory)
    (known : SyncBlockId → Bool) :
    s.additions inv known = (inv.ids.drop 1).filter fun id => !known id := by
  refine List.filter_congr fun id _ => ?_
  have hc : s.contains id = false := by
    refine contains_eq_false_iff.mpr ⟨fun p => ?_, ?_, ?_⟩
    · rw [h.queue]
      exact List.not_mem_nil
    · rw [h.requested]
      exact Finmap.notMem_empty
    · rw [h.inProcess]
      exact Finmap.notMem_empty
  rw [hc, Bool.not_false, Bool.and_true]

theorem Idle.installInventory_iff {s : SyncCoordinator Peer} (h : s.Idle)
    (hl : s.limits = .default) (peer : Peer) (inv : ChainInventory)
    (known : SyncBlockId → Bool) :
    (s.installInventory peer inv known).1 = .ok () ↔
      ((inv.ids.drop 1).filter fun id => !known id).length ≤ maxBlocksPerPeer := by
  rw [← h.additions inv known]
  constructor
  · intro hok
    have hb := (installInventory_eq_ok hok).2.2.2.1
    rw [h.peerCount, hl] at hb
    simp only [saturateUsize, usizeMax, SyncLimits.default, maxBlocksPerPeer] at hb ⊢
    omega
  · intro hb
    generalize hn : (s.additions inv known).length = n at hb
    have hc : saturateUsize (0 + n) ≤ SyncLimits.default.peerCount := by
      simp only [saturateUsize, usizeMax, SyncLimits.default, maxBlocksPerPeer] at hb ⊢
      omega
    have hby : saturateUsize (idBytes 0 + idBytes n) ≤ SyncLimits.default.peerBytes := by
      simp only [saturateUsize, usizeMax, SyncLimits.default, maxBlocksPerPeer, idBytes,
        syncBlockIdBytes] at hb ⊢
      omega
    have hg : SyncLimits.default.peerCount ≤ SyncLimits.default.globalCount := by decide
    have hgb : SyncLimits.default.peerBytes ≤ SyncLimits.default.globalBytes := by decide
    unfold installInventory
    dsimp only
    rw [h.globalCount, h.peerCount, hl, hn, if_neg (not_lt.mpr (hc.trans hg)),
      if_neg (not_lt.mpr (hby.trans hgb)), if_neg (not_lt.mpr hc),
      if_neg (not_lt.mpr hby)]

theorem queueOf_nextBatch (s : SyncCoordinator Peer) (peer : Peer) (now : Int) :
    (s.nextBatch peer now).2.queueOf peer = (s.queueOf peer).drop (s.capacity peer) := by
  have hd : ∀ (room : Nat) (queue : List SyncBlockId) (requested),
      (takeBatch peer now room queue requested).2.1 = queue.drop room := by
    intro room
    induction room with
    | zero => exact fun queue _ => by rw [takeBatch, List.drop_zero]
    | succ room ih =>
      intro queue requested
      cases queue with
      | nil => rw [takeBatch, List.drop_nil]
      | cons id queue =>
        rw [takeBatch, List.drop_succ_cons]
        exact ih queue _
  refine (queueOf_insert _ peer peer _).trans ?_
  rw [if_pos rfl, hd]

theorem deliver_eq_ok {peer : Peer} {now : Int} (ids : List SyncBlockId) :
    ∀ {s : SyncCoordinator Peer}, (ids.Pairwise fun a b => a.number < b.number) →
      (∀ id, s.requested.lookup id = if id ∈ ids then some (peer, now) else none) →
      s.inProcess = ∅ →
      ∃ t, s.deliver peer ids = .ok t ∧ t.queues = s.queues ∧ t.requested = ∅ ∧ t.inProcess = ∅ := by
  induction ids with
  | nil =>
    intro s _ hr hp
    refine ⟨s, rfl, rfl, Finmap.ext_lookup fun id => ?_, hp⟩
    rw [hr, if_neg List.not_mem_nil, Finmap.lookup_empty]
  | cons id ids ih =>
    intro s hpa hr hp
    obtain ⟨hf, hre⟩ := List.pairwise_cons.mp hpa
    have hm : ∀ i, i ∈ s.requestsOf peer ↔ i ∈ id :: ids := by
      intro i
      rw [mem_requestsOf, hr]
      by_cases hi : i ∈ id :: ids
      · rw [if_pos hi]
        exact ⟨fun _ => hi, fun _ => ⟨now, rfl⟩⟩
      · rw [if_neg hi]
        exact ⟨fun ⟨_, h⟩ => (nomatch h), fun h => absurd h hi⟩
    have hok : (s.receive peer id).1 = .ok () := by
      refine receive_eq_ok_iff.mpr ⟨(hm id).mpr List.mem_cons_self, fun i hi => ?_⟩
      rcases List.mem_cons.mp ((hm i).mp hi) with rfl | hi
      · exact le_rfl
      · exact (hf i hi).le
    rcases s.receive_cases peer id with ⟨madeAt, -, heq⟩ | ⟨e, heq⟩
    · have hnm : id ∉ ids := fun hin => absurd (hf id hin) (lt_irrefl _)
      rw [deliver, heq]
      refine ih hre (fun i => ?_) ?_
      · simp only [applied]
        by_cases hi : i = id
        · subst hi
          rw [Finmap.lookup_erase, if_neg hnm]
        · rw [Finmap.lookup_erase_ne hi, hr]
          simp [hi]
      · simp only [applied, hp]
        refine Finmap.ext_lookup fun i => ?_
        by_cases hi : i = id
        · rw [hi, Finmap.lookup_erase, Finmap.lookup_empty]
        · rw [Finmap.lookup_erase_ne hi, Finmap.lookup_insert_of_ne _ hi]
    · rw [heq] at hok
      cases hok

end SyncCoordinator

/-! ### The round -/

namespace NodeChain

/-- The number of blocks that are retained. -/
def span (a : NodeChain) : Nat := (a.head - a.low + 1).toNat

/-- The chains have one block at a height. -/
def shares (a b : NodeChain) (n : Int) : Bool := b.idAt n = some (a.id n)

/-- The last height of the summary of `a` at which the chains agree. -/
def lastShared (a b : NodeChain) : Int :=
  ((summaryHeights a.head a.span).reverse.find? (a.shares b)).getD a.low

/-- The ids of `b` new to `a` among the 2000 after the last height that the summary shares. -/
def unknownAfter (a b : NodeChain) : List SyncBlockId :=
  ((heights (a.lastShared b + 1) (min b.head (a.lastShared b + syncBatch))).map b.id).filter
    fun id => !a.onMain id

/-- The summary of `a` reaches its head and ends there, and the answer of `b` has at most 100 ids
that are new to `a`. -/
structure Fits (a b : NodeChain) : Prop where
  reach : a.span < 2 ^ 30
  last : a.head < i64Max ∨ 2 ^ 30 ≤ 2 * a.span
  few : (a.unknownAfter b).length ≤ maxBlocksPerPeer

end NodeChain

/-- A summary as it should be. -/
structure SummaryOk (a : NodeChain) (summary : List SyncBlockId) : Prop where
  nonempty : summary ≠ []
  increasing : summary.Pairwise fun x y => x.number < y.number
  low : a.id a.low ∈ summary
  head : a.id a.head ∈ summary
  length : summary.length ≤ maxChainSummary

/-- An idle coordinator takes the inventory for the request it was made for, asks for the ids that
are new, and is idle again when they are delivered. -/
def Delivers {Peer : Type} [LinearOrder Peer] (a : NodeChain) (inv : ChainInventory) (peer : Peer) :
    Prop :=
  ∀ (s t : SyncCoordinator Peer) (token : ChainRequestToken) (now : Int), s.Idle →
    s.limits = .default → s.issueChainRequest peer = (.ok token, t) →
    (t.installInventoryForRequest peer token inv a.onMain).1 = .ok () ∧
      let asked := (t.installInventoryForRequest peer token inv a.onMain).2.nextBatch peer now
      asked.1 = (inv.ids.filter fun id => !a.onMain id) ∧
        (asked.1.Pairwise fun x y => x.number < y.number) ∧
        ∃ u, asked.2.deliver peer asked.1 = .ok u ∧ u.Idle ∧ ∀ later, (u.nextBatch peer later).1 = []

/-- A round of synchronization of `a` with `b` makes progress. -/
def RoundProgress {Peer : Type} [LinearOrder Peer] (a b : NodeChain) (peer : Peer) : Prop :=
  SummaryOk a (sparseChainSummary a.low a.head a.idAt) ∧
    ∃ inv, answerSyncRequest ⟨sparseChainSummary a.low a.head a.idAt⟩ b.head none b.onMain b.idAt =
        .ok inv ∧
      (∃ common ∈ sparseChainSummary a.low a.head a.idAt, a.onMain common ∧ b.onMain common ∧
        ∃ stop, common.number ≤ stop ∧ stop ≤ b.head ∧
          inv.ids = (heights common.number stop).map b.id) ∧
      (∀ maxFuture, b.head ≤ maxFuture →
        validateChainInventory inv ⟨sparseChainSummary a.low a.head a.idAt⟩ maxFuture = .ok ()) ∧
      Delivers a inv peer

section Round

variable {Peer : Type} [LinearOrder Peer] {a b : NodeChain} {inv : ChainInventory} {peer : Peer}

theorem issueChainRequest_eq_ok {s t : SyncCoordinator Peer} {token : ChainRequestToken}
    (h : s.issueChainRequest peer = (.ok token, t)) :
    t = { s with nextToken := token, chainRequests := s.chainRequests.insert peer token } := by
  unfold SyncCoordinator.issueChainRequest at h
  split at h
  · cases h
  · cases h
    rfl

theorem delivers_of_few {common : SyncBlockId} {rest : List SyncBlockId}
    (hid : inv.ids = common :: rest) (hk : a.onMain common = true)
    (hpa : inv.ids.Pairwise fun x y => x.number < y.number)
    (hfe : (rest.filter fun id => !a.onMain id).length ≤ maxBlocksPerPeer) :
    Delivers a inv peer := by
  intro s t token now hi hl his
  obtain rfl := issueChainRequest_eq_ok his
  have hdr : inv.ids.drop 1 = rest := by rw [hid]; rfl
  have hf : (inv.ids.filter fun id => !a.onMain id) = rest.filter fun id => !a.onMain id := by
    rw [hid, List.filter_cons, if_neg (by simp [hk])]
  -- the coordinator after the request is consumed
  set u : SyncCoordinator Peer :=
    { s with
      nextToken := token
      chainRequests := (s.chainRequests.insert peer token).erase peer } with hu
  have hi' : u.Idle := ⟨hi.queue, hi.requested, hi.inProcess⟩
  have hin : ({ s with
        nextToken := token
        chainRequests := s.chainRequests.insert peer token } :
          SyncCoordinator Peer).installInventoryForRequest peer token inv a.onMain =
      u.installInventory peer inv a.onMain := by
    unfold SyncCoordinator.installInventoryForRequest
    rw [if_neg (not_not.mpr (Finmap.lookup_insert _))]
  have hok : (u.installInventory peer inv a.onMain).1 = .ok () := by
    rw [hi'.installInventory_iff hl, hdr]
    exact hfe
  have hst := (SyncCoordinator.installInventory_eq_ok hok).1
  rw [hi'.additions, hi'.queue, List.nil_append, hdr, ← hf] at hst
  rw [hin]
  refine ⟨hok, ?_⟩
  rw [hst]
  set ids := inv.ids.filter fun id => !a.onMain id with hidd
  set v : SyncCoordinator Peer := { u with queues := u.queues.insert peer ids } with hv
  have hq : ∀ p, v.queueOf p = if p = peer then ids else [] := fun p =>
    (u.queueOf_insert peer p ids).trans (by rw [hi'.queue])
  have hc : ids.length ≤ v.capacity peer := by
    have hz : v.requestedCount peer + v.inProcessCount peer = 0 := by
      have hco := hi'.peerCount peer
      rw [SyncCoordinator.peerCount] at hco
      have h₁ : v.requestedCount peer = u.requestedCount peer := rfl
      have h₂ : v.inProcessCount peer = u.inProcessCount peer := rfl
      omega
    have hli : v.limits = .default := hl
    rw [SyncCoordinator.capacity, hz, hli, hf]
    exact hfe
  have hb : (v.nextBatch peer now).1 = ids := by
    rw [SyncCoordinator.fst_nextBatch, hq, if_pos rfl, List.take_of_length_le hc]
  have hs : ids.Pairwise fun x y => x.number < y.number := hpa.sublist List.filter_sublist
  have hlo : ∀ id, (v.nextBatch peer now).2.requested.lookup id =
      if id ∈ ids then some (peer, now) else none := by
    intro id
    rw [SyncCoordinator.snd_nextBatch, SyncCoordinator.lookup_popAll, hq, if_pos rfl,
      List.take_of_length_le hc]
    refine if_congr Iff.rfl rfl ?_
    have he : v.requested = ∅ := hi'.requested
    rw [he, Finmap.lookup_empty]
  obtain ⟨w, hd, hqu, hr, hpr⟩ :=
    SyncCoordinator.deliver_eq_ok ids hs hlo hi'.inProcess
  have hqw : ∀ p, w.queueOf p = [] := by
    intro p
    have hke : w.queueOf p = (v.nextBatch peer now).2.queueOf p := by
      rw [SyncCoordinator.queueOf, hqu]
      rfl
    rw [hke]
    by_cases hp : p = peer
    · rw [hp, SyncCoordinator.queueOf_nextBatch, hq, if_pos rfl,
        List.drop_of_length_le hc]
    · refine (v.queueOf_insert peer p _).trans ?_
      rw [if_neg hp, hq, if_neg hp]
  refine ⟨hb, hb ▸ hs, w, hb ▸ hd, ⟨hqw, hr, hpr⟩, ?_⟩
  intro later
  rw [SyncCoordinator.fst_nextBatch, hqw, List.take_nil]

theorem few_of_delivers (h : Delivers a inv peer) :
    ((inv.ids.drop 1).filter fun id => !a.onMain id).length ≤ maxBlocksPerPeer := by
  have hid : (SyncCoordinator.withLimits .default : SyncCoordinator Peer).Idle :=
    ⟨fun _ => rfl, rfl, rfl⟩
  have hi : (SyncCoordinator.withLimits .default : SyncCoordinator Peer).issueChainRequest peer =
      (.ok 1, { SyncCoordinator.withLimits .default with
        nextToken := 1
        chainRequests := (∅ : FMap Peer ChainRequestToken).insert peer 1 }) := by
    unfold SyncCoordinator.issueChainRequest
    rw [if_neg]
    · rfl
    · rintro ⟨-, hf⟩
      exact absurd (show maxOutstandingChainRequests ≤ 0 from hf) (by decide)
  have hok := (h _ _ 1 0 hid rfl hi).1
  unfold SyncCoordinator.installInventoryForRequest at hok
  rw [if_neg (not_not.mpr (Finmap.lookup_insert _))] at hok
  refine (SyncCoordinator.Idle.installInventory_iff ?_ rfl peer inv a.onMain).mp hok
  exact ⟨fun _ => rfl, rfl, rfl⟩

theorem sparseChainSummary_eq (hr : a.span < 2 ^ 30)
    (hla : a.head < i64Max ∨ 2 ^ 30 ≤ 2 * a.span) :
    sparseChainSummary a.low a.head a.idAt = (summaryHeights a.head a.span).map a.id := by
  rw [sparseChainSummary, if_neg (not_lt.mpr a.low_le)]
  exact sparseFrom_eq maxChainSummary le_rfl (by decide) a.nonneg a.low_le a.head_le
    (fun n hl hh => NodeChain.idAt_of_mem hl hh) hr hla

theorem one_le_span (a : NodeChain) : 1 ≤ a.span := by
  have := a.low_le
  unfold NodeChain.span
  omega

theorem low_eq (a : NodeChain) : a.head + 1 - (a.span : Int) = a.low := by
  have := a.low_le
  unfold NodeChain.span
  omega

theorem mem_span {n : Int} (hn : n ∈ summaryHeights a.head a.span) : a.low ≤ n ∧ n ≤ a.head := by
  have := (mem_summaryHeights a.head (one_le_span a)).2 n hn
  rwa [low_eq] at this

theorem summaryOk_heights (hr : a.span < 2 ^ 30) :
    SummaryOk a ((summaryHeights a.head a.span).map a.id) := by
  have hs := one_le_span a
  have hm := (mem_summaryHeights a.head hs).1
  rw [low_eq] at hm
  refine ⟨?_, ?_, List.mem_map_of_mem hm.1, List.mem_map_of_mem hm.2, ?_⟩
  · exact List.ne_nil_of_mem (List.mem_map_of_mem hm.1)
  · rw [List.pairwise_map]
    exact pairwise_summaryHeights a.head hs
  · rw [List.length_map]
    exact length_summaryHeights_le a.head hs hr

theorem fits_of_summaryOk (h : SummaryOk a (sparseChainSummary a.low a.head a.idAt)) :
    a.span < 2 ^ 30 ∧ (a.head < i64Max ∨ 2 ^ 30 ≤ 2 * a.span) := by
  have hid : ∀ n, a.low ≤ n → n ≤ a.head → a.idAt n = some (a.id n) :=
    fun n hl hh => NodeChain.idAt_of_mem hl hh
  have hs : sparseChainSummary a.low a.head a.idAt =
      sparseFrom a.idAt a.head (64 + maxChainSummary) maxChainSummary a.low := by
    rw [sparseChainSummary, if_neg (not_lt.mpr a.low_le)]
  have hr : a.span < 2 ^ 30 := by
    by_contra hlar
    have hhe := h.head
    rw [hs] at hhe
    exact head_notMem_sparseFrom maxChainSummary a.nonneg a.low_le a.head_le hid (fun _ => rfl)
      (not_lt.mp hlar) hhe
  refine ⟨hr, ?_⟩
  by_contra hla
  rw [not_or] at hla
  have hm : a.head = i64Max := le_antisymm a.head_le (not_lt.mp hla.1)
  have hi := h.increasing
  rw [hs] at hi
  refine not_pairwise_sparseFrom 29 (by decide) (by decide) a.nonneg a.low_le hm hid ?_ hi
  have := hla.2
  unfold NodeChain.span at this
  omega

/-- Chains that agree at the lowest height share a height of the summary, and the last one is the
common block. -/
theorem commonBlock_eq (ha : b.idAt a.low = some (a.id a.low)) :
    (a.lastShared b ∈ summaryHeights a.head a.span ∧
        b.idAt (a.lastShared b) = some (a.id (a.lastShared b))) ∧
      commonBlock ((summaryHeights a.head a.span).map a.id) b.onMain =
        some (a.id (a.lastShared b)) := by
  have hm := (mem_summaryHeights a.head (one_le_span a)).1.1
  rw [low_eq] at hm
  have hs : ∀ n, a.shares b n = b.onMain (a.id n) := fun _ => rfl
  cases hf : (summaryHeights a.head a.span).reverse.find? (a.shares b) with
  | none =>
    have hn := List.find?_eq_none.mp hf a.low (List.mem_reverse.mpr hm)
    simp [NodeChain.shares, ha] at hn
  | some n =>
    have hl : a.lastShared b = n := by rw [NodeChain.lastShared, hf, Option.getD_some]
    rw [hl]
    refine ⟨⟨List.mem_reverse.mp (List.mem_of_find?_eq_some hf), ?_⟩, ?_⟩
    · simpa [NodeChain.shares] using List.find?_some hf
    · have hc : (fun n => b.onMain (a.id n)) = a.shares b := rfl
      rw [commonBlock, ← List.map_reverse, List.find?_map]
      exact congrArg (Option.map a.id) hf

/-- The answer of a chain that shares the lowest block: the ids after the last shared height. -/
theorem answer_eq (ha : b.idAt a.low = some (a.id a.low)) (hre : a.span < 2 ^ 30) :
    answerSyncRequest ⟨(summaryHeights a.head a.span).map a.id⟩ b.head none b.onMain b.idAt =
      .ok ⟨(heights (a.lastShared b) (min b.head (a.lastShared b + syncBatch))).map b.id,
        b.head - min b.head (a.lastShared b + syncBatch)⟩ := by
  obtain ⟨⟨hm, hsh⟩, hc⟩ := commonBlock_eq ha
  have hok := summaryOk_heights hre
  obtain ⟨⟨hbl, hbh⟩, -⟩ := NodeChain.idAt_eq_some_iff.mp hsh
  have hl := (mem_span hm).1
  have han := a.nonneg
  have hbm := b.head_le
  have hb := b.nonneg
  have hs : min b.head (saturateI64 (a.lastShared b + syncBatch)) =
      min b.head (a.lastShared b + syncBatch) := by
    unfold saturateI64
    unfold i64Max i64Min at *
    omega
  have hr : saturateI64 (b.head - min b.head (a.lastShared b + syncBatch)) =
      b.head - min b.head (a.lastShared b + syncBatch) := by
    refine saturateI64_of_inI64 ⟨?_, ?_⟩
    · unfold i64Min
      omega
    · have : 0 ≤ min b.head (a.lastShared b + syncBatch) := by omega
      omega
  have hh : ((summaryHeights a.head a.span).map a.id).head? = some (a.id a.low) := by
    rcases Nat.lt_or_ge a.span 2 with h | h
    · have ho : a.span = 1 := by have := one_le_span a; omega
      have hsa : a.head = a.low := by have := low_eq a; omega
      rw [ho, summaryHeights_one, hsa]
      rfl
    · rw [summaryHeights_cons a.head h, low_eq]
      rfl
  have hf : b.onMain (a.id a.low) = true := by simp [NodeChain.onMain, ha]
  have hfo := mapM_some (g := b.idAt) (h := b.id)
    (l := heights (a.lastShared b) (min b.head (a.lastShared b + syncBatch))) fun n hn => by
      obtain ⟨hn₁, hn₂⟩ := mem_heights.mp hn
      exact NodeChain.idAt_of_mem (by omega) (by omega)
  refine (answerSyncRequest_eq hh hok.length hf hc
    (by rw [NodeChain.number_id, hs]; exact hfo)).trans ?_
  rw [NodeChain.number_id, hs, hr]

theorem heights_answer (ha : b.idAt a.low = some (a.id a.low)) :
    (heights (a.lastShared b) (min b.head (a.lastShared b + syncBatch))).map b.id =
      a.id (a.lastShared b) ::
        (heights (a.lastShared b + 1) (min b.head (a.lastShared b + syncBatch))).map b.id := by
  obtain ⟨⟨-, hs⟩, -⟩ := commonBlock_eq ha
  obtain ⟨⟨-, hb⟩, hsa⟩ := NodeChain.idAt_eq_some_iff.mp hs
  rw [heights_cons (by omega), List.map_cons, hsa]

theorem validate_answer (ha : b.idAt a.low = some (a.id a.low)) {maxFuture : Int}
    (hf : b.head ≤ maxFuture) :
    validateChainInventory
      ⟨(heights (a.lastShared b) (min b.head (a.lastShared b + syncBatch))).map b.id,
        b.head - min b.head (a.lastShared b + syncBatch)⟩
      ⟨(summaryHeights a.head a.span).map a.id⟩ maxFuture = .ok () := by
  obtain ⟨⟨hm, hs⟩, -⟩ := commonBlock_eq ha
  obtain ⟨⟨-, hbh⟩, -⟩ := NodeChain.idAt_eq_some_iff.mp hs
  have hlo := (mem_span hm).1
  have han := a.nonneg
  have hb := b.head_le
  have hbn := b.nonneg.trans b.low_le
  generalize hc : a.lastShared b = c at *
  generalize hst : min b.head (c + syncBatch) = stop
  have hl : ((heights c stop).map b.id).length = (stop - c + 1).toNat := by
    rw [List.length_map, length_heights]
  have hba : (syncBatch : Int) = 2000 := rfl
  have hi : maxChainInventory = 2001 := rfl
  have hla : ((heights c stop).map b.id).getLast? = some (b.id stop) := by
    have hsp : (stop - c + 1).toNat = (stop - c).toNat + 1 := by omega
    have he : c + ((stop - c).toNat : Int) = stop := by omega
    rw [heights, hsp, List.range_succ, List.map_append, List.map_append, List.map_singleton,
      List.map_singleton, List.getLast?_concat, he]
  have hfi : ((heights c stop).map b.id).head? = some (a.id c) := by
    rw [← hst, ← hc, heights_answer ha]
    rfl
  refine validateChainInventory_eq_ok hfi hla ?_ ?_ ?_ ?_ (List.mem_map_of_mem hm) ?_
  · dsimp only
    rw [hl]
    omega
  · dsimp only
    omega
  · dsimp only
    rw [hl]
    have : (syncBatch : Nat) = 2000 := rfl
    omega
  · exact consecutive_heights b (by omega) _ (by omega) rfl
  · rw [NodeChain.number_id, show stop + (b.head - stop) = b.head by ring,
      saturateI64_of_inI64 ⟨by unfold i64Min; omega, hb⟩]
    exact hf

theorem RoundProgress.fits (ha : b.idAt a.low = some (a.id a.low))
    (h : RoundProgress a b peer) : a.Fits b := by
  obtain ⟨hs, inv, hi, -, -, hd⟩ := h
  obtain ⟨hr, hl⟩ := fits_of_summaryOk hs
  rw [sparseChainSummary_eq hr hl, answer_eq ha hr] at hi
  cases hi
  have hf := few_of_delivers hd
  rw [heights_answer ha] at hf
  exact ⟨hr, hl, hf⟩

/-- **A round of synchronization.** Between two chains that agree at the lowest height the requester
retains, a round makes progress exactly where it fits. -/
theorem roundProgress_iff (a b : NodeChain) (peer : Peer)
    (hagree : b.idAt a.low = some (a.id a.low)) : RoundProgress a b peer ↔ a.Fits b := by
  obtain ⟨⟨hmem, hshared⟩, -⟩ := commonBlock_eq hagree
  refine ⟨RoundProgress.fits hagree, ?_⟩
  rintro ⟨hreach, hlast, hfew⟩
  obtain ⟨hrange₁, hrange₂⟩ := mem_span hmem
  obtain ⟨⟨-, hbhead⟩, -⟩ := NodeChain.idAt_eq_some_iff.mp hshared
  have hknown : a.onMain (a.id (a.lastShared b)) = true := by
    rw [NodeChain.onMain, NodeChain.number_id, NodeChain.idAt_of_mem hrange₁ hrange₂]
    exact decide_eq_true rfl
  have hknown' : b.onMain (a.id (a.lastShared b)) = true := by
    rw [NodeChain.onMain, NodeChain.number_id, hshared]
    exact decide_eq_true rfl
  rw [RoundProgress, sparseChainSummary_eq hreach hlast]
  refine ⟨summaryOk_heights hreach, _, answer_eq hagree hreach, ?_, ?_, ?_⟩
  · refine ⟨_, List.mem_map_of_mem hmem, hknown, hknown', _, ?_, min_le_left _ _, rfl⟩
    rw [NodeChain.number_id]
    omega
  · exact fun maxFuture hfuture => validate_answer hagree hfuture
  · refine delivers_of_few (heights_answer hagree) hknown ?_ hfew
    rw [List.pairwise_map]
    exact pairwise_heights _ _

end Round

/-- The chain of empty hashes up to a height. -/
def NodeChain.zeros (head : Nat) (h : (head : Int) ≤ i64Max) : NodeChain where
  low := 0
  head := head
  hash := fun _ => Hash32.zero
  nonneg := le_rfl
  low_le := Int.natCast_nonneg head
  head_le := h

theorem roundProgress_zeros :
    RoundProgress (.zeros 2 (by decide)) (.zeros 7 (by decide)) (0 : Nat) :=
  (roundProgress_iff _ _ 0 (by decide)).mpr
    ⟨by decide, .inl (by decide), by decide⟩

/-- A node that is 101 blocks behind gets nowhere. -/
theorem not_roundProgress_zeros :
    ¬ RoundProgress (.zeros 0 (by decide)) (.zeros 101 (by decide)) (0 : Nat) := by
  intro h
  have hfew := (h.fits (by decide)).few
  revert hfew
  decide

end RustTron.Network
