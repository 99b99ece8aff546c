import RustTron.Network.SyncRound
import RustTron.State.Session

/-!
# Serving synchronization

A production node answers a request for the blocks behind a summary from three closures: the number
of its head, the id at a height, and whether a block is on its chain. The runtime installs closures
that read the head cursor and the genesis id and nothing else: they know the two ends of the chain.

## Main definitions

* `syncHead`, `syncIdAt`, `syncOnMain`: the closures that the runtime installs
* `serveSync`: the answer of the node to a decoded request
* `NodeChain.Serves c request`: the answer is the canonical chain behind the highest requested block

## Main results

* `serves_iff`: a request is served exactly by a node that holds nothing but the genesis block
-/

namespace RustTron.Network

open State (CursorPoint)

/-! ### The closures -/

/-- `sync_head`: the number of the head cursor. -/
def syncHead (head : CursorPoint) : Int := min head.block i64Max

/-- `sync_id_at`: the head cursor, if it is at this number. -/
def syncIdAt (head : CursorPoint) (number : Int) : Option SyncBlockId :=
  if (head.block : Int) ≤ i64Max ∧ (head.block : Int) = number then
    some ⟨head.identity, number⟩
  else none

/-- `sync_on_main`: the genesis block. -/
def syncOnMain (genesis : Hash32) (id : SyncBlockId) : Bool := id.number = 0 && id.hash = genesis

/-- A `SyncBlockChain` message, once it is decoded: the inventory that is sent back, or the error
that ends the session. -/
def serveSync (genesis : Hash32) (head : CursorPoint) (request : SyncBlockChain) :
    Except String ChainInventory :=
  (answerSyncRequest request (syncHead head) none (syncOnMain genesis) (syncIdAt head)).mapError
    fun _ => "sync request"

/-! ### Requests of canonical blocks -/

namespace NodeChain

variable {c : NodeChain} {request : SyncBlockChain}

/-- The head cursor of a node that holds the chain. -/
def point (c : NodeChain) : CursorPoint := ⟨c.head.toNat, c.hash c.head⟩

/-- A request of canonical ids, at increasing heights from the genesis block on. -/
structure Requests (c : NodeChain) (request : SyncBlockChain) (heights : List Int) : Prop where
  ids : request.ids = heights.map c.id
  genesis : heights.head? = some 0
  increasing : heights.Pairwise (· < ·)
  held : ∀ n ∈ heights, n ≤ c.head
  length : heights.length ≤ maxChainSummary

/-- The node answers with consecutive canonical ids, from the highest requested one on. -/
def Serves (c : NodeChain) (request : SyncBlockChain) (highest : Int) : Prop :=
  ∃ inv last, serveSync (c.hash 0) c.point request = .ok inv ∧ highest ≤ last ∧ last ≤ c.head ∧
    inv.ids = (heights highest last).map c.id

theorem syncHead_point (hn : 0 ≤ c.head) : syncHead c.point = c.head := by
  have hle := c.head_le
  unfold syncHead point
  dsimp only
  rw [Int.toNat_of_nonneg hn, min_eq_left hle]

theorem syncIdAt_point (hno : 0 ≤ c.head) (n : Int) :
    syncIdAt c.point n = if c.head = n then some (c.id n) else none := by
  have hle := c.head_le
  unfold syncIdAt point
  dsimp only
  rw [Int.toNat_of_nonneg hno]
  by_cases hn : c.head = n
  · rw [if_pos ⟨hle, hn⟩, if_pos hn, hn]
    rfl
  · rw [if_neg fun h => hn h.2, if_neg hn]

theorem syncOnMain_id (n : Int) : syncOnMain (c.hash 0) (c.id n) = decide (n = 0) := by
  by_cases hn : n = 0
  · simp [syncOnMain, id, hn]
  · simp [syncOnMain, id, hn]

theorem Requests.commonBlock_eq {heights : List Int} (h : Requests c request heights) :
    commonBlock request.ids (syncOnMain (c.hash 0)) = some (c.id 0) := by
  obtain ⟨rest, hh⟩ := List.head?_eq_some_iff.mp h.genesis
  have hr : ∀ n ∈ rest, n ≠ 0 := fun n hn => by
    have hp := h.increasing
    rw [hh, List.pairwise_cons] at hp
    exact (hp.1 n hn).ne'
  rw [commonBlock, h.ids, hh, ← List.map_reverse, List.find?_map, List.reverse_cons,
    List.find?_append]
  have hno : rest.reverse.find? (syncOnMain (c.hash 0) ∘ c.id) = none := by
    refine List.find?_eq_none.mpr fun n hn => ?_
    rw [Function.comp, syncOnMain_id, decide_eq_true_iff]
    exact hr n (List.mem_reverse.mp hn)
  rw [hno]
  simp [syncOnMain_id]

theorem Requests.head {heights : List Int} (h : Requests c request heights) :
    request.ids.head? = some (c.id 0) := by
  rw [h.ids, List.head?_map, h.genesis]
  rfl

/-- Behind the genesis block there are ids that the closure does not know, if there is anything. -/
theorem mapM_syncIdAt_eq_none (hp : 0 < c.head) {last : Int} (hl : 0 ≤ last) :
    (heights 0 last).mapM (syncIdAt c.point) = none := by
  obtain ⟨k, hk⟩ : ∃ k, (last - 0 + 1).toNat = k + 1 := ⟨(last - 0 + 1).toNat - 1, by omega⟩
  rw [heights, hk, List.range_succ_eq_map, List.map_cons, List.mapM_cons,
    syncIdAt_point hp.le, if_neg (by simp; omega)]
  rfl

theorem Requests.refused {heights : List Int} (h : Requests c request heights)
    (hp : 0 < c.head) :
    serveSync (c.hash 0) c.point request = .error "sync request" := by
  have hla : (0 : Int) ≤ min c.head (saturateI64 (0 + syncBatch)) := by
    have hb : saturateI64 (0 + (syncBatch : Int)) = 2000 := by decide
    omega
  have hc := h.commonBlock_eq
  obtain ⟨rest, hi⟩ := List.head?_eq_some_iff.mp h.head
  have hl : request.ids.length ≤ maxChainSummary := by
    rw [h.ids, List.length_map]
    exact h.length
  obtain ⟨ids⟩ := request
  dsimp only at hi hc hl
  subst hi
  rw [serveSync, answerSyncRequest]
  dsimp only
  rw [if_neg (not_lt.mpr hl), if_neg (by simp [syncOnMain_id]), if_neg (by simp), hc]
  dsimp only
  rw [number_id, syncHead_point hp.le, mapM_syncIdAt_eq_none hp hla]
  rfl

theorem Requests.answered {heights : List Int} (h : Requests c request heights)
    (hz : c.head = 0) : serveSync (c.hash 0) c.point request = .ok ⟨[c.id 0], 0⟩ := by
  have hf : (Network.heights (c.id 0).number
      (min (syncHead c.point) (saturateI64 ((c.id 0).number + syncBatch)))).mapM
        (syncIdAt c.point) = some [c.id 0] := by
    rw [number_id, syncHead_point hz.ge, hz]
    have hh : Network.heights 0 (min 0 (saturateI64 (0 + syncBatch))) = [0] := by decide
    rw [hh, List.mapM_cons, syncIdAt_point hz.ge, if_pos hz]
    rfl
  have hl : request.ids.length ≤ maxChainSummary := by
    rw [h.ids, List.length_map]
    exact h.length
  obtain ⟨ids⟩ := request
  rw [serveSync, answerSyncRequest_eq h.head hl (by rw [syncOnMain_id]; rfl) h.commonBlock_eq
    hf, number_id, syncHead_point hz.ge, hz]
  rfl

/-- **A node serves synchronization** only while it holds nothing but the genesis block: to any
other it answers with an error, and the session ends. -/
theorem serves_iff {heights : List Int} (hlow : c.low = 0) (h : Requests c request heights)
    {highest : Int} (hhighest : heights.getLast? = some highest) :
    c.Serves request highest ↔ c.head = 0 := by
  have hnonneg : 0 ≤ c.head := hlow ▸ c.low_le
  constructor
  · rintro ⟨inv, last, hserve, -⟩
    by_contra hne
    rw [h.refused (lt_of_le_of_ne hnonneg (Ne.symm hne))] at hserve
    cases hserve
  · intro hzero
    -- the only height that can be asked for is that of the genesis block
    have hhighest' : highest = 0 := by
      obtain ⟨rest, hheights⟩ := List.head?_eq_some_iff.mp h.genesis
      have hmem := List.mem_of_getLast? hhighest
      have hle := h.held highest hmem
      have hpair := h.increasing
      rw [hheights, List.pairwise_cons] at hpair
      rw [hheights] at hmem
      rcases List.mem_cons.mp hmem with rfl | hmem
      · rfl
      · have hlt := hpair.1 highest hmem
        omega
    subst hhighest'
    exact ⟨_, 0, h.answered hzero, le_rfl, hnonneg, rfl⟩

/-- The genesis block is asked for, of a node that holds nothing else. -/
theorem serves_zeros : (zeros 0 (by decide)).Serves ⟨[(zeros 0 (by decide)).id 0]⟩ 0 :=
  (serves_iff rfl ⟨rfl, rfl, List.pairwise_singleton _ _, by decide, by decide⟩ rfl).mpr rfl

/-- A node with one block more than the genesis block does not serve the request of a node that is
one block behind. -/
theorem not_serves_zeros :
    Requests (zeros 1 (by decide)) ⟨[(zeros 1 (by decide)).id 0]⟩ [0] ∧
    ¬ (zeros 1 (by decide)).Serves ⟨[(zeros 1 (by decide)).id 0]⟩ 0 := by
  have hrequests : Requests (zeros 1 (by decide)) ⟨[(zeros 1 (by decide)).id 0]⟩ [0] :=
    ⟨rfl, rfl, List.pairwise_singleton _ _, by decide, by decide⟩
  refine ⟨hrequests, ?_⟩
  rintro ⟨inv, last, hserve, -⟩
  rw [hrequests.refused (by decide)] at hserve
  cases hserve

end NodeChain

end RustTron.Network
