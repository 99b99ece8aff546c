import RustTron.State.Khaos.Coherence
import RustTron.State.Khaos.Retention
import Mathlib

/-!
# The graph with its indexes, over every run

Whatever the operations on the graph, in either store the five structures agree, and after an
insertion the store is within its limits.

## Main definitions

* `IndexedStore.Consistent`: the five structures of a store agree
* `IndexedStore.Within`: a store is within its limits
* `Runs`: the graphs that the operations reach
* `IndexedDatabase.Good`: the invariant

## Main results

* `KhaosStore.Ordered.room`: what is left after an eviction leaves room
* `IndexedDatabase.Good.push`, `Good.start`, `Good.removeBlk`: one operation keeps the invariant
* `indexes_agree`: over every run
-/

namespace RustTron.State

variable {T : Type} [RetainedSize T]

/-- **What is left** when the planned nodes have gone leaves room for the new one. -/
theorem KhaosStore.Ordered.room {numberOf : BlockId → Int} {store : KhaosStore T}
    (h : store.Ordered numberOf) {incoming : Nat} {pinned : Option Nat}
    {victims : List (KhaosNode T)}
    (hc : store.checkResourceLimit incoming pinned = .ok victims) :
    (store.entries.filter (survives victims)).length < store.maxEntries ∧
      IndexedStore.size (store.entries.filter (survives victims)) + incoming ≤ store.maxBytes := by
  obtain ⟨⟨older, newer, he, hvi⟩, hf⟩ := checkResourceLimit_ok hc
  have hs : victims.Sublist store.entries := by
    rw [hvi, he]
    exact List.filter_sublist.trans (List.sublist_append_left _ _)
  -- the nodes that go are the victims, in some order
  have hp : (store.entries.filter fun n => ! survives victims n).Perm victims := by
    have hno : store.entries.Nodup := h.uids.of_map _
    refine (List.perm_ext_iff_of_nodup (hno.filter _) (hno.sublist hs)).mpr fun n => ?_
    rw [List.mem_filter, Bool.not_eq_true', survives, List.all_eq_false]
    constructor
    · rintro ⟨hn, victim, hv, hu⟩
      rwa [h.eq_of_uid hn (hs.subset hv) (by simpa using hu)]
    · intro hv
      exact ⟨hs.subset hv, n, hv, by simp⟩
  rw [IndexedStore.length_filter, IndexedStore.size_filter, hp.length_eq, IndexedStore.size,
    IndexedStore.size, (hp.map _).sum_eq]
  rw [fits, Bool.and_eq_true, decide_eq_true_iff, decide_eq_true_iff] at hf
  exact hf

namespace IndexedStore

omit [RetainedSize T] in
theorem sum_atNumber (f : KhaosNode T → Nat) (numbers : Finset Int) (nodes : List (KhaosNode T))
    (h : ∀ n ∈ nodes, n.block.number ∈ numbers) :
    ∑ number ∈ numbers, ((atNumber nodes number).map f).sum = (nodes.map f).sum := by
  induction nodes with
  | nil => simp [atNumber]
  | cons node rest ih =>
    have hs : ∀ number, ((atNumber (node :: rest) number).map f).sum =
        (if node.block.number = number then f node else 0) + ((atNumber rest number).map f).sum := by
      intro number
      by_cases hnu : node.block.number = number <;> simp [atNumber, hnu]
    rw [Finset.sum_congr rfl fun number _ => hs number, Finset.sum_add_distrib,
      ih fun n hn => h n (List.mem_cons_of_mem _ hn), Finset.sum_ite_eq,
      if_pos (h node List.mem_cons_self)]
    rfl

theorem Indexed.total_buckets {store : IndexedStore T} (h : store.Indexed)
    (f : KhaosNode T → Nat) :
    FMap.total (fun _ blocks => (blocks.map f).sum) store.byNumber =
      (store.insertionOrder.map f).sum := by
  have hb : ∀ number ∈ store.byNumber.keys,
      ((store.byNumber.lookup number).map fun blocks => (blocks.map f).sum).getD 0 =
        ((atNumber store.insertionOrder number).map f).sum := by
    intro number _
    rw [h.buckets, bucket]
    cases atNumber store.insertionOrder number <;> rfl
  rw [FMap.total_eq_sum_getD, Finset.sum_congr rfl hb, sum_atNumber]
  intro n hn
  rw [Finmap.mem_keys, ← Finmap.lookup_isSome, h.buckets, bucket, if_neg]
  · rfl
  · rw [List.isEmpty_iff]
    exact List.ne_nil_of_mem (mem_atNumber.mpr ⟨hn, rfl⟩)

/-- The five structures of the store agree. -/
structure Consistent (store : IndexedStore T) : Prop where
  entriesInBuckets : store.listEntries = store.byNumber.total fun _ blocks => blocks.length
  entriesInOrder : store.listEntries = store.insertionOrder.length
  bytesInBuckets : store.totalBytes = store.byNumber.total fun _ blocks =>
    (blocks.map KhaosStore.accountedBytes).sum
  bytesInOrder : store.totalBytes = (store.insertionOrder.map KhaosStore.accountedBytes).sum
  numbersOnce : store.numberOrder.Nodup
  numbers : ∀ number, number ∈ store.numberOrder ↔
    ∃ blocks, store.byNumber.lookup number = some blocks ∧ blocks ≠ []
  noEmptyBucket : ∀ number, store.byNumber.lookup number ≠ some []
  hashed : ∀ id n, store.byHash.lookup id = some n → n.block.id = id ∧
    ∃ blocks, store.byNumber.lookup n.block.number = some blocks ∧ n ∈ blocks
  bucketed : ∀ number blocks, store.byNumber.lookup number = some blocks →
    ∀ n ∈ blocks, (store.byHash.lookup n.block.id).isSome = true

/-- The store is within its limits. -/
def Within (store : IndexedStore T) : Prop :=
  store.listEntries ≤ store.maxEntries ∧ store.totalBytes ≤ store.maxBytes

/-- A store whose indexes agree and whose nodes are in order, all older than `bound`. -/
structure Good (numberOf : BlockId → Int) (bound : Nat) (store : IndexedStore T) : Prop where
  indexed : store.Indexed
  ordered : store.toStore.Ordered numberOf
  fresh : ∀ n ∈ store.insertionOrder, n.uid < bound

variable {numberOf : BlockId → Int} {bound : Nat} {store : IndexedStore T}

theorem Good.new : (IndexedStore.new : IndexedStore T).Good numberOf bound :=
  ⟨.new, .new, nofun⟩

theorem Good.succ (h : store.Good numberOf bound) : store.Good numberOf (bound + 1) :=
  ⟨h.indexed, h.ordered, fun n hn => (h.fresh n hn).trans (Nat.lt_succ_self _)⟩

theorem Good.limits (h : store.Good numberOf bound) (maxCapacity : Int) (maxEntries maxBytes : Nat) :
    ({ store with maxCapacity := maxCapacity, maxEntries := maxEntries, maxBytes := maxBytes } :
      IndexedStore T).Good numberOf bound :=
  ⟨⟨h.indexed.buckets, h.indexed.order, h.indexed.numbers, h.indexed.entries, h.indexed.bytes⟩,
    ⟨h.ordered.uids, h.ordered.newest, h.ordered.numbered⟩, h.fresh⟩

theorem Good.remove (h : store.Good numberOf bound) (id : BlockId) :
    (store.remove id).2.Good numberOf bound := by
  obtain ⟨hi, hs⟩ := h.indexed.remove h.ordered id
  have heq : (store.toStore.remove id).2 = (store.remove id).2.toStore := congrArg Prod.snd hs
  refine ⟨hi, heq ▸ h.ordered.remove id, fun n hn => h.fresh n ?_⟩
  have hn : n ∈ (store.remove id).2.toStore.entries := hn
  rw [← heq] at hn
  unfold KhaosStore.remove at hn
  split at hn
  · exact hn
  · exact (List.mem_filter.mp hn).1

/-- **An insertion** keeps a store good, and leaves it within its limits if it succeeds. -/
theorem Good.insertPinning (h : store.Good numberOf bound) (node : KhaosNode T)
    (hu : node.uid = bound) (hnu : node.block.number = numberOf node.block.id)
    (headNumber : Option Int) (pinned : Option (KhaosNode T))
    (hp : ∀ p, pinned = some p → store.byHash.lookup p.block.id = some p) :
    (IndexedStore.insertPinning node headNumber pinned store).2.Good numberOf (bound + 1) ∧
      ((IndexedStore.insertPinning node headNumber pinned store).1 = .ok () →
        (IndexedStore.insertPinning node headNumber pinned store).2.Within) := by
  have hf : ∀ n ∈ store.insertionOrder, n.uid ≠ node.uid := fun n hn =>
    hu ▸ (h.fresh n hn).ne
  obtain ⟨hi, hs⟩ := h.indexed.insertPinning h.ordered.uids node hf headNumber pinned
  have ho := h.ordered.insertPinning node hf hnu headNumber pinned hp
  rw [hs] at ho
  generalize IndexedStore.insertPinning node headNumber pinned store = run at hi ho ⊢
  obtain ⟨e | _, after⟩ := run
  · have heq : after.toStore = store.toStore := ho
    have he : after.insertionOrder = store.insertionOrder := congrArg KhaosStore.entries heq
    exact ⟨⟨hi, heq ▸ h.ordered, fun n hn =>
      (h.fresh n (he ▸ hn)).trans (Nat.lt_succ_self _)⟩, nofun⟩
  · obtain ⟨ha, victims, byHash, hc, heq⟩ := ho
    have he : after.insertionOrder =
      (store.insertionOrder.filter (KhaosStore.survives victims) ++ [node]).filter
        (store.toStore.survivesEvict headNumber) := congrArg KhaosStore.entries heq
    have hme : after.maxEntries = store.maxEntries := congrArg KhaosStore.maxEntries heq
    have hmb : after.maxBytes = store.maxBytes := congrArg KhaosStore.maxBytes heq
    refine ⟨⟨hi, ha, fun n hn => ?_⟩, fun _ => ?_⟩
    · rw [he] at hn
      rcases List.mem_append.mp (List.mem_filter.mp hn).1 with hn | hn
      · exact (h.fresh n (List.mem_filter.mp hn).1).trans (Nat.lt_succ_self _)
      · rw [List.mem_singleton.mp hn, hu]
        exact Nat.lt_succ_self _
    · obtain ⟨hr, hb⟩ := h.ordered.room hc
      have hr : (store.insertionOrder.filter (KhaosStore.survives victims)).length <
        store.maxEntries := hr
      have hb : size (store.insertionOrder.filter (KhaosStore.survives victims)) +
        KhaosStore.accountedBytes node ≤ store.maxBytes := hb
      have hsi : size (store.insertionOrder.filter (KhaosStore.survives victims) ++ [node]) =
          size (store.insertionOrder.filter (KhaosStore.survives victims)) +
            KhaosStore.accountedBytes node := by
        simp [size]
      have hl : (store.insertionOrder.filter (KhaosStore.survives victims) ++ [node]).length =
          (store.insertionOrder.filter (KhaosStore.survives victims)).length + 1 :=
        List.length_append
      rw [Within, hi.entries, hi.bytes, he, hme, hmb, length_filter,
        size_filter, hsi, hl]
      omega

theorem checkResourceLimit_error {incoming : Nat} {pinned : Option Nat} {e : KhaosError}
    (h : store.checkResourceLimit incoming pinned = .error e) :
    e = .resourceLimit "khaos store" store.maxBytes := by
  unfold IndexedStore.checkResourceLimit at h
  split at h
  · cases h
    rfl
  · split at h <;> cases h
    rfl

theorem insertPinning_error {node : KhaosNode T} {headNumber : Option Int}
    {pinned : Option (KhaosNode T)} {e : KhaosError} {after : IndexedStore T}
    (h : IndexedStore.insertPinning node headNumber pinned store = (.error e, after)) :
    ∃ maximum, e = .resourceLimit "khaos store" maximum := by
  unfold IndexedStore.insertPinning at h
  cases hr : store.checkResourceLimit (KhaosStore.accountedBytes node) (pinned.map (·.uid)) with
  | error e' =>
    rw [Prog.bind_of_error (evictForResourceLimit_of_error hr)] at h
    cases h
    exact ⟨_, checkResourceLimit_error hr⟩
  | ok _ =>
    rw [Prog.bind_of_ok (evictForResourceLimit_of_ok hr), Prog.bind_of_ok (Prog.get_run _)] at h
    generalize (store.victims (KhaosStore.accountedBytes node) (pinned.map (·.uid))
      store.insertionOrder store.listEntries store.totalBytes).foldl IndexedStore.evictEntry store =
        store₁ at h
    cases pinned with
    | none => cases headNumber <;> cases h
    | some parent =>
      dsimp only at h
      split at h
      · cases h
        exact ⟨_, rfl⟩
      · cases headNumber <;> cases h

theorem Good.consistent (h : store.Good numberOf bound) : store.Consistent where
  entriesInBuckets := by
    have hl : ∀ blocks : List (KhaosNode T), blocks.length = (blocks.map fun _ => 1).sum := by
      simp
    have ht := h.indexed.total_buckets fun _ => 1
    rw [← hl] at ht
    rw [h.indexed.entries, ← ht]
    exact congrArg (FMap.total · _) (funext fun _ => funext fun blocks => (hl blocks).symm)
  entriesInOrder := h.indexed.entries
  bytesInBuckets := by
    rw [h.indexed.bytes, h.indexed.total_buckets]
    rfl
  bytesInOrder := h.indexed.bytes
  numbersOnce := h.indexed.order
  numbers number := by
    rw [h.indexed.numbers, h.indexed.buckets]
    simp only [bucket_eq_some]
    constructor
    · exact fun hne => ⟨_, ⟨rfl, hne⟩, hne⟩
    · rintro ⟨blocks, ⟨-, hne⟩, -⟩
      exact hne
  noEmptyBucket number he := by
    rw [h.indexed.buckets, bucket_eq_some] at he
    exact he.2 he.1
  hashed id n hn := by
    obtain ⟨hm, hid⟩ := h.ordered.mem hn
    have hat : n ∈ atNumber store.insertionOrder n.block.number := mem_atNumber.mpr ⟨hm, rfl⟩
    refine ⟨hid, _, ?_, hat⟩
    rw [h.indexed.buckets, bucket_eq_some]
    exact ⟨rfl, List.ne_nil_of_mem hat⟩
  bucketed number blocks hb n hn := by
    rw [h.indexed.buckets, bucket_eq_some] at hb
    rw [← hb.1] at hn
    exact h.ordered.isSome_lookup.mpr ⟨n, (mem_atNumber.mp hn).1, rfl⟩

end IndexedStore

namespace IndexedDatabase

/-- Both stores are good. -/
structure Good (numberOf : BlockId → Int) (db : IndexedDatabase T) : Prop where
  linked : db.linked.Good numberOf db.nextUid
  unlinked : db.unlinked.Good numberOf db.nextUid

variable {numberOf : BlockId → Int} {db : IndexedDatabase T}

theorem Good.new : (IndexedDatabase.new : IndexedDatabase T).Good numberOf := ⟨.new, .new⟩

theorem Good.setLimits (h : db.Good numberOf) (limits : KhaosLimits) :
    (db.setLimits limits).Good numberOf :=
  ⟨h.linked.limits _ _ _, h.unlinked.limits _ _ _⟩

theorem Good.setMaxSize (h : db.Good numberOf) (maxSize : Int) :
    (db.setMaxSize maxSize).Good numberOf :=
  ⟨h.linked.limits _ _ _, h.unlinked.limits _ _ _⟩

theorem Good.setHead (h : db.Good numberOf) (id : BlockId) :
    (IndexedDatabase.setHead id db).2.Good numberOf := by
  unfold IndexedDatabase.setHead
  split
  · exact h
  · exact ⟨h.linked, h.unlinked⟩

theorem Good.pop (h : db.Good numberOf) : db.pop.2.Good numberOf := by
  unfold IndexedDatabase.pop
  split
  · exact h
  · exact ⟨h.linked, h.unlinked⟩

theorem Good.removeBlk (h : db.Good numberOf) (id : BlockId) :
    (IndexedDatabase.removeBlk id db).2.Good numberOf := by
  have hl := h.linked.remove id
  unfold IndexedDatabase.removeBlk
  rcases hru : db.linked.remove id with ⟨_ | _, linked⟩
  · have hr : ({ db with unlinked := (db.unlinked.remove id).2 } : IndexedDatabase T).Good
        numberOf := ⟨h.linked, h.unlinked.remove id⟩
    dsimp only
    split
    · exact hr
    · exact ⟨hr.linked, hr.unlinked⟩
  · rw [hru] at hl
    have hr : ({ db with linked := linked } : IndexedDatabase T).Good numberOf := ⟨hl, h.unlinked⟩
    dsimp only
    split
    · exact hr
    · exact ⟨hr.linked, hr.unlinked⟩

/-- **A block that starts the graph**: the stores stay good, and the linked one is within its limits
if it takes the block. -/
theorem Good.start (h : db.Good numberOf) {block : KhaosBlockData T}
    (hn : block.number = numberOf block.id) :
    (IndexedDatabase.start block db).2.Good numberOf ∧
      ((IndexedDatabase.start block db).1 = .ok () →
        (IndexedDatabase.start block db).2.linked.Within) := by
  have hi := h.linked.insertPinning ⟨block, db.nextUid, none⟩ rfl hn
    (some block.number) none fun p hp => by cases hp
  unfold IndexedDatabase.start
  rw [Prog.bind_of_ok (Prog.get_run db)]
  rcases hr : IndexedStore.insertPinning ⟨block, db.nextUid, none⟩ (some block.number) none
    db.linked with ⟨e | _, store⟩ <;> rw [hr] at hi <;>
    simp only [Prog.bind_run, Prog.modify_run, Prog.zoom, hr]
  · exact ⟨⟨hi.1, h.unlinked.succ⟩, fun hok => by cases hok⟩
  · exact ⟨⟨hi.1, h.unlinked.succ⟩, fun _ => hi.2 rfl⟩

theorem Good.pushLinked (h : db.Good numberOf) {block : KhaosBlockData T}
    (hn : block.number = numberOf block.id) (parent : Option (KhaosNode T))
    (hp : ∀ p, parent = some p → db.linked.byHash.lookup p.block.id = some p) :
    (IndexedDatabase.pushLinked block parent db).2.Good numberOf ∧
      ((IndexedDatabase.pushLinked block parent db).1 = .ok () →
        (IndexedDatabase.pushLinked block parent db).2.linked.Within) ∧
      ∀ id parentId, (IndexedDatabase.pushLinked block parent db).1 ≠
        .error (.unlinkedBlock id parentId) := by
  have hi := h.linked.insertPinning ⟨block, db.nextUid, parent.map (·.uid)⟩ rfl hn
    (db.getHead.map (·.number)) parent hp
  unfold IndexedDatabase.pushLinked
  rw [Prog.bind_of_ok (Prog.get_run db)]
  rcases hr : IndexedStore.insertPinning ⟨block, db.nextUid, parent.map (·.uid)⟩
    (db.getHead.map (·.number)) parent db.linked with ⟨e | _, store⟩ <;> rw [hr] at hi <;>
    simp only [Prog.bind_run, Prog.modify_run, Prog.zoom, hr]
  · refine ⟨⟨hi.1, h.unlinked.succ⟩, (fun hok => by cases hok), fun id parentId heq => ?_⟩
    obtain ⟨maximum, rfl⟩ := IndexedStore.insertPinning_error hr
    cases heq
  · refine ⟨?_, fun _ => ?_, fun _ _ heq => by cases heq⟩
    · split
      · exact ⟨hi.1, h.unlinked.succ⟩
      · exact ⟨hi.1, h.unlinked.succ⟩
    · split
      · exact hi.2 rfl
      · exact hi.2 rfl

/-- **A pushed block**: the stores stay good, and the one that takes the block is within its limits,
also where the block is refused as unlinked. -/
theorem Good.push (h : db.Good numberOf) {block : KhaosBlockData T}
    (hn : block.number = numberOf block.id) :
    (IndexedDatabase.push block db).2.Good numberOf ∧
      ((IndexedDatabase.push block db).1 = .ok () →
        (IndexedDatabase.push block db).2.linked.Within) ∧
      ∀ id parentId, (IndexedDatabase.push block db).1 = .error (.unlinkedBlock id parentId) →
        (IndexedDatabase.push block db).2.unlinked.Within := by
  unfold IndexedDatabase.push
  rw [Prog.bind_of_ok (Prog.get_run db)]
  by_cases hr : (db.head.isSome && block.parentId ≠ Hash32.zero) = true
  · rw [if_pos hr]
    cases hpa : db.linked.getByHash block.parentId with
    | none =>
      have hi := h.unlinked.insertPinning ⟨block, db.nextUid, none⟩ rfl hn
        (db.getHead.map (·.number)) none fun p hp => by cases hp
      dsimp only
      rcases hru : IndexedStore.insertPinning ⟨block, db.nextUid, none⟩
        (db.getHead.map (·.number)) none db.unlinked with ⟨e | _, store⟩ <;>
        rw [hru] at hi <;>
        simp only [Prog.bind_run, Prog.modify_run, Prog.zoom, hru, Prog.throw_run]
      · refine ⟨⟨h.linked.succ, hi.1⟩, (fun hok => by cases hok), fun id parentId heq => ?_⟩
        obtain ⟨maximum, rfl⟩ := IndexedStore.insertPinning_error hru
        cases heq
      · exact ⟨⟨h.linked.succ, hi.1⟩, (fun hok => by cases hok), fun _ _ _ => hi.2 rfl⟩
    | some parent =>
      dsimp only
      by_cases hb : block.number ≠ parent.block.number + 1
      · rw [if_pos hb]
        exact ⟨h, (fun hok => by cases hok), fun _ _ heq => by cases heq⟩
      · rw [if_neg hb]
        obtain ⟨hg, hw, hno⟩ := h.pushLinked hn (some parent) fun p hp => by
          cases hp
          rw [(h.linked.ordered.mem hpa).2]
          exact hpa
        exact ⟨hg, hw, fun id parentId heq => absurd heq (hno id parentId)⟩
  · rw [if_neg hr]
    obtain ⟨hg, hw, hno⟩ := h.pushLinked hn none fun p hp => by cases hp
    exact ⟨hg, hw, fun id parentId heq => absurd heq (hno id parentId)⟩

/-! ## Runs -/

/-- The graphs that the operations reach, with blocks whose id determines their number. -/
inductive Runs (numberOf : BlockId → Int) : IndexedDatabase T → Prop where
  | new : Runs numberOf new
  | start {db : IndexedDatabase T} {block : KhaosBlockData T} : Runs numberOf db →
      block.number = numberOf block.id → Runs numberOf (start block db).2
  | push {db : IndexedDatabase T} {block : KhaosBlockData T} : Runs numberOf db →
      block.number = numberOf block.id → Runs numberOf (push block db).2
  | removeBlk {db : IndexedDatabase T} (id : BlockId) :
      Runs numberOf db → Runs numberOf (removeBlk id db).2
  | pop {db : IndexedDatabase T} : Runs numberOf db → Runs numberOf db.pop.2
  | setHead {db : IndexedDatabase T} (id : BlockId) :
      Runs numberOf db → Runs numberOf (setHead id db).2
  | setLimits {db : IndexedDatabase T} (limits : KhaosLimits) :
      Runs numberOf db → Runs numberOf (db.setLimits limits)
  | setMaxSize {db : IndexedDatabase T} (maxSize : Int) :
      Runs numberOf db → Runs numberOf (db.setMaxSize maxSize)

theorem Runs.good (h : Runs numberOf db) : db.Good numberOf := by
  induction h with
  | new => exact .new
  | start _ hn ih => exact (ih.start hn).1
  | push _ hn ih => exact (ih.push hn).1
  | removeBlk id _ ih => exact ih.removeBlk id
  | pop _ ih => exact ih.pop
  | setHead id _ ih => exact ih.setHead id
  | setLimits limits _ ih => exact ih.setLimits limits
  | setMaxSize maxSize _ ih => exact ih.setMaxSize maxSize

/-- **The indexes agree** in every graph that the operations reach, and after an insertion the store
that took the block is within its limits. -/
theorem indexes_agree (h : Runs numberOf db) :
    db.linked.Consistent ∧ db.unlinked.Consistent ∧
    ∀ block : KhaosBlockData T, block.number = numberOf block.id →
      ((start block db).1 = .ok () → (start block db).2.linked.Within) ∧
      ((push block db).1 = .ok () → (push block db).2.linked.Within) ∧
      ∀ id parentId, (push block db).1 = .error (.unlinkedBlock id parentId) →
        (push block db).2.unlinked.Within := by
  refine ⟨h.good.linked.consistent, h.good.unlinked.consistent, fun block hnumber => ?_⟩
  exact ⟨(h.good.start hnumber).2, (h.good.push hnumber).2⟩

/-- A graph with room for two blocks, in which a child of the first block is pushed twice. -/
def sampleTwice : IndexedDatabase UInt8 :=
  (push (KhaosDatabase.sampleChild 1) (push (KhaosDatabase.sampleChild 1)
    (start (KhaosDatabase.sampleBlock 0 9 .zero) (new.setLimits ⟨2, 1000, 2, 1000⟩)).2).2).2

/-- The second push of the child takes the place of the first, and the first block goes for a child
of the child. -/
theorem indexes_agree_sample :
    sampleTwice.linked.Consistent ∧ sampleTwice.linked.insertionOrder.length = 2 ∧
      (push (KhaosDatabase.sampleGrandchild 2) sampleTwice).2.linked.Within ∧
      (push (KhaosDatabase.sampleGrandchild 2) sampleTwice).2.linked.byHash.lookup
        (KhaosDatabase.sampleBlock 0 9 .zero).id = none := by
  have hruns : Runs BlockId.height sampleTwice :=
    .push (.push (.start (.setLimits _ .new) (by decide)) (by decide)) (by decide)
  obtain ⟨hlinked, -, hwithin⟩ := indexes_agree hruns
  exact ⟨hlinked, by decide +kernel, (hwithin (KhaosDatabase.sampleGrandchild 2) (by decide)).2.1
    (by rfl), by decide +kernel⟩

end IndexedDatabase

end RustTron.State
