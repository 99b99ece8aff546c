import RustTron.State.Khaos.Indexed
import Mathlib

/-!
# The indexes of a store agree

The buckets, the numbers in use and the counters of a store are functions of its list of nodes, and
every operation keeps them so. With them out of the way an operation does to the list and the hash
index what `KhaosStore` says.

## Main definitions

* `IndexedStore.Indexed`: the redundant indexes are those of the list

## Main results

* `IndexedStore.Indexed.keep`: taking nodes out of one bucket
* `IndexedStore.Indexed.remove`, `evict`, `insertPinning`: the operations keep the indexes, and
  refine those of `KhaosStore`
-/

namespace RustTron.State

namespace IndexedStore

variable {T : Type}

/-- The nodes of one number, oldest first. -/
def atNumber (nodes : List (KhaosNode T)) (number : Int) : List (KhaosNode T) :=
  nodes.filter fun n => n.block.number = number

/-- The bucket that holds these nodes: none, where there are none. -/
def bucket (nodes : List (KhaosNode T)) : Option (List (KhaosNode T)) :=
  if nodes.isEmpty then none else some nodes

theorem mem_atNumber {nodes : List (KhaosNode T)} {number : Int} {n : KhaosNode T} :
    n ∈ atNumber nodes number ↔ n ∈ nodes ∧ n.block.number = number := by
  rw [atNumber, List.mem_filter, decide_eq_true_iff]

theorem bucket_eq_some {nodes blocks : List (KhaosNode T)} :
    bucket nodes = some blocks ↔ nodes = blocks ∧ nodes ≠ [] := by
  unfold bucket
  cases nodes <;> simp

theorem bucket_getD (nodes : List (KhaosNode T)) : (bucket nodes).getD [] = nodes := by
  unfold bucket
  cases nodes <;> rfl

theorem atNumber_concat (nodes : List (KhaosNode T)) (node : KhaosNode T) (number : Int) :
    atNumber (nodes ++ [node]) number =
      atNumber nodes number ++ if node.block.number = number then [node] else [] := by
  rw [atNumber, List.filter_append, atNumber, List.filter_singleton]
  simp

theorem atNumber_filter (nodes : List (KhaosNode T)) (keep : KhaosNode T → Bool) (number : Int) :
    atNumber (nodes.filter keep) number = (atNumber nodes number).filter keep := by
  rw [atNumber, atNumber, List.filter_filter, List.filter_filter]
  exact List.filter_congr fun _ _ => Bool.and_comm _ _

section PutBucket

variable (store : IndexedStore T) (number : Int) (blocks : List (KhaosNode T))

theorem putBucket_lookup (other : Int) : (store.putBucket number blocks).byNumber.lookup other =
    if other = number then bucket blocks else store.byNumber.lookup other := by
  unfold putBucket bucket
  by_cases ho : other = number
  · subst ho
    split <;> simp
  · split <;> simp [ho]

theorem putBucket_numberOrder : (store.putBucket number blocks).numberOrder =
    if blocks.isEmpty then store.numberOrder.filter fun candidate => candidate ≠ number
    else store.numberOrder := by
  unfold putBucket
  split <;> rfl

theorem putBucket_eq : ∃ byNumber numberOrder, store.putBucket number blocks =
    { store with byNumber := byNumber, numberOrder := numberOrder } := by
  unfold putBucket
  split <;> exact ⟨_, _, rfl⟩

end PutBucket

variable [RetainedSize T]
variable {store : IndexedStore T} {nodes : List (KhaosNode T)}

/-- The accounted size of some nodes. -/
def size (nodes : List (KhaosNode T)) : Nat := (nodes.map KhaosStore.accountedBytes).sum

/-- The redundant indexes are those of the list. -/
structure Indexed (store : IndexedStore T) : Prop where
  buckets : ∀ number, store.byNumber.lookup number = bucket (atNumber store.insertionOrder number)
  order : store.numberOrder.Nodup
  numbers : ∀ number, number ∈ store.numberOrder ↔ atNumber store.insertionOrder number ≠ []
  entries : store.listEntries = store.insertionOrder.length
  bytes : store.totalBytes = size store.insertionOrder

theorem size_filter (nodes : List (KhaosNode T)) (keep : KhaosNode T → Bool) :
    size (nodes.filter keep) = size nodes - size (nodes.filter fun n => ! keep n) := by
  have hp := ((List.filter_append_perm keep nodes).map KhaosStore.accountedBytes).sum_eq
  rw [List.map_append, List.sum_append] at hp
  unfold size
  omega

omit [RetainedSize T] in
theorem length_filter (nodes : List (KhaosNode T)) (keep : KhaosNode T → Bool) :
    (nodes.filter keep).length = nodes.length - (nodes.filter fun n => ! keep n).length := by
  have hp := (List.filter_append_perm keep nodes).length_eq
  rw [List.length_append] at hp
  omega

omit [RetainedSize T] in
theorem filter_gone {keep : KhaosNode T → Bool} {number : Int}
    (ho : ∀ n ∈ nodes, keep n = false → n.block.number = number) :
    (nodes.filter fun n => ! keep n) = (atNumber nodes number).filter fun n => ! keep n := by
  rw [atNumber, List.filter_filter]
  refine List.filter_congr fun n hn => ?_
  cases hk : keep n with
  | true => rfl
  | false => simp [ho n hn hk]

omit [RetainedSize T] in
theorem filter_other {keep : KhaosNode T → Bool} {number : Int}
    (ho : ∀ n ∈ nodes, keep n = false → n.block.number = number) {other : Int}
    (hne : other ≠ number) : (atNumber nodes other).filter keep = atNumber nodes other := by
  refine List.filter_eq_self.mpr fun n hn => ?_
  obtain ⟨hm, hnu⟩ := mem_atNumber.mp hn
  cases hk : keep n with
  | true => rfl
  | false => exact absurd (hnu.symm.trans (ho n hm hk)) hne

/-- **Taking nodes out of one bucket**: what is left of the bucket is put back, and the counters go
down by what went. -/
theorem Indexed.keep (h : store.Indexed) (number : Int) (keep : KhaosNode T → Bool)
    (ho : ∀ n ∈ store.insertionOrder, keep n = false → n.block.number = number)
    (gone : List (KhaosNode T))
    (hg : gone = (atNumber store.insertionOrder number).filter fun n => ! keep n)
    (byHash : FMap BlockId (KhaosNode T)) :
    ({ store.putBucket number ((atNumber store.insertionOrder number).filter keep) with
      insertionOrder := store.insertionOrder.filter keep
      listEntries := store.listEntries - gone.length
      totalBytes := store.totalBytes - size gone
      byHash := byHash } : IndexedStore T).Indexed where
  buckets other := by
    dsimp only
    rw [putBucket_lookup, atNumber_filter]
    split
    · rename_i heq
      rw [heq]
    · rename_i hne
      rw [h.buckets, filter_other ho hne]
  order := by
    dsimp only
    rw [putBucket_numberOrder]
    split
    · exact h.order.filter _
    · exact h.order
  numbers other := by
    dsimp only
    rw [putBucket_numberOrder, atNumber_filter]
    by_cases hne : other = number
    · subst hne
      cases hl : (atNumber store.insertionOrder other).filter keep with
      | nil => simp
      | cons first rest =>
        -- the number was in use before
        have hm : first ∈ (atNumber store.insertionOrder other).filter keep :=
          hl ▸ List.mem_cons_self
        simp [h.numbers, List.ne_nil_of_mem (List.mem_filter.mp hm).1]
    · rw [filter_other ho hne, ← h.numbers]
      split
      · simp [List.mem_filter, hne]
      · rfl
  entries := by
    dsimp only
    rw [length_filter, h.entries, hg, filter_gone ho]
  bytes := by
    dsimp only
    rw [size_filter, h.bytes, hg, filter_gone ho]

/-! ## The operations -/

theorem Indexed.new : (IndexedStore.new : IndexedStore T).Indexed :=
  ⟨fun _ => rfl, List.nodup_nil, fun _ => ⟨nofun, fun h => absurd rfl h⟩, rfl, rfl⟩

theorem Indexed.add (h : store.Indexed) (node : KhaosNode T) :
    (store.add node).Indexed where
  buckets number := by
    unfold IndexedStore.add
    dsimp only
    rw [h.buckets, bucket_getD, atNumber_concat]
    by_cases hn : number = node.block.number
    · subst hn
      simp [bucket]
    · rw [Finmap.lookup_insert_of_ne _ hn, h.buckets, if_neg (Ne.symm hn), List.append_nil]
  order := by
    unfold IndexedStore.add
    dsimp only
    split
    · rename_i hne
      refine List.nodup_append.mpr ⟨h.order, List.nodup_singleton _, ?_⟩
      intro number hn other ho heq
      rw [List.mem_singleton] at ho
      rw [heq, ho, h.numbers] at hn
      rw [h.buckets, Option.isNone_iff_eq_none] at hne
      unfold bucket at hne
      simp_all
    · exact h.order
  numbers number := by
    unfold IndexedStore.add
    dsimp only
    rw [atNumber_concat]
    by_cases hn : number = node.block.number
    · subst hn
      have hin := h.numbers node.block.number
      rw [h.buckets]
      unfold bucket
      split <;> simp_all
    · rw [if_neg (Ne.symm hn), List.append_nil, ← h.numbers]
      split
      · simp [hn]
      · rfl
  entries := by
    unfold IndexedStore.add
    simp [h.entries]
  bytes := by
    unfold IndexedStore.add
    simp [h.bytes, size]

/-- **A removal** keeps the indexes, and does what `KhaosStore.remove` does. -/
theorem Indexed.remove {numberOf : BlockId → Int} (h : store.Indexed)
    (ho : store.toStore.Ordered numberOf) (id : BlockId) :
    (store.remove id).2.Indexed ∧
      store.toStore.remove id = ((store.remove id).1, (store.remove id).2.toStore) := by
  unfold IndexedStore.remove KhaosStore.remove
  have hl : store.toStore.byHash.lookup id = store.byHash.lookup id := rfl
  rw [hl]
  cases hbl : store.byHash.lookup id with
  | none => exact ⟨h, rfl⟩
  | some block =>
    dsimp only
    obtain ⟨hm, rfl⟩ := ho.mem hbl
    have hb : store.byNumber.lookup block.block.number =
        some (atNumber store.insertionOrder block.block.number) := by
      rw [h.buckets, bucket_eq_some]
      exact ⟨rfl, List.ne_nil_of_mem (mem_atNumber.mpr ⟨hm, rfl⟩)⟩
    simp only [hb, Option.getD_some]
    -- in the bucket of the block, what goes are the nodes of its id
    have hke : ∀ n ∈ atNumber store.insertionOrder block.block.number,
        (n.block.id ≠ block.block.id || n.block.number ≠ block.block.number : Bool) =
          decide (n.block.id ≠ block.block.id) := by
      intro n hn
      simp [(mem_atNumber.mp hn).2]
    have hk := h.keep block.block.number
      (fun n => n.block.id ≠ block.block.id || n.block.number ≠ block.block.number) (by simp)
      ((atNumber store.insertionOrder block.block.number).filter fun n =>
        n.block.id = block.block.id)
      (List.filter_congr fun n hn => by rw [hke n hn]; simp) (store.byHash.erase block.block.id)
    rw [List.filter_congr hke] at hk
    obtain ⟨byNumber, numberOrder, hp⟩ := store.putBucket_eq block.block.number
      ((atNumber store.insertionOrder block.block.number).filter fun n =>
        decide (n.block.id ≠ block.block.id))
    rw [hp] at hk ⊢
    exact ⟨hk, rfl⟩

/-- The nodes of the list are told apart by their identities. -/
def Distinct (nodes : List (KhaosNode T)) : Prop := (nodes.map (·.uid)).Nodup

omit [RetainedSize T] in
theorem Distinct.filter (h : Distinct nodes) (keep : KhaosNode T → Bool) :
    Distinct (nodes.filter keep) :=
  h.sublist (List.filter_sublist.map _)

omit [RetainedSize T] in
theorem Distinct.concat (h : Distinct nodes) {node : KhaosNode T}
    (hf : ∀ n ∈ nodes, n.uid ≠ node.uid) : Distinct (nodes ++ [node]) := by
  rw [Distinct, List.map_append, List.nodup_append]
  refine ⟨h, List.nodup_singleton _, ?_⟩
  intro uid hu other ho heq
  obtain ⟨n, hn, rfl⟩ := List.mem_map.mp hu
  rw [List.map_singleton, List.mem_singleton] at ho
  exact hf n hn (heq.trans ho)

omit [RetainedSize T] in
theorem Distinct.eq_of_uid (h : Distinct nodes) {n m : KhaosNode T} (hn : n ∈ nodes)
    (hm : m ∈ nodes) (hu : n.uid = m.uid) : n = m :=
  List.inj_on_of_nodup_map h hn hm hu

omit [RetainedSize T] in
theorem Distinct.eraseP (h : Distinct nodes) (uid : Nat) :
    nodes.eraseP (fun n => n.uid = uid) = nodes.filter fun n => n.uid ≠ uid := by
  induction nodes with
  | nil => rfl
  | cons node rest ih =>
    rw [Distinct, List.map_cons, List.nodup_cons] at h
    by_cases hu : node.uid = uid
    · subst hu
      rw [List.eraseP_cons_of_pos (by simp), List.filter_cons_of_neg (by simp)]
      refine (List.filter_eq_self.mpr fun n hn => ?_).symm
      simp only [decide_eq_true_eq]
      exact fun heq => h.1 (heq ▸ List.mem_map_of_mem hn)
    · rw [List.eraseP_cons_of_neg (by simpa using hu),
        List.filter_cons_of_pos (by simpa using hu), ih h.2]

omit [RetainedSize T] in
theorem Distinct.find? (h : Distinct nodes) {victim : KhaosNode T} (hm : victim ∈ nodes) :
    nodes.find? (fun n => n.uid = victim.uid) = some victim := by
  cases hf : nodes.find? fun n => n.uid = victim.uid with
  | none =>
    have hn := List.find?_eq_none.mp hf victim hm
    simp at hn
  | some n =>
    have hu : n.uid = victim.uid := by simpa using List.find?_some hf
    rw [h.eq_of_uid (List.mem_of_find?_eq_some hf) hm hu]

omit [RetainedSize T] in
theorem Distinct.filter_uid (h : Distinct nodes) {victim : KhaosNode T} (hm : victim ∈ nodes) :
    nodes.filter (fun n => n.uid = victim.uid) = [victim] := by
  induction nodes with
  | nil => cases hm
  | cons node rest ih =>
    rw [Distinct, List.map_cons, List.nodup_cons] at h
    rcases List.mem_cons.mp hm with rfl | hr
    · rw [List.filter_cons_of_pos (by simp), List.cons.injEq, List.filter_eq_nil_iff]
      refine ⟨rfl, fun n hn hu => h.1 ?_⟩
      rw [← of_decide_eq_true hu]
      exact List.mem_map_of_mem hn
    · rw [List.filter_cons_of_neg, ih h.2 hr]
      intro hu
      rw [of_decide_eq_true hu] at h
      exact h.1 (List.mem_map_of_mem hr)

/-- **One eviction** of a node of the store does what `KhaosStore.evictEntry` does. -/
theorem Indexed.evictEntry (h : store.Indexed) (hd : Distinct store.insertionOrder)
    {victim : KhaosNode T} (hm : victim ∈ store.insertionOrder) :
    (store.evictEntry victim).Indexed ∧
      (store.evictEntry victim).toStore = store.toStore.evictEntry victim := by
  have hat : victim ∈ atNumber store.insertionOrder victim.block.number :=
    mem_atNumber.mpr ⟨hm, rfl⟩
  have hb : store.byNumber.lookup victim.block.number =
      some (atNumber store.insertionOrder victim.block.number) := by
    rw [h.buckets, bucket_eq_some]
    exact ⟨rfl, List.ne_nil_of_mem hat⟩
  have ht : (store.toStore.entries.any fun n => n.uid = victim.uid) = true :=
    List.any_eq_true.mpr ⟨victim, hm, by simp⟩
  have hbd : Distinct (atNumber store.insertionOrder victim.block.number) :=
    hd.filter _
  have hg : [victim] = (atNumber store.insertionOrder victim.block.number).filter
      (fun n => ! decide (n.uid ≠ victim.uid)) := by
    rw [← hbd.filter_uid hat]
    simp
  have hk := h.keep victim.block.number (fun n => n.uid ≠ victim.uid)
    (fun n hn hu => by rw [hd.eq_of_uid hn hm (by simpa using hu)]) [victim] hg
    (if (store.byHash.lookup victim.block.id).any (fun n => n.uid = victim.uid) then
      store.byHash.erase victim.block.id else store.byHash)
  unfold IndexedStore.evictEntry KhaosStore.evictEntry
  rw [if_pos ht]
  simp only [hb, hbd.find? hat, hbd.eraseP]
  obtain ⟨byNumber, numberOrder, hp⟩ := store.putBucket_eq victim.block.number
    ((atNumber store.insertionOrder victim.block.number).filter fun n =>
      decide (n.uid ≠ victim.uid))
  rw [hp] at hk ⊢
  exact ⟨hk, rfl⟩

theorem Indexed.evictAll (h : store.Indexed) (hd : Distinct store.insertionOrder)
    {victims : List (KhaosNode T)} (hm : ∀ victim ∈ victims, victim ∈ store.insertionOrder)
    (hvi : Distinct victims) :
    (victims.foldl IndexedStore.evictEntry store).Indexed ∧
      (victims.foldl IndexedStore.evictEntry store).toStore =
        victims.foldl KhaosStore.evictEntry store.toStore := by
  induction victims generalizing store with
  | nil => exact ⟨h, rfl⟩
  | cons victim rest ih =>
    rw [Distinct, List.map_cons, List.nodup_cons] at hvi
    obtain ⟨hi, hs⟩ := h.evictEntry hd (hm victim List.mem_cons_self)
    have hl : (store.evictEntry victim).insertionOrder =
        store.insertionOrder.filter fun n => n.uid ≠ victim.uid :=
      (congrArg KhaosStore.entries hs).trans (KhaosStore.evictEntry_entries victim)
    rw [List.foldl_cons, List.foldl_cons, ← hs]
    refine ih hi ?_ (fun v hv => ?_) hvi.2
    · rw [hl]
      exact hd.filter _
    · rw [hl, List.mem_filter]
      refine ⟨hm v (List.mem_cons_of_mem _ hv), ?_⟩
      simp only [decide_eq_true_eq]
      exact fun hu => hvi.1 (hu ▸ List.mem_map_of_mem hv)

theorem foldl_evictBlock (blocks : List (KhaosNode T)) (store : IndexedStore T) :
    blocks.foldl evictBlock store = { store with
      listEntries := store.listEntries - blocks.length
      totalBytes := store.totalBytes - size blocks
      insertionOrder := store.insertionOrder.filter (KhaosStore.survives blocks)
      byHash := blocks.foldl (fun m n => m.erase n.block.id) store.byHash } := by
  induction blocks generalizing store with
  | nil =>
    have ha : store.insertionOrder.filter (KhaosStore.survives []) = store.insertionOrder :=
      List.filter_eq_self.mpr fun _ _ => rfl
    rw [ha]
    rfl
  | cons block rest ih =>
    rw [List.foldl_cons, ih]
    unfold evictBlock
    simp only [List.filter_filter, Nat.sub_sub, List.length_cons, size, List.map_cons,
      List.sum_cons, List.foldl_cons, Nat.add_comm rest.length 1]
    congr 1
    refine List.filter_congr fun n _ => ?_
    simp [KhaosStore.survives, Bool.and_comm]

/-- **One expired bucket** goes whole, with the index entries of its blocks. -/
theorem Indexed.evictNumberBucket (h : store.Indexed) (hd : Distinct store.insertionOrder)
    {number : Int} (hm : number ∈ store.numberOrder) :
    (store.evictNumberBucket number).Indexed ∧
      (store.evictNumberBucket number).toStore = { store.toStore with
        entries := store.insertionOrder.filter fun n => n.block.number ≠ number
        byHash := (atNumber store.insertionOrder number).foldl (fun m n => m.erase n.block.id)
          store.byHash } ∧
      (store.evictNumberBucket number).numberOrder =
        store.numberOrder.filter fun candidate => candidate ≠ number := by
  have hb : store.byNumber.lookup number = some (atNumber store.insertionOrder number) := by
    rw [h.buckets, bucket_eq_some]
    exact ⟨rfl, (h.numbers number).mp hm⟩
  have hs : store.insertionOrder.filter
      (KhaosStore.survives (atNumber store.insertionOrder number)) =
        store.insertionOrder.filter fun n => n.block.number ≠ number := by
    refine List.filter_congr fun n hn => ?_
    rw [KhaosStore.survives, Bool.eq_iff_iff, List.all_eq_true, decide_eq_true_iff]
    constructor
    · intro ha hnu
      exact absurd rfl (of_decide_eq_true (ha n (mem_atNumber.mpr ⟨hn, hnu⟩)))
    · intro hnu victim hvi
      obtain ⟨hv, hvn⟩ := mem_atNumber.mp hvi
      rw [decide_eq_true_iff]
      intro hu
      rw [hd.eq_of_uid hn hv hu] at hnu
      exact hnu hvn
  have hl : (atNumber store.insertionOrder number).filter
      (fun n => decide (n.block.number ≠ number)) = [] := by
    rw [List.filter_eq_nil_iff]
    intro n hn
    simp [(mem_atNumber.mp hn).2]
  have hg : atNumber store.insertionOrder number =
      (atNumber store.insertionOrder number).filter
        (fun n => ! decide (n.block.number ≠ number)) := by
    refine (List.filter_eq_self.mpr fun n hn => ?_).symm
    simp [(mem_atNumber.mp hn).2]
  have hk := h.keep number (fun n => n.block.number ≠ number)
    (fun n _ hnu => by simpa using hnu) (atNumber store.insertionOrder number) hg
    ((atNumber store.insertionOrder number).foldl (fun m n => m.erase n.block.id) store.byHash)
  rw [hl] at hk
  unfold IndexedStore.evictNumberBucket
  simp only [hb, foldl_evictBlock, hs]
  exact ⟨hk, rfl, trivial⟩

omit [RetainedSize T] in
theorem foldl_erase_congr {first second : List (KhaosNode T)} (h : ∀ n, n ∈ first ↔ n ∈ second)
    (m : FMap BlockId (KhaosNode T)) :
    first.foldl (fun m n => m.erase n.block.id) m =
      second.foldl (fun m n => m.erase n.block.id) m := by
  refine Finmap.ext_lookup fun id => ?_
  by_cases hid : ∃ n ∈ first, n.block.id = id
  · obtain ⟨n, hn, hid⟩ := hid
    rw [KhaosStore.lookup_foldl_erase_of_mem ⟨n, hn, hid⟩,
      KhaosStore.lookup_foldl_erase_of_mem ⟨n, (h n).mp hn, hid⟩]
  · rw [KhaosStore.lookup_foldl_erase _ _ fun n hn heq => hid ⟨n, hn, heq⟩,
      KhaosStore.lookup_foldl_erase _ _ fun n hn heq => hid ⟨n, (h n).mpr hn, heq⟩]

theorem Indexed.evictBuckets (h : store.Indexed) (hd : Distinct store.insertionOrder)
    {expired : List Int} (hno : expired.Nodup) (hm : ∀ number ∈ expired, number ∈ store.numberOrder) :
    (expired.foldl IndexedStore.evictNumberBucket store).Indexed ∧
      (expired.foldl IndexedStore.evictNumberBucket store).toStore = { store.toStore with
        entries := store.insertionOrder.filter fun n => n.block.number ∉ expired
        byHash := (expired.flatMap (atNumber store.insertionOrder)).foldl
          (fun m n => m.erase n.block.id) store.byHash } := by
  induction expired generalizing store with
  | nil =>
    refine ⟨h, ?_⟩
    have ha : (store.insertionOrder.filter fun n => n.block.number ∉ ([] : List Int)) =
        store.insertionOrder := List.filter_eq_self.mpr fun _ _ => by simp
    rw [ha]
    rfl
  | cons number rest ih =>
    rw [List.nodup_cons] at hno
    obtain ⟨hi, hs, hor⟩ :=
      h.evictNumberBucket hd (hm number List.mem_cons_self)
    have hl : (store.evictNumberBucket number).insertionOrder =
        store.insertionOrder.filter fun n => n.block.number ≠ number :=
      congrArg KhaosStore.entries hs
    have hin : (store.evictNumberBucket number).byHash =
        (atNumber store.insertionOrder number).foldl (fun m n => m.erase n.block.id)
          store.byHash := congrArg KhaosStore.byHash hs
    -- the buckets of the other numbers are still whole
    have hr : rest.flatMap (atNumber (store.evictNumberBucket number).insertionOrder) =
        rest.flatMap (atNumber store.insertionOrder) := by
      refine List.flatMap_congr fun other ho => ?_
      rw [hl, atNumber_filter]
      refine List.filter_eq_self.mpr fun n hn => ?_
      simp only [(mem_atNumber.mp hn).2, decide_eq_true_eq]
      exact fun heq => hno.1 (heq ▸ ho)
    obtain ⟨hdo, heq⟩ := ih hi (by rw [hl]; exact hd.filter _) hno.2
      fun other ho => by
        rw [hor, List.mem_filter]
        refine ⟨hm other (List.mem_cons_of_mem _ ho), ?_⟩
        simp only [decide_eq_true_eq]
        exact fun heq => hno.1 (heq ▸ ho)
    rw [List.foldl_cons]
    refine ⟨hdo, ?_⟩
    have hb : (store.insertionOrder.filter fun n =>
        decide (n.block.number ∉ rest) && decide (n.block.number ≠ number)) =
          store.insertionOrder.filter fun n => n.block.number ∉ number :: rest :=
      List.filter_congr fun n _ => by simp [Bool.and_comm]
    rw [heq, hs, hr, hl, hin, List.flatMap_cons, List.foldl_append,
      List.filter_filter, hb]

/-- **The eviction by height** does what `KhaosStore.evict` does. -/
theorem Indexed.evict (h : store.Indexed) (hd : Distinct store.insertionOrder) (headNumber : Int) :
    (store.evict headNumber).Indexed ∧
      (store.evict headNumber).toStore = store.toStore.evict headNumber := by
  unfold IndexedStore.evict KhaosStore.evict
  have hc : store.toStore.maxCapacity = store.maxCapacity := rfl
  rw [hc]
  generalize max 0 (min i64Max (headNumber - store.maxCapacity)) = cutoff
  obtain ⟨hi, hs⟩ := h.evictBuckets hd
    (h.order.filter fun number => number < cutoff) fun number hnu => (List.mem_filter.mp hnu).1
  refine ⟨hi, hs.trans ?_⟩
  -- the number of every node is in use
  have hu : ∀ n ∈ store.insertionOrder,
      n.block.number ∈ store.numberOrder.filter (fun number => number < cutoff) ↔
        n.block.number < cutoff := by
    intro n hn
    rw [List.mem_filter, decide_eq_true_iff, and_iff_right_iff_imp]
    exact fun _ => (h.numbers _).mpr (List.ne_nil_of_mem (mem_atNumber.mpr ⟨hn, rfl⟩))
  have he : (store.insertionOrder.filter fun n =>
      n.block.number ∉ store.numberOrder.filter fun number => number < cutoff) =
        store.toStore.entries.filter fun n => ¬ n.block.number < cutoff :=
    List.filter_congr fun n hn => decide_eq_decide.mpr (not_congr (hu n hn))
  rw [he]
  dsimp only
  congr 1
  refine foldl_erase_congr (fun n => ?_) _
  rw [List.mem_flatMap, List.mem_filter, decide_eq_true_iff]
  constructor
  · rintro ⟨number, hnu, hn⟩
    obtain ⟨hm, rfl⟩ := mem_atNumber.mp hn
    exact ⟨hm, of_decide_eq_true (List.mem_filter.mp hnu).2⟩
  · rintro ⟨hm, hl⟩
    exact ⟨n.block.number, (hu n hm).mpr hl, mem_atNumber.mpr ⟨hm, rfl⟩⟩

/-! ## Insertions -/

theorem makeRoom_eq (store : IndexedStore T) (incoming : Nat) (pinned : Option Nat)
    (nodes : List (KhaosNode T)) (entries bytes : Nat) :
    store.toStore.makeRoom incoming pinned nodes entries bytes =
      (store.victims incoming pinned nodes entries bytes,
        store.hasRoom incoming pinned nodes entries bytes) := by
  have hf : store.toStore.fits incoming = store.fits incoming := rfl
  induction nodes generalizing entries bytes with
  | nil => rfl
  | cons node rest ih =>
    rw [KhaosStore.makeRoom, victims, hasRoom, hf]
    split
    · rfl
    · split
      · rw [ih]
      · rw [ih]

theorem victims_sublist (store : IndexedStore T) (incoming : Nat) (pinned : Option Nat)
    (nodes : List (KhaosNode T)) (entries bytes : Nat) :
    (store.victims incoming pinned nodes entries bytes).Sublist nodes := by
  induction nodes generalizing entries bytes with
  | nil => exact List.Sublist.refl _
  | cons node rest ih =>
    rw [victims]
    split
    · exact List.nil_sublist _
    · split
      · exact (ih _ _).cons _
      · exact (ih _ _).cons_cons _

theorem Indexed.checkResourceLimit (h : store.Indexed) (incoming : Nat) (pinned : Option Nat) :
    store.toStore.checkResourceLimit incoming pinned =
      (store.checkResourceLimit incoming pinned).map fun _ =>
        store.victims incoming pinned store.insertionOrder store.listEntries store.totalBytes := by
  unfold IndexedStore.checkResourceLimit KhaosStore.checkResourceLimit
  have he : store.toStore.entries.length = store.listEntries := h.entries.symm
  have hb : store.toStore.totalBytes = store.totalBytes := h.bytes.symm
  rw [he, hb, makeRoom_eq]
  have hn : store.toStore.entries = store.insertionOrder := rfl
  have hme : store.toStore.maxEntries = store.maxEntries := rfl
  have hmb : store.toStore.maxBytes = store.maxBytes := rfl
  rw [hn, hme, hmb]
  split
  · rfl
  · cases store.hasRoom incoming pinned store.insertionOrder store.listEntries store.totalBytes <;>
      rfl

theorem evictForResourceLimit_of_error {incoming : Nat} {pinned : Option Nat} {e : KhaosError}
    (h : store.checkResourceLimit incoming pinned = .error e) :
    evictForResourceLimit incoming pinned store = (.error e, store) := by
  unfold evictForResourceLimit
  rw [Prog.bind_of_ok (Prog.get_run store), h]
  rfl

theorem evictForResourceLimit_of_ok {incoming : Nat} {pinned : Option Nat}
    (h : store.checkResourceLimit incoming pinned = .ok ()) :
    evictForResourceLimit incoming pinned store =
      (.ok (), (store.victims incoming pinned store.insertionOrder store.listEntries
        store.totalBytes).foldl IndexedStore.evictEntry store) := by
  unfold evictForResourceLimit
  rw [Prog.bind_of_ok (Prog.get_run store), h]
  rfl

/-- **An insertion** keeps the indexes, and does what `KhaosStore.insertPinning` does. -/
theorem Indexed.insertPinning (h : store.Indexed) (hd : Distinct store.insertionOrder)
    (node : KhaosNode T) (hf : ∀ n ∈ store.insertionOrder, n.uid ≠ node.uid)
    (headNumber : Option Int) (pinned : Option (KhaosNode T)) :
    (IndexedStore.insertPinning node headNumber pinned store).2.Indexed ∧
      KhaosStore.insertPinning node headNumber pinned store.toStore =
        ((IndexedStore.insertPinning node headNumber pinned store).1,
          (IndexedStore.insertPinning node headNumber pinned store).2.toStore) := by
  unfold IndexedStore.insertPinning KhaosStore.insertPinning
  have hc := h.checkResourceLimit (KhaosStore.accountedBytes node) (pinned.map (·.uid))
  rw [Prog.bind_of_ok (Prog.get_run store.toStore), hc]
  cases hr : store.checkResourceLimit (KhaosStore.accountedBytes node) (pinned.map (·.uid)) with
  | error e =>
    rw [Prog.bind_of_error (evictForResourceLimit_of_error hr)]
    exact ⟨h, rfl⟩
  | ok _ =>
    rw [Prog.bind_of_ok (evictForResourceLimit_of_ok hr), Except.map,
      Prog.bind_of_ok (Prog.ofExcept_ok_run _ _ _), Prog.bind_of_ok (Prog.modify_run _ _),
      Prog.bind_of_ok (Prog.get_run _), Prog.bind_of_ok (Prog.get_run _)]
    have hsu := store.victims_sublist (KhaosStore.accountedBytes node) (pinned.map (·.uid))
      store.insertionOrder store.listEntries store.totalBytes
    obtain ⟨hi, hs⟩ := h.evictAll hd (fun victim hv => hsu.subset hv)
      (hd.sublist (hsu.map _))
    have hl := (congrArg KhaosStore.entries hs).trans (KhaosStore.evictAll_entries _ _)
    rw [← hs]
    generalize (store.victims (KhaosStore.accountedBytes node) (pinned.map (·.uid))
      store.insertionOrder store.listEntries store.totalBytes).foldl IndexedStore.evictEntry store =
        store₁ at hi hl ⊢
    have hl : store₁.insertionOrder = _ := hl
    have ha : Distinct (store₁.add node).insertionOrder := by
      refine Distinct.concat (hl ▸ hd.filter _) fun n hn => hf n ?_
      rw [hl] at hn
      exact (List.mem_filter.mp hn).1
    have hen := hi.add node
    have hin : store₁.toStore.byHash = store₁.byHash := rfl
    cases pinned with
    | none => cases headNumber with
      | none => exact ⟨hen, rfl⟩
      | some number =>
        obtain ⟨he, heq⟩ := hen.evict ha number
        exact ⟨he, congrArg (Prod.mk _) heq.symm⟩
    | some parent =>
      dsimp only
      rw [hin]
      cases (store₁.byHash.lookup parent.block.id).any fun n => n.uid = parent.uid with
      | false => exact ⟨hi, rfl⟩
      | true => cases headNumber with
        | none => exact ⟨hen, rfl⟩
        | some number =>
          obtain ⟨he, heq⟩ := hen.evict ha number
          exact ⟨he, congrArg (Prod.mk _) heq.symm⟩

end IndexedStore

end RustTron.State
