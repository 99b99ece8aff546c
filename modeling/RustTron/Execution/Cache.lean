import RustTron.Primitives.Bytes
import RustTron.Library.FMap
import RustTron.Library.Prog
import Mathlib

/-!
# The transaction cache

The cache remembers the ids of recent transactions. The pending pool and the block path share it.
An entry leaves it when its time to live is over, or when there are more entries than it may hold,
oldest first. The Bloom filters, which only `might_contain` reads, are left out.

## Main definitions

* `TransactionCache`: the entries, and the order in which they came
* `TransactionCache.containsRecent`, `TransactionCache.insert`
* `TransactionCache.Valid`: the entries are those of the order, which is sorted by time
* `live`, `keepLast`: what the two ways of leaving do to the order

## Main results

* `containsRecent_eq`, `insert_eq`: the operations, on the order alone
-/

namespace RustTron.Execution

/-- `CacheConfig`, without the size of the filters. -/
structure CacheConfig where
  maximumEntries : Nat
  ttlMillis : Int
  deriving DecidableEq, Repr

def CacheConfig.default : CacheConfig := ⟨100000, 3600000⟩

inductive CacheError where
  | zeroCapacity
  | nonPositiveTtl
  | timeReversal (previous now : Int)
  | blockReversal (previous now : Int)
  deriving DecidableEq, Repr

structure TransactionCache where
  config : CacheConfig
  entries : FMap Hash32 Int
  order : List (Hash32 × Int)
  lastNow : Option Int
  lastBlock : Option Int

namespace TransactionCache

def new (config : CacheConfig) : Except CacheError TransactionCache :=
  if config.maximumEntries = 0 then .error .zeroCapacity
  else if config.ttlMillis ≤ 0 then .error .nonPositiveTtl
  else .ok ⟨config, ∅, [], none, none⟩

/-- An entry of the order leaves the index, unless a later one has replaced it there. -/
def forget (entries : FMap Hash32 Int) (entry : Hash32 × Int) : FMap Hash32 Int :=
  if entries.lookup entry.1 = some entry.2 then entries.erase entry.1 else entries

/-- The loop of `expire`. -/
def dropExpired (ttl now : Int) :
    List (Hash32 × Int) → FMap Hash32 Int → List (Hash32 × Int) × FMap Hash32 Int
  | [], entries => ([], entries)
  | entry :: rest, entries =>
    if now - entry.2 < ttl then (entry :: rest, entries)
    else dropExpired ttl now rest (forget entries entry)

/-- The loop of `insert`. -/
def dropOldest (maximum : Nat) :
    List (Hash32 × Int) → FMap Hash32 Int → List (Hash32 × Int) × FMap Hash32 Int
  | [], entries => ([], entries)
  | entry :: rest, entries =>
    if entries.entries.card ≤ maximum then (entry :: rest, entries)
    else dropOldest maximum rest (forget entries entry)

def expire (now : Int) : Prog TransactionCache CacheError Unit := fun c =>
  match c.lastNow with
  | some previous =>
    if now < previous then (.error (.timeReversal previous now), c)
    else
      let (order, entries) := dropExpired c.config.ttlMillis now c.order c.entries
      (.ok (), { c with order := order, entries := entries, lastNow := some now })
  | none =>
    let (order, entries) := dropExpired c.config.ttlMillis now c.order c.entries
    (.ok (), { c with order := order, entries := entries, lastNow := some now })

def advance (block now : Int) : Prog TransactionCache CacheError Unit := do
  let c ← get
  match c.lastBlock with
  | some previous => if block < previous then throw (.blockReversal previous block)
  | none => pure ()
  modify fun c => { c with lastBlock := some block }
  expire now

def insert (id : Hash32) (block now : Int) : Prog TransactionCache CacheError Unit := do
  advance block now
  modify fun c =>
    let (order, entries) :=
      dropOldest c.config.maximumEntries (c.order ++ [(id, now)]) (c.entries.insert id now)
    { c with order := order, entries := entries }

def containsRecent (id : Hash32) (now : Int) : Prog TransactionCache CacheError Bool := do
  expire now
  let c ← get
  pure (c.entries.lookup id).isSome

def clear (c : TransactionCache) : TransactionCache where
  config := c.config
  entries := ∅
  order := []
  lastNow := none
  lastBlock := none

/-! ## The order as the whole of the cache -/

/-- The index of an order. -/
def indexOf : List (Hash32 × Int) → FMap Hash32 Int
  | [] => ∅
  | entry :: rest => (indexOf rest).insert entry.1 entry.2

/-- The entries still alive at `now`. -/
def live (ttl now : Int) (order : List (Hash32 × Int)) : List (Hash32 × Int) :=
  order.filter fun e => now - e.2 < ttl

/-- The last entries, as many as the cache may hold. -/
def keepLast {α : Type} (maximum : Nat) (order : List α) : List α :=
  order.drop (order.length - maximum)

/-- The index holds the entries of the order, which is sorted by time, has no id twice, is
within the capacity, and has no entry that is dead or still to come. -/
structure Valid (c : TransactionCache) : Prop where
  index : c.entries = indexOf c.order
  nodup : (c.order.map Prod.fst).Nodup
  sorted : c.order.Pairwise fun a b => a.2 ≤ b.2
  capacity : c.order.length ≤ c.config.maximumEntries
  seen : ∀ e ∈ c.order, ∃ now, c.lastNow = some now ∧ e.2 ≤ now ∧ now - e.2 < c.config.ttlMillis
  ttl : 0 < c.config.ttlMillis
  maximum : 0 < c.config.maximumEntries

section Index

variable {order : List (Hash32 × Int)} {id : Hash32}

theorem mem_indexOf : id ∈ indexOf order ↔ id ∈ order.map Prod.fst := by
  induction order with
  | nil => simp [indexOf, Finmap.notMem_empty]
  | cons entry rest ih => simp [indexOf, ih]

theorem indexOf_append_singleton {entry : Hash32 × Int} (h : entry.1 ∉ order.map Prod.fst) :
    indexOf (order ++ [entry]) = (indexOf order).insert entry.1 entry.2 := by
  induction order with
  | nil => rfl
  | cons first rest ih =>
    simp only [List.map_cons, List.mem_cons, not_or] at h
    rw [List.cons_append, indexOf, ih h.2, indexOf, Finmap.insert_insert_of_ne _ h.1]

theorem card_indexOf (h : (order.map Prod.fst).Nodup) :
    (indexOf order).entries.card = order.length := by
  induction order with
  | nil => rfl
  | cons entry rest ih =>
    rw [List.map_cons, List.nodup_cons] at h
    have hn : entry.1 ∉ indexOf rest := fun hm => h.1 (mem_indexOf.mp hm)
    rw [indexOf, Finmap.entries_insert_of_notMem hn, Multiset.card_cons, ih h.2,
      List.length_cons]

theorem forget_indexOf {entry : Hash32 × Int} (h : entry.1 ∉ order.map Prod.fst) :
    forget (indexOf (entry :: order)) entry = indexOf order := by
  have hn : entry.1 ∉ indexOf order := fun hm => h (mem_indexOf.mp hm)
  rw [forget, indexOf, Finmap.lookup_insert, if_pos rfl]
  refine Finmap.ext_lookup fun key => ?_
  by_cases hk : key = entry.1
  · rw [hk, Finmap.lookup_erase, Finmap.lookup_eq_none.mpr hn]
  · rw [Finmap.lookup_erase_ne hk, Finmap.lookup_insert_of_ne _ hk]

/-- Expiry drops the dead entries, which come first. -/
theorem dropExpired_indexOf (ttl now : Int) (hn : (order.map Prod.fst).Nodup)
    (hs : order.Pairwise fun a b => a.2 ≤ b.2) :
    dropExpired ttl now order (indexOf order) =
      (live ttl now order, indexOf (live ttl now order)) := by
  induction order with
  | nil => rfl
  | cons entry rest ih =>
    rw [List.map_cons, List.nodup_cons] at hn
    rw [List.pairwise_cons] at hs
    rw [dropExpired]
    by_cases hl : now - entry.2 < ttl
    · have ha : live ttl now (entry :: rest) = entry :: rest := by
        rw [live, List.filter_eq_self]
        intro e he
        rcases List.mem_cons.mp he with rfl | he
        · simpa using hl
        · have := hs.1 e he
          simp only [decide_eq_true_eq]
          omega
      rw [if_pos hl, ha]
    · rw [if_neg hl, forget_indexOf hn.1, ih hn.2 hs.2]
      simp [live, hl]

/-- The capacity keeps the newest entries. -/
theorem dropOldest_indexOf (maximum : Nat) (hn : (order.map Prod.fst).Nodup) :
    dropOldest maximum order (indexOf order) =
      (keepLast maximum order, indexOf (keepLast maximum order)) := by
  induction order with
  | nil => simp [dropOldest, keepLast]
  | cons entry rest ih =>
    rw [dropOldest, card_indexOf hn]
    rw [List.map_cons, List.nodup_cons] at hn
    by_cases hc : (entry :: rest).length ≤ maximum
    · have hk : keepLast maximum (entry :: rest) = entry :: rest := by
        rw [keepLast, Nat.sub_eq_zero_of_le hc, List.drop_zero]
      rw [if_pos hc, hk]
    · have hk : keepLast maximum (entry :: rest) = keepLast maximum rest := by
        simp only [List.length_cons] at hc
        rw [keepLast, keepLast, List.length_cons,
          show rest.length + 1 - maximum = rest.length - maximum + 1 by omega,
          List.drop_succ_cons]
      rw [if_neg hc, forget_indexOf hn.1, ih hn.2, hk]

theorem keepLast_suffix {α : Type} (maximum : Nat) (order : List α) :
    keepLast maximum order <:+ order :=
  List.drop_suffix _ _

theorem length_keepLast {α : Type} (maximum : Nat) (order : List α) :
    (keepLast maximum order).length = min order.length maximum := by
  rw [keepLast, List.length_drop]
  omega

theorem live_sublist (ttl now : Int) (order : List (Hash32 × Int)) :
    (live ttl now order).Sublist order := List.filter_sublist

end Index

section Spec

variable {c : TransactionCache} {id : Hash32} {block now : Int}

/-- The cache with this order. -/
def withOrder (c : TransactionCache) (order : List (Hash32 × Int)) : TransactionCache :=
  { c with order := order, entries := indexOf order }

/-- The cache once `now` has been seen. -/
def expired (c : TransactionCache) (now : Int) : TransactionCache :=
  { c.withOrder (live c.config.ttlMillis now c.order) with lastNow := some now }

/-- The cache with one more entry. -/
def inserted (c : TransactionCache) (id : Hash32) (block now : Int) : TransactionCache :=
  { c.withOrder (keepLast c.config.maximumEntries
      (live c.config.ttlMillis now c.order ++ [(id, now)])) with
    lastNow := some now
    lastBlock := some block }

/-- `now` is not before the last instant seen. -/
def InTime (c : TransactionCache) (now : Int) : Prop := ∀ p, c.lastNow = some p → p ≤ now

/-- `block` is not before the last block seen. -/
def InOrder (c : TransactionCache) (block : Int) : Prop := ∀ p, c.lastBlock = some p → p ≤ block

instance : Decidable (c.InTime now) :=
  decidable_of_iff (c.lastNow.all fun p => p ≤ now) (by
    cases h : c.lastNow <;> simp [InTime, h])

theorem expire_eq (h : c.Valid) (ht : c.InTime now) :
    expire now c = (.ok (), c.expired now) := by
  have hd := dropExpired_indexOf c.config.ttlMillis now h.nodup h.sorted
  rw [← h.index] at hd
  unfold expire
  cases hl : c.lastNow with
  | none => simp only [hd, expired, withOrder]
  | some previous =>
    have : ¬ now < previous := not_lt.mpr (ht previous hl)
    simp only [if_neg this, hd, expired, withOrder]

theorem expire_of_not_inTime (ht : ¬ c.InTime now) :
    ∃ e, expire now c = (.error e, c) := by
  simp only [InTime, not_forall, not_le] at ht
  obtain ⟨previous, hl, hlt⟩ := ht
  refine ⟨.timeReversal previous now, ?_⟩
  rw [expire, hl]
  simp [hlt]

theorem Valid.expired (h : c.Valid) (ht : c.InTime now) : (c.expired now).Valid where
  index := rfl
  nodup := h.nodup.sublist ((live_sublist _ _ _).map _)
  sorted := h.sorted.sublist (live_sublist _ _ _)
  capacity := (live_sublist _ _ _).length_le.trans h.capacity
  seen := by
    intro e he
    obtain ⟨hm, hli⟩ := List.mem_filter.mp he
    obtain ⟨previous, hl, hle, -⟩ := h.seen e hm
    exact ⟨now, rfl, hle.trans (ht previous hl), of_decide_eq_true hli⟩
  ttl := h.ttl
  maximum := h.maximum

/-- **Looking up an id**: the dead entries go first, and the id is found among the rest. -/
theorem containsRecent_eq (h : c.Valid) (ht : c.InTime now) :
    containsRecent id now c =
      (.ok (id ∈ (live c.config.ttlMillis now c.order).map Prod.fst : Bool), c.expired now) := by
  have hf : ((c.expired now).entries.lookup id).isSome =
      decide (id ∈ (live c.config.ttlMillis now c.order).map Prod.fst) := by
    rw [Bool.eq_iff_iff, Finmap.lookup_isSome, decide_eq_true_eq]
    exact mem_indexOf
  rw [containsRecent, Prog.bind_of_ok (expire_eq h ht), Prog.bind_of_ok (Prog.get_run _),
    hf]
  rfl

theorem containsRecent_of_not_inTime (ht : ¬ c.InTime now) :
    ∃ e, containsRecent id now c = (.error e, c) := by
  obtain ⟨e, he⟩ := expire_of_not_inTime ht
  exact ⟨e, Prog.bind_of_error he⟩

theorem advance_eq (h : c.Valid) (ht : c.InTime now) (hb : c.InOrder block) :
    advance block now c = (.ok (), { c.expired now with lastBlock := some block }) := by
  have hv : ({ c with lastBlock := some block } : TransactionCache).Valid :=
    ⟨h.index, h.nodup, h.sorted, h.capacity, h.seen, h.ttl, h.maximum⟩
  have he : expire now { c with lastBlock := some block } = _ := expire_eq hv ht
  rw [advance, Prog.bind_of_ok (Prog.get_run _)]
  cases hl : c.lastBlock with
  | none =>
    simp only
    rw [Prog.bind_of_ok (Prog.modify_run _ _), he]
    rfl
  | some previous =>
    simp only
    rw [if_neg (not_lt.mpr (hb previous hl)), Prog.bind_of_ok (Prog.modify_run _ _),
      he]
    rfl

/-- **Inserting a new id**: the dead entries go, and the oldest where there are too many. -/
theorem insert_eq (h : c.Valid) (ht : c.InTime now) (hbl : c.InOrder block)
    (hid : id ∉ (live c.config.ttlMillis now c.order).map Prod.fst) :
    insert id block now c = (.ok (), c.inserted id block now) := by
  have hn : ((live c.config.ttlMillis now c.order ++ [(id, now)]).map Prod.fst).Nodup := by
    rw [List.map_append, List.nodup_append]
    refine ⟨h.nodup.sublist ((live_sublist _ _ _).map _), by simp, ?_⟩
    intro a ha b hb hab
    simp only [List.map_cons, List.map_nil, List.mem_singleton] at hb
    exact hid (hb ▸ hab ▸ ha)
  have hd := dropOldest_indexOf c.config.maximumEntries hn
  rw [indexOf_append_singleton hid] at hd
  rw [insert, Prog.bind_of_ok (advance_eq h ht hbl), Prog.modify_run]
  simp only [expired, withOrder, inserted, hd]

theorem insert_of_not_inOrder (hb : ¬ c.InOrder block) :
    ∃ e, insert id block now c = (.error e, c) := by
  simp only [InOrder, not_forall, not_le] at hb
  obtain ⟨previous, hl, hlt⟩ := hb
  have ha : advance block now c = (.error (.blockReversal previous block), c) := by
    rw [advance, Prog.bind_of_ok (Prog.get_run _), hl]
    simp only [if_pos hlt]
    rfl
  exact ⟨_, Prog.bind_of_error ha⟩

theorem Valid.inserted (h : c.Valid) (ht : c.InTime now)
    (hid : id ∉ (live c.config.ttlMillis now c.order).map Prod.fst) :
    (c.inserted id block now).Valid where
  index := rfl
  nodup := by
    refine List.Nodup.sublist ((keepLast_suffix _ _).sublist.map _) ?_
    rw [List.map_append, List.nodup_append]
    refine ⟨h.nodup.sublist ((live_sublist _ _ _).map _), by simp, ?_⟩
    intro a ha b hb hab
    simp only [List.map_cons, List.map_nil, List.mem_singleton] at hb
    exact hid (hb ▸ hab ▸ ha)
  sorted := by
    refine List.Pairwise.sublist (keepLast_suffix _ _).sublist ?_
    rw [List.pairwise_append]
    refine ⟨h.sorted.sublist (live_sublist _ _ _), by simp, ?_⟩
    intro a ha b hb
    rw [List.mem_singleton.mp hb]
    obtain ⟨previous, hl, hle, -⟩ := h.seen a ((live_sublist _ _ _).subset ha)
    exact hle.trans (ht previous hl)
  capacity := by
    show (keepLast _ _).length ≤ _
    rw [length_keepLast]
    exact min_le_right _ _
  seen := by
    intro e he
    rcases List.mem_append.mp ((keepLast_suffix _ _).subset he) with he | he
    · exact (h.expired ht).seen e he
    · rw [List.mem_singleton.mp he]
      exact ⟨now, rfl, le_refl now, (sub_self now).trans_lt h.ttl⟩
  ttl := h.ttl
  maximum := h.maximum

theorem Valid.clear (h : c.Valid) : c.clear.Valid where
  index := rfl
  nodup := List.nodup_nil
  sorted := List.Pairwise.nil
  capacity := Nat.zero_le _
  seen := by simp [TransactionCache.clear]
  ttl := h.ttl
  maximum := h.maximum

theorem Valid.new {config : CacheConfig} {c : TransactionCache} (h : new config = .ok c) :
    c.Valid := by
  unfold TransactionCache.new at h
  split_ifs at h with hm ht
  cases h
  exact ⟨rfl, List.nodup_nil, List.Pairwise.nil, Nat.zero_le _, nofun, not_le.mp ht,
    Nat.pos_of_ne_zero hm⟩

end Spec

end TransactionCache

end RustTron.Execution
