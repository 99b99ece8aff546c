import RustTron.State.Khaos.Graph

/-!
# The order of insertion

A store may hold a block twice: a block that is inserted again stands beside its older nodes, and
the index finds the newest of them. Where the id of a block determines its number, every operation
keeps this, also those that take nodes out: the oldest go first, and those below the height window
go with all nodes of their block.

## Main definitions

* `KhaosStore.Ordered numberOf store`: distinct nodes, the newest of each block in the index, and
  the numbers of the blocks

## Main results

* `KhaosStore.makeRoom_spec`: the nodes that go for a new one are the oldest
* `KhaosStore.Ordered.insertPinning`, `Ordered.remove`: the operations keep the order
-/

namespace RustTron.State

variable {T : Type}

/-- Where the last element goes only with all the others, it is the last one left. -/
theorem getLast?_filter {α : Type} {l : List α} {p : α → Bool}
    (h : ∀ a, l.getLast? = some a → p a = false → ∀ b ∈ l, p b = false) :
    (l.filter p).getLast? = l.getLast?.filter p := by
  induction l using List.reverseRecOn with
  | nil => rfl
  | append_singleton l a _ =>
    rw [List.filter_append, List.getLast?_concat]
    cases hp : p a with
    | true => simp [Option.filter_some, hp]
    | false =>
      have ha := h a List.getLast?_concat hp
      rw [List.filter_eq_nil_iff.mpr fun b hb => by
        simp [ha b (List.mem_append_left _ hb)]]
      simp [Option.filter_some, hp]

namespace KhaosStore

/-- The nodes of a block, oldest first. -/
def withId (store : KhaosStore T) (id : BlockId) : List (KhaosNode T) :=
  store.entries.filter fun n => n.block.id = id

/-- The nodes are distinct, the index finds the newest node of each block, and the ids of the blocks
determine their numbers. -/
structure Ordered (numberOf : BlockId → Int) (store : KhaosStore T) : Prop where
  uids : (store.entries.map (·.uid)).Nodup
  newest : ∀ id, store.byHash.lookup id = (store.withId id).getLast?
  numbered : ∀ n ∈ store.entries, n.block.number = numberOf n.block.id

variable {numberOf : BlockId → Int} {store : KhaosStore T}

theorem mem_withId {id : BlockId} {n : KhaosNode T} :
    n ∈ store.withId id ↔ n ∈ store.entries ∧ n.block.id = id := by
  rw [withId, List.mem_filter, decide_eq_true_iff]

theorem lookup_foldl_erase_of_mem {expired : List (KhaosNode T)} {id : BlockId}
    (h : ∃ n ∈ expired, n.block.id = id) (m : FMap BlockId (KhaosNode T)) :
    (expired.foldl (fun m n => m.erase n.block.id) m).lookup id = none := by
  induction expired generalizing m with
  | nil => exact absurd h (by simp)
  | cons first rest ih =>
    by_cases hr : ∃ n ∈ rest, n.block.id = id
    · exact ih hr _
    · obtain ⟨n, hn, rfl⟩ := h
      obtain rfl : n = first :=
        (List.mem_cons.mp hn).resolve_right fun hm => hr ⟨n, hm, rfl⟩
      rw [List.foldl_cons, lookup_foldl_erase _ _ fun k hk hid => hr ⟨k, hk, hid⟩]
      exact Finmap.lookup_erase _ _

namespace Ordered

theorem new : (KhaosStore.new : KhaosStore T).Ordered numberOf where
  uids := List.nodup_nil
  newest _ := rfl
  numbered _ h := nomatch h

theorem mem (h : store.Ordered numberOf) {id : BlockId} {n : KhaosNode T}
    (hn : store.byHash.lookup id = some n) : n ∈ store.entries ∧ n.block.id = id :=
  mem_withId.mp (List.mem_of_getLast? (h.newest id ▸ hn))

theorem eq_of_uid (h : store.Ordered numberOf) {n m : KhaosNode T} (hn : n ∈ store.entries)
    (hm : m ∈ store.entries) (hu : n.uid = m.uid) : n = m :=
  List.inj_on_of_nodup_map h.uids hn hm hu

/-- The index has an entry for the blocks of the nodes, and for no others. -/
theorem isSome_lookup (h : store.Ordered numberOf) {id : BlockId} :
    (store.byHash.lookup id).isSome ↔ ∃ n ∈ store.entries, n.block.id = id := by
  rw [h.newest, List.getLast?_isSome, Ne, ← List.isEmpty_iff, Bool.not_eq_true,
    List.isEmpty_eq_false_iff_exists_mem]
  exact exists_congr fun n => mem_withId

/-- Some nodes are kept, and the index is that of what is left, if the newest node of a block goes
only with all nodes of the block. -/
theorem filter (h : store.Ordered numberOf) (keep : KhaosNode T → Bool)
    {byHash : FMap BlockId (KhaosNode T)}
    (hi : ∀ id, byHash.lookup id = (store.byHash.lookup id).filter keep)
    (hne : ∀ id n, store.byHash.lookup id = some n → keep n = false →
      ∀ m ∈ store.withId id, keep m = false) :
    ({ store with entries := store.entries.filter keep, byHash := byHash } :
      KhaosStore T).Ordered numberOf where
  uids := h.uids.sublist (List.filter_sublist.map _)
  newest id := by
    have hl : ((store.withId id).filter keep).getLast? = (store.withId id).getLast?.filter keep :=
      getLast?_filter fun n hn => hne id n (h.newest id ▸ hn)
    rw [hi, h.newest, ← hl, withId, withId, List.filter_filter, List.filter_filter]
    exact congrArg List.getLast? (List.filter_congr fun n _ => Bool.and_comm _ _)
  numbered n hn := h.numbered n (List.mem_filter.mp hn).1

theorem remove (h : store.Ordered numberOf) (id : BlockId) :
    (store.remove id).2.Ordered numberOf := by
  unfold KhaosStore.remove
  split
  · exact h
  · rename_i node hno
    obtain ⟨hme, rfl⟩ := h.mem hno
    -- every node of the block has its number
    have hk : ∀ n ∈ store.entries, (n.block.id ≠ node.block.id ||
        n.block.number ≠ node.block.number : Bool) = decide (n.block.id ≠ node.block.id) := by
      intro n hn
      by_cases hid : n.block.id = node.block.id
      · simp [hid, h.numbered n hn, h.numbered node hme]
      · simp [hid]
    rw [List.filter_congr hk]
    refine h.filter _ (fun id => ?_) fun id n hn hg m hm => ?_
    · by_cases hid : id = node.block.id
      · rw [hid, Finmap.lookup_erase, hno]
        simp [Option.filter_some]
      · rw [Finmap.lookup_erase_ne hid]
        cases hl : store.byHash.lookup id with
        | none => rfl
        | some n => simp [Option.filter_some, (h.mem hl).2, hid]
    · rw [(mem_withId.mp hm).2, ← (h.mem hn).2]
      exact hg

theorem evict (h : store.Ordered numberOf) (headNumber : Int) :
    (store.evict headNumber).Ordered numberOf := by
  unfold KhaosStore.evict
  generalize max 0 (min i64Max (headNumber - store.maxCapacity)) = cutoff
  have hs : ∀ {id : BlockId} {n : KhaosNode T}, n ∈ store.withId id →
      n.block.number = numberOf id := by
    intro id n hn
    obtain ⟨hme, rfl⟩ := mem_withId.mp hn
    exact h.numbered n hme
  refine h.filter _ (fun id => ?_) fun id n hn hg m hm => ?_
  · by_cases he : ∃ n ∈ store.withId id, n.block.number < cutoff
    · obtain ⟨n, hn, hlo⟩ := he
      obtain ⟨hme, rfl⟩ := mem_withId.mp hn
      rw [lookup_foldl_erase_of_mem ⟨n, List.mem_filter.mpr ⟨hme, decide_eq_true hlo⟩, rfl⟩]
      cases hl : store.byHash.lookup n.block.id with
      | none => rfl
      | some m =>
        rw [hs hn] at hlo
        have hm := hs (mem_withId.mpr (h.mem hl))
        simp [Option.filter_some, hm, hlo]
    · rw [lookup_foldl_erase _ _ fun n hn hid => he ⟨n, mem_withId.mpr
        ⟨(List.mem_filter.mp hn).1, hid⟩, of_decide_eq_true (List.mem_filter.mp hn).2⟩]
      cases hl : store.byHash.lookup id with
      | none => rfl
      | some m =>
        have hm : ¬ m.block.number < cutoff := fun hlo =>
          he ⟨m, mem_withId.mpr (h.mem hl), hlo⟩
        simp [Option.filter_some, hm]
  · rw [hs hm]
    rwa [hs (mem_withId.mpr (h.mem hn))] at hg

end Ordered

/-! ## Making room -/

/-- The index finds only nodes of the list, each at its own id. -/
def Indexes (store : KhaosStore T) : Prop :=
  ∀ id n, store.byHash.lookup id = some n → n ∈ store.entries ∧ n.block.id = id

theorem lookup_evictEntry {victim : KhaosNode T} (h : store.Indexes)
    (hv : ∀ n ∈ store.entries, n.uid = victim.uid → n = victim) (id : BlockId) :
    (store.evictEntry victim).byHash.lookup id =
      (store.byHash.lookup id).filter fun n => n.uid ≠ victim.uid := by
  -- the index finds nodes of the list, so only the victim itself goes from it
  have hg : ∀ n, store.byHash.lookup id = some n → n.uid = victim.uid →
      n = victim ∧ victim.block.id = id := by
    intro n hn hu
    obtain ⟨hm, hid⟩ := h id n hn
    obtain rfl := hv n hm hu
    exact ⟨rfl, hid⟩
  unfold evictEntry
  split
  · dsimp only
    cases hl : store.byHash.lookup id with
    | none =>
      split
      · by_cases hid : id = victim.block.id
        · rw [hid, Finmap.lookup_erase]
          rfl
        · rw [Finmap.lookup_erase_ne hid, hl]
          rfl
      · rw [hl]
        rfl
    | some n =>
      rw [Option.filter_some]
      by_cases hu : n.uid = victim.uid
      · obtain ⟨rfl, rfl⟩ := hg n hl hu
        simp [hl]
      · have hk : (if decide (n.uid ≠ victim.uid) = true then some n else none) = some n := by
          simp [hu]
        rw [hk]
        split
        · rename_i hi
          rw [Finmap.lookup_erase_ne, hl]
          rintro rfl
          simp [hl, hu] at hi
        · exact hl
  · rename_i hno
    cases hl : store.byHash.lookup id with
    | none => rfl
    | some n =>
      have hu : n.uid ≠ victim.uid := fun hu =>
        hno (List.any_eq_true.mpr ⟨n, (h id n hl).1, decide_eq_true hu⟩)
      simp [Option.filter_some, hu]

theorem Indexes.evictEntry {victim : KhaosNode T} (h : store.Indexes)
    (hv : ∀ n ∈ store.entries, n.uid = victim.uid → n = victim) :
    (store.evictEntry victim).Indexes := by
  intro id n hn
  rw [lookup_evictEntry h hv, Option.filter_eq_some_iff] at hn
  rw [evictEntry_entries]
  exact ⟨List.mem_filter.mpr ⟨(h id n hn.1).1, hn.2⟩, (h id n hn.1).2⟩

/-- The index after some nodes have gone. -/
theorem lookup_evictAll {victims : List (KhaosNode T)} (h : store.Indexes)
    (hvi : ∀ victim ∈ victims, ∀ n ∈ store.entries, n.uid = victim.uid → n = victim)
    (id : BlockId) :
    (victims.foldl evictEntry store).byHash.lookup id =
      (store.byHash.lookup id).filter (survives victims) := by
  induction victims generalizing store with
  | nil =>
    cases hl : store.byHash.lookup id with
    | none => simp [hl]
    | some n => simp [hl, survives, Option.filter_some]
  | cons victim rest ih =>
    have hf := hvi victim List.mem_cons_self
    rw [List.foldl_cons, ih (h.evictEntry hf), lookup_evictEntry h hf, Option.filter_filter]
    · cases hl : store.byHash.lookup id with
      | none => rfl
      | some n => simp [survives, Option.filter_some]
    · intro v hv n hn
      rw [evictEntry_entries] at hn
      exact hvi v (List.mem_cons_of_mem _ hv) n (List.mem_filter.mp hn).1

theorem Ordered.indexes (h : store.Ordered numberOf) : store.Indexes := fun _ _ hn => h.mem hn

/-- The nodes of an oldest part, short of a pinned node that the index finds, may go. -/
theorem Ordered.evictAll (h : store.Ordered numberOf) {pinned : Option Nat}
    {older newer : List (KhaosNode T)} (he : store.entries = older ++ newer)
    (hpi : ∀ uid, pinned = some uid →
      ∃ p : KhaosNode T, p.uid = uid ∧ store.byHash.lookup p.block.id = some p) :
    ((older.filter fun n => pinned ≠ some n.uid).foldl evictEntry store).Ordered numberOf := by
  set victims := older.filter fun n => pinned ≠ some n.uid with hvic
  have hme : ∀ victim ∈ victims, victim ∈ store.entries := fun victim hv => by
    rw [he]
    exact List.mem_append_left _ (List.mem_filter.mp hv).1
  have hg : ∀ n ∈ store.entries, survives victims n = false → n ∈ victims := by
    intro n hn hg
    rw [survives, List.all_eq_false] at hg
    obtain ⟨victim, hv, hu⟩ := hg
    obtain rfl := h.eq_of_uid hn (hme victim hv) (by simpa using hu)
    exact hv
  have hk : ({ store with
      entries := store.entries.filter (survives victims)
      byHash := (victims.foldl evictEntry store).byHash } : KhaosStore T).Ordered numberOf := by
    refine h.filter _ (lookup_evictAll h.indexes fun victim hv n hn hu =>
      h.eq_of_uid hn (hme victim hv) hu) fun id n hn ho m hm => ?_
    have hn' := hg n (h.mem hn).1 ho
    obtain ⟨hm', hid⟩ := mem_withId.mp hm
    -- the newest node of the block is among the oldest part, so they all are
    have holder : m ∈ older := by
      rw [he] at hm'
      refine (List.mem_append.mp hm').resolve_right fun hne => ?_
      have hla := h.newest id
      rw [hn, withId, he, List.filter_append, List.getLast?_append_of_ne_nil] at hla
      · have hlat := List.mem_of_getLast? hla.symm
        have hd := h.uids
        rw [he, List.map_append, List.nodup_append] at hd
        exact hd.2.2 n.uid (List.mem_map_of_mem (List.mem_filter.mp hn').1) n.uid
          (List.mem_map_of_mem (List.mem_filter.mp hlat).1) rfl
      · exact List.ne_nil_of_mem (List.mem_filter.mpr ⟨hne, decide_eq_true hid⟩)
    have hno : pinned ≠ some m.uid := by
      intro hpin
      obtain ⟨p, hp, hl⟩ := hpi m.uid hpin
      obtain rfl := h.eq_of_uid (h.mem hl).1 (mem_withId.mp hm).1 hp
      rw [hid, hn] at hl
      obtain rfl := Option.some.inj hl
      exact of_decide_eq_true (List.mem_filter.mp hn').2 hpin
    have hvi : m ∈ victims := List.mem_filter.mpr ⟨holder, decide_eq_true hno⟩
    rw [survives, List.all_eq_false]
    exact ⟨m, hvi, by simp⟩
  refine ⟨?_, fun id => ?_, ?_⟩
  · rw [evictAll_entries]
    exact hk.uids
  · rw [withId, evictAll_entries]
    exact hk.newest id
  · rw [evictAll_entries]
    exact hk.numbered

variable [RetainedSize T]

/-- What goes for a new block are the oldest nodes, short of the pinned one, and they leave room. -/
theorem makeRoom_spec (store : KhaosStore T) (incoming : Nat) (pinned : Option Nat)
    (nodes : List (KhaosNode T)) (entries bytes : Nat) :
    (∃ older newer, nodes = older ++ newer ∧
      (store.makeRoom incoming pinned nodes entries bytes).1 =
        older.filter fun n => pinned ≠ some n.uid) ∧
    (store.makeRoom incoming pinned nodes entries bytes).2 = store.fits incoming
      (entries - (store.makeRoom incoming pinned nodes entries bytes).1.length)
      (bytes - ((store.makeRoom incoming pinned nodes entries bytes).1.map accountedBytes).sum) := by
  induction nodes generalizing entries bytes with
  | nil => exact ⟨⟨[], [], rfl, rfl⟩, by simp [makeRoom]⟩
  | cons node rest ih =>
    unfold makeRoom
    split
    · rename_i hf
      exact ⟨⟨[], node :: rest, rfl, rfl⟩, by simp [hf]⟩
    · split
      · rename_i hp
        obtain ⟨⟨older, newer, heq, hv⟩, hr⟩ := ih entries bytes
        refine ⟨⟨node :: older, newer, by rw [heq]; rfl, ?_⟩, hr⟩
        rw [List.filter_cons_of_neg (by simp [hp]), hv]
      · rename_i hp
        obtain ⟨⟨older, newer, heq, hv⟩, hr⟩ :=
          ih (entries - 1) (bytes - accountedBytes node)
        refine ⟨⟨node :: older, newer, by rw [heq]; rfl, ?_⟩, ?_⟩
        · rw [List.filter_cons_of_pos (by simp [hp]), ← hv]
        · simp [hr, Nat.sub_sub, Nat.add_comm]

omit [RetainedSize T] in
theorem Ordered.insert (h : store.Ordered numberOf) (node : KhaosNode T)
    (hf : ∀ n ∈ store.entries, n.uid ≠ node.uid)
    (hnu : node.block.number = numberOf node.block.id) :
    ({ store with
      byHash := store.byHash.insert node.block.id node
      entries := store.entries ++ [node] } : KhaosStore T).Ordered numberOf where
  uids := by
    rw [List.map_append, List.nodup_append]
    refine ⟨h.uids, List.nodup_singleton _, ?_⟩
    intro uid hu uid' hu' heq
    obtain ⟨n, hn, rfl⟩ := List.mem_map.mp hu
    rw [List.map_singleton, List.mem_singleton] at hu'
    exact hf n hn (heq.trans hu')
  newest id := by
    rw [withId, List.filter_append]
    by_cases hid : id = node.block.id
    · subst hid
      simp
    · rw [Finmap.lookup_insert_of_ne _ hid, h.newest]
      simp [withId, Ne.symm hid]
  numbered n hn := by
    rcases List.mem_append.mp hn with hn | hn
    · exact h.numbered n hn
    · rw [List.mem_singleton.mp hn]
      exact hnu

theorem checkResourceLimit_eq {incoming : Nat} {pinned : Option Nat} {victims : List (KhaosNode T)}
    (h : store.checkResourceLimit incoming pinned = .ok victims) :
    store.makeRoom incoming pinned store.entries store.entries.length store.totalBytes =
      (victims, true) := by
  unfold checkResourceLimit at h
  split at h
  · cases h
  · split at h
    · rename_i hr
      cases h
      exact hr
    · cases h

/-- What `checkResourceLimit` plans: the oldest nodes go, short of the pinned one, and leave room. -/
theorem checkResourceLimit_ok {incoming : Nat} {pinned : Option Nat} {victims : List (KhaosNode T)}
    (h : store.checkResourceLimit incoming pinned = .ok victims) :
    (∃ older newer, store.entries = older ++ newer ∧
      victims = older.filter fun n => pinned ≠ some n.uid) ∧
    store.fits incoming (store.entries.length - victims.length)
      (store.totalBytes - (victims.map accountedBytes).sum) = true := by
  obtain ⟨hp, hr⟩ := store.makeRoom_spec incoming pinned store.entries store.entries.length
    store.totalBytes
  rw [checkResourceLimit_eq h] at hp hr
  exact ⟨hp, hr.symm⟩

omit [RetainedSize T] in
theorem evictAll_eq (victims : List (KhaosNode T)) (store : KhaosStore T) :
    ∃ byHash, victims.foldl evictEntry store =
      { store with entries := store.entries.filter (survives victims), byHash := byHash } := by
  have hl : ∃ entries byHash, victims.foldl evictEntry store =
      { store with entries := entries, byHash := byHash } := by
    induction victims generalizing store with
    | nil => exact ⟨_, _, rfl⟩
    | cons victim rest ih =>
      obtain ⟨entries, byHash, h⟩ := ih (store.evictEntry victim)
      rw [List.foldl_cons, h]
      unfold evictEntry
      split <;> exact ⟨_, _, rfl⟩
  obtain ⟨entries, byHash, h⟩ := hl
  have he := evictAll_entries victims store
  rw [h] at he
  exact ⟨byHash, he ▸ h⟩

/-- **An insertion** keeps the order, and leaves the store as it is where it fails. -/
theorem Ordered.insertPinning (h : store.Ordered numberOf) (node : KhaosNode T)
    (hfr : ∀ n ∈ store.entries, n.uid ≠ node.uid)
    (hnu : node.block.number = numberOf node.block.id) (headNumber : Option Int)
    (pinned : Option (KhaosNode T))
    (hpi : ∀ p, pinned = some p → store.byHash.lookup p.block.id = some p) :
    match KhaosStore.insertPinning node headNumber pinned store with
    | (.ok (), store') => store'.Ordered numberOf ∧ ∃ victims byHash,
        store.checkResourceLimit (accountedBytes node) (pinned.map (·.uid)) = .ok victims ∧
        store' = { store with
          entries := (store.entries.filter (survives victims) ++ [node]).filter
            (store.survivesEvict headNumber)
          byHash := byHash }
    | (.error _, store') => store' = store := by
  unfold KhaosStore.insertPinning
  rw [Prog.bind_of_ok (Prog.get_run store)]
  rcases hc : store.checkResourceLimit (accountedBytes node) (pinned.map (·.uid)) with
    e | victims
  · rw [hc]
    rfl
  rw [hc, Prog.bind_of_ok (Prog.ofExcept_ok_run _ victims store),
    Prog.bind_of_ok (Prog.modify_run _ store), Prog.bind_of_ok (Prog.get_run _)]
  obtain ⟨⟨older, newer, he, hvi⟩, -⟩ := checkResourceLimit_ok hc
  have hin : ∀ uid, pinned.map (·.uid) = some uid →
      ∃ p : KhaosNode T, p.uid = uid ∧ store.byHash.lookup p.block.id = some p := by
    intro uid hu
    obtain ⟨p, hp, rfl⟩ := Option.map_eq_some_iff.mp hu
    exact ⟨p, rfl, hpi p hp⟩
  have hro : (victims.foldl evictEntry store).Ordered numberOf :=
    hvi ▸ h.evictAll he hin
  have hf : ∀ p, pinned = some p →
      (victims.foldl evictEntry store).byHash.lookup p.block.id = some p := by
    rintro p rfl
    have hk : survives victims p = true := by
      rw [survives, List.all_eq_true]
      intro victim hv
      rw [decide_eq_true_iff]
      rintro hu
      rw [hvi] at hv
      exact of_decide_eq_true (List.mem_filter.mp hv).2 (congrArg some hu)
    rw [lookup_evictAll h.indexes, hpi p rfl, Option.filter_some, if_pos hk]
    intro victim hv n hn hu
    rw [hvi] at hv
    refine h.eq_of_uid hn ?_ hu
    rw [he]
    exact List.mem_append_left _ (List.mem_filter.mp hv).1
  have hi := hro.insert node (fun n hn => hfr n (by
    rw [evictAll_entries] at hn
    exact (List.mem_filter.mp hn).1)) hnu
  obtain ⟨byHash, hr⟩ := evictAll_eq victims store
  rw [hr] at hf hi ⊢
  have hno : store.entries.filter (survives victims) ++ [node] =
      (store.entries.filter (survives victims) ++ [node]).filter (store.survivesEvict none) :=
    (List.filter_eq_self.mpr fun _ _ => rfl).symm
  have hen : ∀ number : Option Int,
      let store' : KhaosStore T := { store with
        entries := store.entries.filter (survives victims) ++ [node]
        byHash := byHash.insert node.block.id node }
      let after := number.elim store' store'.evict
      after.Ordered numberOf ∧ ∃ victims' byHash,
        (Except.ok victims : Except KhaosError _) = .ok victims' ∧ after = { store with
          entries := (store.entries.filter (survives victims') ++ [node]).filter
            (store.survivesEvict number)
          byHash := byHash } := by
    rintro (_ | number)
    · exact ⟨hi, victims, _, rfl, by rw [Option.elim_none, ← hno]⟩
    · exact ⟨hi.evict number, victims, _, rfl, rfl⟩
  cases pinned with
  | none => cases headNumber with
    | none => exact hen none
    | some number => exact hen (some number)
  | some p =>
    -- the pinned node is still in the index
    have hpa : (byHash.lookup p.block.id).any (fun n => n.uid = p.uid) = true := by
      rw [hf p rfl]
      simp
    dsimp only
    rw [hpa]
    cases headNumber with
    | none => exact hen none
    | some number => exact hen (some number)

end KhaosStore

end RustTron.State
