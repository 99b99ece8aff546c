import RustTron.State.Khaos.Order

/-!
# The head among the retained blocks

The head of the graph is found in the linked store as long as the budgets leave room for it. The
height window never takes it: the window is below the head. What makes room for a new block takes
the oldest nodes first, and spares the parent of the new block, but not the head: the head goes
where what has come after it, with the parent and the new block, fills a budget.

## Main definitions

* `KhaosDatabase.HeadFits`: the budgets have room for a block beside the head and what came after it
* `Pushes`: the graphs that pushes reach from a first block, under any limits
* `KhaosDatabase.HeadRetained`: the invariant

## Main results

* `KhaosStore.mem_makeRoom_iff`: when a node goes for a new block
* `KhaosDatabase.HeadRetained.push`, `HeadRetained.push_lost`: a push keeps the head, or loses it
* `head_retained`: over every run
* `head_lost`: runs in which the head goes
-/

namespace RustTron.State

variable {T : Type}

namespace KhaosDatabase

/-- The parent with which a block gets into the linked store, if it gets there: a block of the parent
hash zero, or pushed before there is a head, has none. -/
def linkedParent (db : KhaosDatabase T) (block : KhaosBlockData T) :
    Option (Option (KhaosNode T)) :=
  if db.head.isSome && block.parentId ≠ Hash32.zero then
    match db.linked.getByHash block.parentId with
    | some parent => if block.number ≠ parent.block.number + 1 then none else some (some parent)
    | none => none
  else some none

variable [RetainedSize T]

/-- What room cannot be made of before the head's node `n` goes: the pinned parent, `n`, and the
nodes inserted after it. -/
def keptWith (db : KhaosDatabase T) (pinned : Option Nat) (n : KhaosNode T) :
    List (KhaosNode T) :=
  (db.linked.entries.takeWhile fun m => m.uid ≠ n.uid).filter (fun m => pinned = some m.uid) ++
    db.linked.entries.dropWhile fun m => m.uid ≠ n.uid

/-- A block that gets to the linked store, and is not above the head nor the head itself, is refused
by the resource check, or extends the head, or fits the budgets beside its parent, the head and
what came after the head. -/
def HeadFits (db : KhaosDatabase T) (block : KhaosBlockData T) : Prop :=
  ∀ parent ∈ db.linkedParent block, ∀ head ∈ db.head, block.number ≤ head.block.number →
    block.id ≠ head.block.id → ∀ n ∈ db.linked.getByHash head.block.id,
      let size := khaosBlockOverhead + RetainedSize.retainedSize block.value
      let pinned := parent.map (·.uid)
      let kept := db.keptWith pinned n
      (db.linked.checkResourceLimit size pinned).isOk = false ∨ pinned = some n.uid ∨
        kept.length < db.linked.maxEntries ∧
          (kept.map KhaosStore.accountedBytes).sum + size ≤ db.linked.maxBytes

instance (db : KhaosDatabase T) (block : KhaosBlockData T) : Decidable (db.HeadFits block) :=
  inferInstanceAs (Decidable (∀ parent ∈ db.linkedParent block, _))

/-- The head is not in the linked store. -/
def HeadLost (db : KhaosDatabase T) : Prop :=
  ∃ head, db.head = some head ∧ db.linked.getByHash head.block.id = none

/-- The head is in the linked store, where the index finds its block, and no number below zero is the
number of the head. -/
structure HeadRetained (numberOf : BlockId → Int) (db : KhaosDatabase T) : Prop where
  ordered : db.linked.Ordered numberOf
  fresh : ∀ n ∈ db.linked.entries, n.uid < db.nextUid
  capacity : 0 ≤ db.linked.maxCapacity
  head : ∃ head, db.head = some head ∧ head.block.number = numberOf head.block.id ∧
    0 ≤ head.block.number ∧ ∃ n ∈ db.linked.entries, n.block.id = head.block.id

end KhaosDatabase

/-! ## Room for a block -/

namespace KhaosStore

variable [RetainedSize T] {store : KhaosStore T} {incoming : Nat} {pinned : Option Nat}

omit [RetainedSize T] in
theorem fits_mono {entries entries' bytes bytes' : Nat}
    (h : store.fits incoming entries bytes = true) (he : entries' ≤ entries)
    (hb : bytes' ≤ bytes) : store.fits incoming entries' bytes' = true := by
  simp only [fits, Bool.and_eq_true, decide_eq_true_eq] at h ⊢
  omega

/-- **A node goes for a new block** when the block does not fit beside it, the pinned node and the
newer nodes. -/
theorem mem_makeRoom_iff {n : KhaosNode T} (hpinned : pinned ≠ some n.uid)
    {older : List (KhaosNode T)} (holder : n ∉ older) (newer : List (KhaosNode T))
    (entries bytes : Nat) :
    n ∈ (store.makeRoom incoming pinned (older ++ n :: newer) (older.length + entries)
        ((older.map accountedBytes).sum + bytes)).1 ↔
      store.fits incoming ((older.filter fun m => pinned = some m.uid).length + entries)
        (((older.filter fun m => pinned = some m.uid).map accountedBytes).sum + bytes) = false := by
  induction older generalizing entries bytes with
  | nil =>
    rw [List.nil_append, makeRoom, if_neg hpinned]
    cases hfits : store.fits incoming entries bytes <;> simp [hfits]
  | cons m older ih =>
    rw [List.mem_cons, not_or] at holder
    obtain ⟨hne, hrest⟩ := holder
    rw [List.cons_append, makeRoom]
    cases hfits : store.fits incoming ((m :: older).length + entries)
        (((m :: older).map accountedBytes).sum + bytes) with
    | true =>
      -- what is left out only makes more room
      have hkept := ((m :: older).filter_sublist (p := fun m => pinned = some m.uid))
      have hmore := fits_mono hfits (Nat.add_le_add_right hkept.length_le _)
        (Nat.add_le_add_right ((hkept.map accountedBytes).sum_le_sum fun _ _ => Nat.zero_le _) _)
      simp [hmore]
    | false =>
      simp only [Bool.false_eq_true, if_false]
      by_cases hpin : pinned = some m.uid
      · -- the pinned node counts with what is kept
        have hentries : (m :: older).length + entries = older.length + (entries + 1) := by
          rw [List.length_cons]
          omega
        have hbytes : ((m :: older).map accountedBytes).sum + bytes =
            (older.map accountedBytes).sum + (bytes + accountedBytes m) := by
          rw [List.map_cons, List.sum_cons]
          omega
        rw [if_pos hpin, hentries, hbytes, ih hrest, List.filter_cons_of_pos (by simpa using hpin),
          List.length_cons, List.map_cons, List.sum_cons, Nat.add_right_comm _ 1,
          Nat.add_comm (accountedBytes m), Nat.add_right_comm _ (accountedBytes m), Nat.add_assoc,
          Nat.add_assoc]
      · have hentries : (m :: older).length + entries - 1 = older.length + entries := by
          rw [List.length_cons]
          omega
        have hbytes : ((m :: older).map accountedBytes).sum + bytes - accountedBytes m =
            (older.map accountedBytes).sum + bytes := by
          rw [List.map_cons, List.sum_cons]
          omega
        rw [if_neg hpin, List.filter_cons_of_neg (by simpa using hpin), hentries, hbytes,
          List.mem_cons, or_iff_right hne, ih hrest]

end KhaosStore

namespace KhaosDatabase

variable [RetainedSize T]
variable {numberOf : BlockId → Int} {db : KhaosDatabase T}

/-- **The node of the head stays** if the budgets have room for the block beside it. -/
theorem survives_iff (h : db.linked.Ordered numberOf) {size : Nat} {pinned : Option Nat}
    {victims : List (KhaosNode T)} (hv : db.linked.checkResourceLimit size pinned = .ok victims)
    {n : KhaosNode T} (hn : n ∈ db.linked.entries) :
    KhaosStore.survives victims n = true ↔ pinned = some n.uid ∨
      (db.keptWith pinned n).length < db.linked.maxEntries ∧
        ((db.keptWith pinned n).map KhaosStore.accountedBytes).sum + size ≤ db.linked.maxBytes := by
  obtain ⟨⟨older, newer, hen, hvi⟩, -⟩ := KhaosStore.checkResourceLimit_ok hv
  have hmem : KhaosStore.survives victims n = true ↔ n ∉ victims := by
    rw [KhaosStore.survives, List.all_eq_true]
    refine ⟨fun hall hn => by simpa using hall n hn, fun hnot victim hvictim => ?_⟩
    rw [decide_eq_true_iff]
    rintro huid
    refine hnot (h.eq_of_uid hn ?_ huid ▸ hvictim)
    rw [hvi] at hvictim
    rw [hen]
    exact List.mem_append_left _ (List.mem_filter.mp hvictim).1
  rw [hmem]
  by_cases hpin : pinned = some n.uid
  · refine iff_of_true ?_ (.inl hpin)
    rw [hvi]
    exact fun hm => of_decide_eq_true (List.mem_filter.mp hm).2 hpin
  · set older := db.linked.entries.takeWhile fun m => m.uid ≠ n.uid with holder
    obtain ⟨newer, hnewer⟩ : ∃ newer,
        db.linked.entries.dropWhile (fun m => m.uid ≠ n.uid) = n :: newer := by
      cases hd : db.linked.entries.dropWhile fun m => m.uid ≠ n.uid with
      | nil => exact absurd (List.dropWhile_eq_nil_iff.mp hd n hn) (by simp)
      | cons first newer =>
        have hfirst : ¬ (decide (first.uid ≠ n.uid)) = true := by
          have := List.head?_dropWhile_not (fun m : KhaosNode T => m.uid ≠ n.uid) db.linked.entries
          rw [hd] at this
          simpa using this
        have hmem : first ∈ db.linked.entries :=
          (List.dropWhile_sublist _).subset (hd ▸ List.mem_cons_self)
        rw [h.eq_of_uid hmem hn (by simpa using hfirst)]
        exact ⟨newer, rfl⟩
    have hentries : db.linked.entries = older ++ n :: newer := by
      rw [← hnewer, List.takeWhile_append_dropWhile]
    have hnot : n ∉ older := fun hm => by
      simpa using List.all_eq_true.mp List.all_takeWhile n hm
    have hplan := KhaosStore.checkResourceLimit_eq hv
    have hiff : n ∈ (db.linked.makeRoom size pinned (older ++ n :: newer) _ _).1 ↔ _ :=
      KhaosStore.mem_makeRoom_iff hpin hnot newer (newer.length + 1)
        (KhaosStore.accountedBytes n + (newer.map KhaosStore.accountedBytes).sum)
    rw [KhaosStore.totalBytes, hentries] at hplan
    simp only [List.length_append, List.length_cons, List.map_append, List.map_cons,
      List.sum_append, List.sum_cons] at hplan
    rw [hplan] at hiff
    rw [hiff, keptWith, hnewer, ← holder]
    simp [hpin, KhaosStore.fits]

/-! ## Pushes -/

/-- What a push does to the linked store and the head: nothing, or what `pushLinked` does. -/
theorem push_linkedParent (block : KhaosBlockData T) (db : KhaosDatabase T) :
    match db.linkedParent block with
    | none => (push block db).2.linked = db.linked ∧ (push block db).2.head = db.head ∧
        db.nextUid ≤ (push block db).2.nextUid
    | some parent => push block db = pushLinked block parent db := by
  unfold push linkedParent
  rw [Prog.bind_of_ok (Prog.get_run db)]
  by_cases hr : (db.head.isSome && block.parentId ≠ Hash32.zero) = true
  · simp only [hr, if_true]
    cases hp : db.linked.getByHash block.parentId with
    | none =>
      dsimp only
      rcases hru : KhaosStore.insertPinning ⟨block, db.nextUid, none⟩
        (db.getHead.map (·.number)) none db.unlinked with ⟨e | _, unlinked⟩ <;>
        simp only [Prog.bind_run, Prog.modify_run, Prog.zoom, hru, Prog.throw_run] <;>
        exact ⟨trivial, trivial, Nat.le_succ _⟩
    | some parent =>
      dsimp only
      by_cases hn : block.number ≠ parent.block.number + 1
      · rw [if_pos hn, if_pos hn]
        exact ⟨rfl, rfl, le_rfl⟩
      · rw [if_neg hn, if_neg hn]
  · simp only [hr, Bool.false_eq_true, if_false]

theorem pushLinked_of_error {block : KhaosBlockData T} {parent : Option (KhaosNode T)}
    {e : KhaosError} {store : KhaosStore T}
    (h : KhaosStore.insertPinning (db.newNode block parent) (db.getHead.map (·.number)) parent
      db.linked = (.error e, store)) :
    pushLinked block parent db =
      (.error e, { db with linked := store, nextUid := db.nextUid + 1 }) := by
  unfold pushLinked
  rw [newNode] at h
  rw [Prog.bind_of_ok (Prog.get_run db)]
  simp only [Prog.bind_run, Prog.zoom, h, Prog.modify_run, id]

theorem pushLinked_of_ok {block : KhaosBlockData T} {parent : Option (KhaosNode T)}
    {store : KhaosStore T}
    (h : KhaosStore.insertPinning (db.newNode block parent) (db.getHead.map (·.number)) parent
      db.linked = (.ok (), store)) :
    pushLinked block parent db = (.ok (), { db with
      linked := store
      nextUid := db.nextUid + 1
      head := if db.getHead.all (fun head => head.number < block.number) then
        some (db.newNode block parent) else db.head }) := by
  unfold pushLinked
  rw [newNode] at h
  rw [Prog.bind_of_ok (Prog.get_run db)]
  simp only [Prog.bind_run, Prog.zoom, h, Prog.modify_run]
  have hh : ({ db with linked := store, nextUid := db.nextUid + 1 } : KhaosDatabase T).getHead =
    db.getHead := rfl
  rw [hh]
  split <;> rfl

omit [RetainedSize T] in
/-- The parent of a block is pinned as the node that the index finds. -/
theorem linkedParent_found (h : db.linked.Ordered numberOf) {block : KhaosBlockData T}
    {p : KhaosNode T} (hp : db.linkedParent block = some (some p)) :
    db.linked.byHash.lookup p.block.id = some p := by
  unfold linkedParent at hp
  split at hp
  · split at hp
    · rename_i parent hf
      split at hp
      · cases hp
      · cases hp
        rw [(h.mem hf).2]
        exact hf
    · cases hp
  · cases hp

omit [RetainedSize T] in
/-- A node that survives the eviction by height: it is no lower than the head, and not below zero. -/
theorem survivesEvict_head (hc : 0 ≤ db.linked.maxCapacity) {head node : KhaosNode T}
    (hh : db.head = some head) (hn : 0 ≤ node.block.number)
    (hle : head.block.number ≤ node.block.number) :
    db.linked.survivesEvict (db.getHead.map (·.number)) node = true :=
  have hb : db.getHead = some head.block := by
    rw [getHead, hh]
    rfl
  survivesEvict_of_le hc hb hn hle

/-- **A push keeps the head**, where the block fits beside it. -/
theorem HeadRetained.push (h : db.HeadRetained numberOf) {block : KhaosBlockData T}
    (hnu : block.number = numberOf block.id) (hfits : db.HeadFits block) :
    (KhaosDatabase.push block db).2.HeadRetained numberOf := by
  obtain ⟨head, hh, hhn, hno, hk⟩ := h.head
  have hpu := push_linkedParent block db
  cases hpa : db.linkedParent block with
  | none =>
    rw [hpa] at hpu
    obtain ⟨hl, hsa, hu⟩ := hpu
    exact ⟨hl ▸ h.ordered, fun n hn => (h.fresh n (hl ▸ hn)).trans_le hu,
      hl ▸ h.capacity, hsa ▸ hl ▸ h.head⟩
  | some parent =>
    rw [hpa] at hpu
    rw [hpu]
    have hi := h.ordered.insertPinning (db.newNode block parent)
      (fun n hn => (h.fresh n hn).ne) hnu (db.getHead.map (·.number)) parent
      fun p hp => linkedParent_found h.ordered (hp ▸ hpa)
    rcases hr : KhaosStore.insertPinning (db.newNode block parent) (db.getHead.map (·.number))
      parent db.linked with ⟨e | _, store⟩ <;> rw [hr] at hi
    · obtain rfl : store = db.linked := hi
      rw [pushLinked_of_error hr]
      exact ⟨h.ordered, fun n hn => (h.fresh n hn).trans (Nat.lt_succ_self _), h.capacity, h.head⟩
    · obtain ⟨ho, victims, byHash, hv, rfl⟩ := hi
      rw [pushLinked_of_ok hr]
      refine ⟨ho, fun n hn => ?_, h.capacity, ?_⟩
      · rcases List.mem_append.mp (List.mem_filter.mp hn).1 with hn | hn
        · exact (h.fresh n (List.mem_filter.mp hn).1).trans (Nat.lt_succ_self _)
        · rw [List.mem_singleton.mp hn]
          exact Nat.lt_succ_self _
      · have hnew (hle : head.block.number ≤ block.number) :
            db.newNode block parent ∈ (db.linked.entries.filter (KhaosStore.survives victims) ++
              [db.newNode block parent]).filter
                (db.linked.survivesEvict (db.getHead.map (·.number))) :=
          List.mem_filter.mpr ⟨List.mem_append_right _ (List.mem_singleton_self _),
            survivesEvict_head h.capacity hh (hno.trans hle) hle⟩
        by_cases ha : head.block.number < block.number
        · -- the new block is the head
          refine ⟨db.newNode block parent, ?_, hnu, hno.trans ha.le,
            db.newNode block parent, hnew ha.le, rfl⟩
          dsimp only
          rw [getHead, hh]
          simp [ha]
        by_cases hsame : block.id = head.block.id
        · -- the head comes again
          refine ⟨head, ?_, hhn, hno, db.newNode block parent, hnew ?_, hsame⟩
          · dsimp only
            rw [getHead, hh]
            simp [ha]
          · rw [hnu, hsame, ← hhn]
        · -- the head stays, and so does the node that the index finds for it
          obtain ⟨n, hn⟩ := Option.isSome_iff_exists.mp (h.ordered.isSome_lookup.mpr hk)
          obtain ⟨hm, hid⟩ := h.ordered.mem hn
          have hs : KhaosStore.survives victims n = true := by
            refine (survives_iff h.ordered hv hm).mpr ?_
            refine (hfits parent hpa head hh (not_lt.mp ha) hsame n hn).resolve_left ?_
            have hcheck : db.linked.checkResourceLimit
                (khaosBlockOverhead + RetainedSize.retainedSize block.value)
                (parent.map (·.uid)) = .ok victims := hv
            rw [hcheck]
            exact Bool.noConfusion
          have hle : head.block.number ≤ n.block.number := by
            rw [h.ordered.numbered n hm, hid, hhn]
          refine ⟨head, ?_, hhn, hno, n, List.mem_filter.mpr ⟨?_, ?_⟩, hid⟩
          · dsimp only
            rw [getHead, hh]
            simp [ha]
          · exact List.mem_append_left _ (List.mem_filter.mpr ⟨hm, hs⟩)
          · exact survivesEvict_head h.capacity hh (hno.trans hle) hle

/-- **A push that succeeds takes the head**, where the block does not fit beside it. -/
theorem HeadRetained.push_lost (h : db.HeadRetained numberOf) {block : KhaosBlockData T}
    (hnu : block.number = numberOf block.id) (hok : (KhaosDatabase.push block db).1 = .ok ())
    (hfits : ¬ db.HeadFits block) : (KhaosDatabase.push block db).2.HeadLost := by
  unfold HeadFits at hfits
  push Not at hfits
  obtain ⟨parent, hpa, head, hh, hle, hne, n, hn, hfull⟩ := hfits
  have hpu := push_linkedParent block db
  rw [show db.linkedParent block = some parent from hpa] at hpu
  rw [show KhaosDatabase.push block db = pushLinked block parent db from hpu] at hok ⊢
  have hi := h.ordered.insertPinning (db.newNode block parent)
    (fun n hn => (h.fresh n hn).ne) hnu (db.getHead.map (·.number)) parent
    fun p hp => linkedParent_found h.ordered (hp ▸ hpa)
  rcases hr : KhaosStore.insertPinning (db.newNode block parent) (db.getHead.map (·.number))
    parent db.linked with ⟨e | _, store⟩ <;> rw [hr] at hi
  · rw [pushLinked_of_error hr] at hok
    cases hok
  obtain ⟨ho, victims, byHash, hv, rfl⟩ := hi
  rw [pushLinked_of_ok hr]
  obtain ⟨hm, hid⟩ := h.ordered.mem hn
  have hgone : KhaosStore.survives victims n = false := by
    rw [← Bool.not_eq_true, survives_iff h.ordered hv hm]
    exact fun hstays => hfull (.inr hstays)
  have hall : ∀ m ∈ db.linked.entries, m.block.id = head.block.id →
      KhaosStore.survives victims m = false := by
    obtain ⟨⟨older, newer, hentries, hvictims⟩, -⟩ := KhaosStore.checkResourceLimit_ok hv
    have hevicted := hvictims ▸ h.ordered.evictAll hentries fun uid huid => by
      obtain ⟨p, rfl, rfl⟩ := Option.map_eq_some_iff.mp huid
      exact ⟨p, rfl, linkedParent_found h.ordered hpa⟩
    intro m hmem hmid
    rw [← Bool.not_eq_true]
    intro hsurvives
    -- the index would still find the block
    have hfound := hevicted.isSome_lookup.mpr ⟨m, by
      rw [KhaosStore.evictAll_entries]
      exact List.mem_filter.mpr ⟨hmem, hsurvives⟩, hmid⟩
    rw [KhaosStore.lookup_evictAll h.ordered.indexes, show db.linked.byHash.lookup head.block.id =
      some n from hn, Option.filter_some, hgone] at hfound
    · cases hfound
    · intro victim hvictim m hm hu
      rw [hvictims] at hvictim
      refine h.ordered.eq_of_uid hm ?_ hu
      rw [hentries]
      exact List.mem_append_left _ (List.mem_filter.mp hvictim).1
  refine ⟨head, ?_, ?_⟩
  · dsimp only
    rw [getHead, hh]
    simp [not_lt.mpr hle]
  · rw [← Option.not_isSome_iff_eq_none]
    intro hsome
    obtain ⟨m, hm, hmid⟩ := ho.isSome_lookup.mp hsome
    rcases List.mem_append.mp (List.mem_filter.mp hm).1 with hm | hm
    · obtain ⟨hmem, hsurvives⟩ := List.mem_filter.mp hm
      rw [hall m hmem hmid] at hsurvives
      cases hsurvives
    · rw [List.mem_singleton.mp hm] at hmid
      exact hne hmid

omit [RetainedSize T] in
theorem HeadRetained.setLimits (h : db.HeadRetained numberOf) (limits : KhaosLimits) :
    (db.setLimits limits).HeadRetained numberOf :=
  ⟨⟨h.ordered.uids, h.ordered.newest, h.ordered.numbered⟩, h.fresh, h.capacity, h.head⟩

omit [RetainedSize T] in
theorem HeadRetained.setMaxSize (h : db.HeadRetained numberOf) {maxSize : Int} (hm : 0 ≤ maxSize) :
    (db.setMaxSize maxSize).HeadRetained numberOf :=
  ⟨⟨h.ordered.uids, h.ordered.newest, h.ordered.numbered⟩, h.fresh, hm, h.head⟩

/-- The index finds the head, and another block may go on top of it as far as the limits allow. -/
theorem HeadRetained.found (h : db.HeadRetained numberOf) : ∃ head, db.head = some head ∧
      (∃ n, db.linked.getByHash head.block.id = some n ∧ n.block.id = head.block.id ∧
        n.block.number = head.block.number) ∧
      ∀ size, db.checkLinkedResource head.block.id size ≠ .error .nonCommonBlock := by
  obtain ⟨head, hh, hnu, -, hk⟩ := h.head
  obtain ⟨n, hn⟩ := Option.isSome_iff_exists.mp (h.ordered.isSome_lookup.mpr hk)
  obtain ⟨hm, hid⟩ := h.ordered.mem hn
  refine ⟨head, hh, ⟨n, hn, hid, ?_⟩, fun size hno => ?_⟩
  · rw [h.ordered.numbered n hm, hid, hnu]
  · have hg : db.linked.getByHash head.block.id = some n := hn
    rw [checkLinkedResource, hg] at hno
    dsimp only at hno
    -- the only refusal is for want of room
    unfold KhaosStore.checkResourceLimit at hno
    split at hno
    · cases hno
    · split at hno <;> cases hno

/-! ## Runs -/

/-- A graph before its first block, with any limits. -/
inductive Configured : KhaosDatabase T → Prop where
  | new : Configured new
  | setLimits {db : KhaosDatabase T} (limits : KhaosLimits) :
      Configured db → Configured (db.setLimits limits)
  | setMaxSize {db : KhaosDatabase T} {maxSize : Int} :
      0 ≤ maxSize → Configured db → Configured (db.setMaxSize maxSize)

omit [RetainedSize T] in
/-- Before the first block the linked store is empty. -/
theorem Configured.empty (h : Configured db) :
    db.linked.byHash = ∅ ∧ db.linked.entries = [] ∧ 0 ≤ db.linked.maxCapacity := by
  induction h with
  | new => exact ⟨rfl, rfl, (by decide : (0 : Int) ≤ 1024)⟩
  | setLimits limits _ ih => exact ih
  | setMaxSize hm _ ih => exact ⟨ih.1, ih.2.1, hm⟩

/-- The graphs that pushes reach from a first block, which meets `first`, while each pushed block
meets `next` in the graph that it is pushed to. -/
inductive Pushes (first : KhaosBlockData T → Prop)
    (next : KhaosDatabase T → KhaosBlockData T → Prop) : KhaosDatabase T → Prop where
  | start {db : KhaosDatabase T} {block : KhaosBlockData T} :
      Configured db → first block → (start block db).1 = .ok () →
        Pushes first next (start block db).2
  | push {db : KhaosDatabase T} {block : KhaosBlockData T} :
      Pushes first next db → next db block → Pushes first next (push block db).2
  | setLimits {db : KhaosDatabase T} (limits : KhaosLimits) :
      Pushes first next db → Pushes first next (db.setLimits limits)
  | setMaxSize {db : KhaosDatabase T} {maxSize : Int} :
      0 ≤ maxSize → Pushes first next db → Pushes first next (db.setMaxSize maxSize)

/-- A first block that is not below zero stays: in an empty store nothing else could go. -/
theorem HeadRetained.start (h : Configured db) {block : KhaosBlockData T}
    (hnu : block.number = numberOf block.id) (hno : 0 ≤ block.number)
    (hok : (start block db).1 = .ok ()) :
    (KhaosDatabase.start block db).2.HeadRetained numberOf := by
  obtain ⟨hin, he, hc⟩ := h.empty
  have ho : db.linked.Ordered numberOf :=
    ⟨by rw [he]; exact List.nodup_nil, fun id => by rw [hin, KhaosStore.withId, he]; rfl,
      fun n hn => by rw [he] at hn; cases hn⟩
  unfold KhaosDatabase.start at hok ⊢
  rw [Prog.bind_of_ok (Prog.get_run db)] at hok ⊢
  have hi := ho.insertPinning ⟨block, db.nextUid, none⟩
    (fun n hn => by rw [he] at hn; cases hn) hnu (some block.number) none
    (fun p hp => by cases hp)
  rcases hr : KhaosStore.insertPinning ⟨block, db.nextUid, none⟩ (some block.number) none
    db.linked with ⟨e | _, store⟩
  · simp only [Prog.bind_run, Prog.modify_run, Prog.zoom, hr] at hok
    cases hok
  · rw [hr] at hi
    simp only [Prog.bind_run, Prog.modify_run, Prog.zoom, hr]
    obtain ⟨ho', victims, byHash, -, rfl⟩ := hi
    rw [he] at ho' ⊢
    refine ⟨ho', fun n hn => ?_, hc, _, rfl, hnu, hno, _,
      List.mem_filter.mpr ⟨List.mem_append_right _ (List.mem_singleton_self _), ?_⟩, rfl⟩
    · rw [List.mem_singleton.mp (List.mem_filter.mp hn).1]
      exact Nat.lt_succ_self _
    · simp only [KhaosStore.survivesEvict, Option.all_some, decide_eq_true_eq, not_lt]
      omega

/-- The pushes that keep the head: the ids determine the numbers, and each block fits. -/
theorem Pushes.headRetained
    (h : Pushes (fun block => block.number = numberOf block.id ∧ 0 ≤ block.number)
      (fun db block => block.number = numberOf block.id ∧ db.HeadFits block) db) :
    db.HeadRetained numberOf := by
  induction h with
  | start hc hf hok => exact .start hc hf.1 hf.2 hok
  | push _ hn ih => exact ih.push hn.1 hn.2
  | setLimits limits _ ih => exact ih.setLimits limits
  | setMaxSize hm _ ih => exact ih.setMaxSize hm

/-- **The head is retained** in every run from a first block that is not below zero, if the ids of
the blocks determine their numbers and each block fits the budgets beside the head; the next push
that succeeds with a block that does not fit takes the head. -/
theorem head_retained {numberOf : BlockId → Int} {db : KhaosDatabase T}
    (h : Pushes (fun block => block.number = numberOf block.id ∧ 0 ≤ block.number)
      (fun db block => block.number = numberOf block.id ∧ db.HeadFits block) db) :
    (∃ head, db.head = some head ∧
      (∃ n, db.linked.getByHash head.block.id = some n ∧ n.block.id = head.block.id ∧
        n.block.number = head.block.number) ∧
      ∀ size, db.checkLinkedResource head.block.id size ≠ .error .nonCommonBlock) ∧
    ∀ block : KhaosBlockData T, block.number = numberOf block.id →
      (push block db).1 = .ok () → ¬ db.HeadFits block → (push block db).2.HeadLost :=
  ⟨h.headRetained.found, fun _ hnumber hok hfits => h.headRetained.push_lost hnumber hok hfits⟩

/-- A byte, as a payload. -/
instance : RetainedSize UInt8 := ⟨fun _ => 1⟩

/-- A block with the height in its id, told from others at its height by `marker`. -/
def sampleBlock (number : Int) (marker : UInt8) (parentId : Hash32) : KhaosBlockData UInt8 :=
  ⟨.new number ⟨.replicate 32 marker, Hash32.length_replicate marker⟩, parentId, number, marker⟩

/-- A graph with room for `entries` blocks in a height window of `capacity`, started at height
zero. -/
def sampleStart (capacity : Int) (entries : Nat) : KhaosDatabase UInt8 :=
  (start (sampleBlock 0 9 .zero) ((new.setMaxSize capacity).setLimits ⟨entries, 1000, 2, 1000⟩)).2

theorem sampleStart_pushes {first : KhaosBlockData UInt8 → Prop}
    {next : KhaosDatabase UInt8 → KhaosBlockData UInt8 → Prop} (h : first (sampleBlock 0 9 .zero))
    {capacity : Int} (hcapacity : 0 ≤ capacity) {entries : Nat}
    (hok : (start (sampleBlock 0 9 .zero)
      ((new.setMaxSize capacity).setLimits ⟨entries, 1000, 2, 1000⟩)).1.isOk = true) :
    Pushes first next (sampleStart capacity entries) := by
  refine .start (.setLimits _ (.setMaxSize hcapacity .new)) h ?_
  revert hok
  cases (start (sampleBlock 0 9 .zero)
    ((new.setMaxSize capacity).setLimits ⟨entries, 1000, 2, 1000⟩)).1 with
  | ok _ => exact fun _ => rfl
  | error _ => exact fun hok => nomatch hok

/-- A child of the first block, and a child of that. -/
def sampleChild (marker : UInt8) : KhaosBlockData UInt8 :=
  sampleBlock 1 marker (sampleBlock 0 9 .zero).id

def sampleGrandchild (marker : UInt8) : KhaosBlockData UInt8 :=
  sampleBlock 2 marker (sampleChild 1).id

/-- The graph with room for three blocks, after two blocks at the height of its head. -/
def sampleFull : KhaosDatabase UInt8 :=
  (push (sampleGrandchild 3) (push (sampleGrandchild 2) (push (sampleChild 1)
    (sampleStart 8 3)).2).2).2

/-- The first block goes for the second block at the height of the head, and the head stays; a third
one would take it. -/
theorem head_retained_sample :
    (sampleFull.linked.getByHash (sampleBlock 0 9 .zero).id).isNone = true ∧
    (∃ head, sampleFull.head = some head ∧
      ∃ n, sampleFull.linked.getByHash head.block.id = some n) ∧
    (push (sampleGrandchild 4) sampleFull).2.HeadLost := by
  have hstart : Pushes (fun block => block.number = block.id.height ∧ 0 ≤ block.number)
      (fun db block => block.number = block.id.height ∧ db.HeadFits block) (sampleStart 8 3) :=
    sampleStart_pushes ⟨by decide, by decide⟩ (by decide) (by decide)
  have hfull : Pushes (fun block => block.number = block.id.height ∧ 0 ≤ block.number)
      (fun db block => block.number = block.id.height ∧ db.HeadFits block) sampleFull :=
    .push (.push (.push hstart ⟨by decide, by decide⟩) ⟨by decide, by decide⟩)
      ⟨by decide, by decide⟩
  obtain ⟨⟨head, hhead, ⟨n, hn, -⟩, -⟩, hnext⟩ := head_retained hfull
  exact ⟨by decide, ⟨head, hhead, n, hn⟩,
    hnext (sampleGrandchild 4) (by decide) (by rfl) (by decide)⟩

omit [RetainedSize T] in
theorem headLost_of_isNone {db : KhaosDatabase T} (id : BlockId)
    (hh : db.head.map (·.block.id) = some id) (hl : (db.linked.getByHash id).isNone = true) :
    db.HeadLost := by
  obtain ⟨head, hs, rfl⟩ := Option.map_eq_some_iff.mp hh
  exact ⟨head, hs, Option.isNone_iff_eq_none.mp hl⟩

/-- The graph in which a second child of the first block takes the place of the head: there is room
for two blocks, and the parent stays. -/
def samplePressed : KhaosDatabase UInt8 :=
  (push (sampleChild 2) (push (sampleChild 1) (sampleStart 0 2)).2).2

/-- A graph started below zero. -/
def sampleBelow : KhaosDatabase UInt8 := (start (sampleBlock (-1) 9 .zero) (new.setMaxSize 0)).2

/-- The graph after the id of the head came again with the number zero, below the height window. -/
def sampleRepeated : KhaosDatabase UInt8 :=
  (push { sampleChild 1 with parentId := .zero, number := 0 }
    (push (sampleChild 1) (sampleStart 0 8)).2).2

theorem Pushes.any {first : KhaosBlockData T → Prop}
    {next : KhaosDatabase T → KhaosBlockData T → Prop} {db : KhaosDatabase T}
    (h : Pushes first next db) : Pushes (fun _ => True) (fun _ _ => True) db := by
  induction h with
  | start hc _ hok => exact .start hc trivial hok
  | push _ _ ih => exact .push ih trivial
  | setLimits limits _ ih => exact .setLimits limits ih
  | setMaxSize hm _ ih => exact .setMaxSize hm ih

/-- **The head may go** where a push presses it out, where it is below zero, or where its id comes
again with another number. -/
theorem head_lost :
    ¬ (∀ db : KhaosDatabase UInt8, Pushes (fun _ => True) (fun _ _ => True) db →
      ∀ head, db.head = some head → (db.linked.getByHash head.block.id).isSome = true) ∧
    (Pushes (fun block => block.number = block.id.height ∧ 0 ≤ block.number)
      (fun _ block => block.number = block.id.height) samplePressed ∧ samplePressed.HeadLost) ∧
    (Pushes (fun block => block.number = block.id.height)
      (fun db block => block.number = block.id.height ∧ db.HeadFits block) sampleBelow ∧
      sampleBelow.HeadLost) ∧
    (Pushes (fun block => 0 ≤ block.number) HeadFits sampleRepeated ∧
      sampleRepeated.HeadLost) := by
  have hpressed : Pushes (fun block => block.number = block.id.height ∧ 0 ≤ block.number)
      (fun _ block => block.number = block.id.height) samplePressed := by
    have hstart : Pushes (fun block => block.number = block.id.height ∧ 0 ≤ block.number)
        (fun _ block => block.number = block.id.height) (sampleStart 0 2) :=
      sampleStart_pushes ⟨by decide, by decide⟩ (by decide) (by decide)
    exact .push (.push hstart (by decide)) (by decide)
  have hlost : samplePressed.HeadLost :=
    headLost_of_isNone (sampleChild 1).id (by decide) (by decide)
  refine ⟨fun hclaim => ?_, ⟨hpressed, hlost⟩, ⟨?_, ?_⟩, ?_, ?_⟩
  · obtain ⟨head, hhead, hnone⟩ := hlost
    have hsome := hclaim samplePressed hpressed.any head hhead
    rw [hnone] at hsome
    cases hsome
  · exact .start (.setMaxSize le_rfl .new) (by decide) (by rfl)
  · exact headLost_of_isNone (sampleBlock (-1) 9 .zero).id (by decide)
      (by decide)
  · have hstart : Pushes (fun block => 0 ≤ block.number) HeadFits (sampleStart 0 8) :=
      sampleStart_pushes (by decide) (by decide) (by decide)
    exact .push (.push hstart (by decide)) (by decide)
  · exact headLost_of_isNone (sampleChild 1).id (by decide) (by decide)

end KhaosDatabase

end RustTron.State
