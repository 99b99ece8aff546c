import RustTron.State.Khaos

/-!
# The linked blocks and the head

A store of Khaos is coherent: no block is in it twice, and its index finds every node it holds.
Pushing a block above the head makes it the head, and no block is higher than it.

## Main definitions

* `KhaosStore.Coherent`: the list and the index of a store agree
* `KhaosDatabase.HeadOnTop`: no linked block is higher than the head

## Main results

* `KhaosStore.insertPinning_spec`: what an insertion keeps and adds
* `KhaosDatabase.push_spec`, `Pushed.above`: a pushed block above the head is the new head
* `KhaosDatabase.HeadOnTop.pushed_above`: it stays the highest linked block
-/

namespace RustTron.State

variable {T : Type}

namespace KhaosStore

/-- No block is in the store twice, and the index finds every node. -/
structure Coherent (store : KhaosStore T) : Prop where
  nodup : (store.entries.map (·.block.id)).Nodup
  indexed : ∀ n ∈ store.entries, store.byHash.lookup n.block.id = some n

variable {store : KhaosStore T}

theorem Coherent.eq_of_id (h : store.Coherent) {n m : KhaosNode T} (hn : n ∈ store.entries)
    (hm : m ∈ store.entries) (hid : n.block.id = m.block.id) : n = m := by
  have hb := h.indexed n hn
  rw [hid, h.indexed m hm] at hb
  exact (Option.some.inj hb).symm

theorem Coherent.filter (h : store.Coherent) (keep : KhaosNode T → Bool)
    {byHash : FMap BlockId (KhaosNode T)}
    (hi : ∀ n ∈ store.entries, keep n = true →
      byHash.lookup n.block.id = store.byHash.lookup n.block.id) :
    ({ store with entries := store.entries.filter keep, byHash := byHash } :
      KhaosStore T).Coherent where
  nodup := h.nodup.sublist (List.filter_sublist.map _)
  indexed := by
    intro n hn
    obtain ⟨hm, hk⟩ := List.mem_filter.mp hn
    exact (hi n hm hk).trans (h.indexed n hm)

theorem lookup_foldl_erase (expired : List (KhaosNode T)) (m : FMap BlockId (KhaosNode T))
    {id : BlockId} (h : ∀ n ∈ expired, n.block.id ≠ id) :
    (expired.foldl (fun m n => m.erase n.block.id) m).lookup id = m.lookup id := by
  induction expired generalizing m with
  | nil => rfl
  | cons n expired ih =>
    rw [List.foldl_cons, ih _ fun n' hn' => h n' (List.mem_cons_of_mem _ hn')]
    exact Finmap.lookup_erase_ne (h n List.mem_cons_self).symm

theorem Coherent.evict (h : store.Coherent) (headNumber : Int) :
    (store.evict headNumber).Coherent := by
  refine h.filter _ fun n hn hk => lookup_foldl_erase _ _ fun m hm hid => ?_
  obtain ⟨hme, he⟩ := List.mem_filter.mp hm
  rw [h.eq_of_id hme hn hid] at he
  exact of_decide_eq_true hk (of_decide_eq_true he)

theorem Coherent.evictEntry (h : store.Coherent) (victim : KhaosNode T) :
    (store.evictEntry victim).Coherent := by
  unfold KhaosStore.evictEntry
  split
  · refine h.filter _ fun n hn hk => ?_
    split
    · rename_i hi
      rw [Finmap.lookup_erase_ne]
      intro hid
      rw [← hid, h.indexed n hn] at hi
      simp_all
    · rfl
  · exact h

theorem Coherent.insert (h : store.Coherent) (node : KhaosNode T)
    (hne : store.byHash.lookup node.block.id = none) :
    ({ store with
      byHash := store.byHash.insert node.block.id node
      entries := store.entries ++ [node] } : KhaosStore T).Coherent where
  nodup := by
    rw [List.map_append, List.nodup_append]
    refine ⟨h.nodup, List.nodup_singleton _, ?_⟩
    intro id hid id' hi' heq
    obtain ⟨n, hn, rfl⟩ := List.mem_map.mp hid
    rw [List.map_singleton, List.mem_singleton] at hi'
    rw [← hi', ← heq, h.indexed n hn] at hne
    cases hne
  indexed := by
    intro n hn
    rcases List.mem_append.mp hn with hn | hn
    · rw [Finmap.lookup_insert_of_ne]
      · exact h.indexed n hn
      · intro hid
        rw [← hid, h.indexed n hn] at hne
        cases hne
    · rw [List.mem_singleton.mp hn]
      exact Finmap.lookup_insert _

theorem evictEntry_entries (victim : KhaosNode T) :
    (store.evictEntry victim).entries = store.entries.filter fun n => n.uid ≠ victim.uid := by
  unfold evictEntry
  split
  · rfl
  · rename_i hno
    refine (List.filter_eq_self.mpr fun n hn => ?_).symm
    simp only [List.any_eq_true, not_exists, not_and, decide_eq_true_eq] at hno
    simpa using hno n hn

/-- The nodes that are left when these have gone. -/
def survives (victims : List (KhaosNode T)) (n : KhaosNode T) : Bool :=
  victims.all fun victim => n.uid ≠ victim.uid

theorem evictAll_entries (victims : List (KhaosNode T)) (store : KhaosStore T) :
    (victims.foldl evictEntry store).entries = store.entries.filter (survives victims) := by
  induction victims generalizing store with
  | nil => exact (List.filter_eq_self.mpr fun _ _ => rfl).symm
  | cons victim victims ih =>
    rw [List.foldl_cons, ih, evictEntry_entries, List.filter_filter]
    refine List.filter_congr fun n _ => ?_
    simp only [survives, List.all_cons, Bool.and_comm]

theorem Coherent.evictAll (h : store.Coherent) (victims : List (KhaosNode T)) :
    (victims.foldl KhaosStore.evictEntry store).Coherent := by
  induction victims generalizing store with
  | nil => exact h
  | cons victim victims ih => exact ih (h.evictEntry victim)

theorem evictEntry_maxCapacity (victim : KhaosNode T) :
    (store.evictEntry victim).maxCapacity = store.maxCapacity := by
  unfold evictEntry
  split <;> rfl

theorem evictAll_maxCapacity (victims : List (KhaosNode T)) (store : KhaosStore T) :
    (victims.foldl evictEntry store).maxCapacity = store.maxCapacity := by
  induction victims generalizing store with
  | nil => rfl
  | cons victim victims ih => rw [List.foldl_cons, ih, evictEntry_maxCapacity]

theorem lookup_evictEntry_of_none {id : BlockId} (h : store.byHash.lookup id = none)
    (victim : KhaosNode T) : (store.evictEntry victim).byHash.lookup id = none := by
  unfold evictEntry
  split
  · dsimp only
    split
    · by_cases hid : id = victim.block.id
      · rw [hid]
        exact Finmap.lookup_erase _ _
      · rw [Finmap.lookup_erase_ne hid]
        exact h
    · exact h
  · exact h

theorem lookup_evictAll_of_none {id : BlockId} (victims : List (KhaosNode T))
    (h : store.byHash.lookup id = none) :
    (victims.foldl evictEntry store).byHash.lookup id = none := by
  induction victims generalizing store with
  | nil => exact h
  | cons victim victims ih => exact ih (lookup_evictEntry_of_none h victim)

variable [RetainedSize T]

/-- A node that is not below the cutoff of `evict`. -/
def survivesEvict (store : KhaosStore T) (headNumber : Option Int) (n : KhaosNode T) : Bool :=
  headNumber.all fun headNumber =>
    ¬ n.block.number < max 0 (min i64Max (headNumber - store.maxCapacity))

/-- **An insertion**: old nodes may go, and the new node comes last. -/
theorem insertPinning_spec (h : store.Coherent) {node : KhaosNode T}
    (hn : store.byHash.lookup node.block.id = none) {headNumber : Option Int}
    {pinned : Option (KhaosNode T)} {store' : KhaosStore T}
    (hi : insertPinning node headNumber pinned store = (.ok (), store')) :
    store'.Coherent ∧ store'.maxCapacity = store.maxCapacity ∧
      ∃ victims : List (KhaosNode T),
        store'.entries = (store.entries.filter (survives victims) ++ [node]).filter
          (store.survivesEvict headNumber) := by
  unfold insertPinning at hi
  rw [Prog.bind_of_ok (Prog.get_run store)] at hi
  rcases hch : store.checkResourceLimit (accountedBytes node) (pinned.map (·.uid)) with
    e | victims <;> rw [hch] at hi
  · cases hi
  rw [Prog.bind_of_ok (Prog.ofExcept_ok_run _ victims store),
    Prog.bind_of_ok (Prog.modify_run _ store), Prog.bind_of_ok (Prog.get_run _)] at hi
  have he := evictAll_entries victims store
  have hc := evictAll_maxCapacity victims store
  have hco := (h.evictAll victims).insert node (lookup_evictAll_of_none victims hn)
  generalize victims.foldl evictEntry store = store₁ at he hc hco hi
  cases headNumber with
  | none =>
    have hd : store₁.entries ++ [node] = (store.entries.filter (survives victims) ++
        [node]).filter (store.survivesEvict none) := by
      rw [he]
      exact (List.filter_eq_self.mpr fun _ _ => rfl).symm
    rcases pinned with _ | parent
    · cases hi
      exact ⟨hco, hc, victims, hd⟩
    · dsimp only at hi
      split_ifs at hi
      · cases hi
        exact ⟨hco, hc, victims, hd⟩
      · cases hi
  | some number =>
    have hd : (store₁.entries ++ [node]).filter (fun n => ¬ n.block.number <
        max 0 (min i64Max (number - store₁.maxCapacity))) =
          (store.entries.filter (survives victims) ++ [node]).filter
            (store.survivesEvict (some number)) := by
      rw [he, hc]
      rfl
    rcases pinned with _ | parent
    · cases hi
      exact ⟨hco.evict number, hc, victims, hd⟩
    · dsimp only at hi
      split_ifs at hi
      · cases hi
        exact ⟨hco.evict number, hc, victims, hd⟩
      · cases hi

omit [RetainedSize T]

/-- One step of `highest_first`. -/
def higher (best : Option (KhaosNode T)) (node : KhaosNode T) : Option (KhaosNode T) :=
  match best with
  | none => some node
  | some b => if b.block.number < node.block.number then some node else some b

end KhaosStore

/-! ## Pushing a block -/

namespace KhaosDatabase

variable {db db' : KhaosDatabase T} {data : KhaosBlockData T}

/-- The node that a push makes. -/
def newNode (db : KhaosDatabase T) (data : KhaosBlockData T) (parent : Option (KhaosNode T)) :
    KhaosNode T :=
  ⟨data, db.nextUid, parent.map (·.uid)⟩

/-- The database after a block was linked under `parent`. -/
structure Pushed (data : KhaosBlockData T) (parent : Option (KhaosNode T))
    (db db' : KhaosDatabase T) : Prop where
  linked : db'.linked.Coherent
  capacity : db'.linked.maxCapacity = db.linked.maxCapacity
  head : db'.head = if db.getHead.all (fun head => head.number < data.number) then
    some (db.newNode data parent) else db.head
  entries : ∃ victims : List (KhaosNode T), db'.linked.entries = (db.linked.entries.filter (KhaosStore.survives victims) ++
      [db.newNode data parent]).filter (db.linked.survivesEvict (db.getHead.map (·.number)))

/-- The parent that `push` resolves for a block. -/
def resolvedParent (db : KhaosDatabase T) (data : KhaosBlockData T) : Option (KhaosNode T) :=
  if db.head.isSome && data.parentId ≠ Hash32.zero then db.linked.getByHash data.parentId else none

variable [RetainedSize T]

theorem pushLinked_spec (h : db.linked.Coherent) (hn : db.linked.getByHash data.id = none)
    {parent : Option (KhaosNode T)} (hp : pushLinked data parent db = (.ok (), db')) :
    Pushed data parent db db' := by
  unfold pushLinked at hp
  rw [Prog.bind_of_ok (Prog.get_run db), Prog.bind_of_ok (Prog.modify_run _ db)] at hp
  rcases hr : KhaosStore.insertPinning (db.newNode data parent)
    (db.getHead.map (·.number)) parent db.linked with ⟨e | _, linked⟩
  · rw [newNode] at hr
    simp only [Prog.bind_run, Prog.zoom, hr] at hp
    cases hp
  obtain ⟨hco, hc, hv⟩ := KhaosStore.insertPinning_spec h
    (show db.linked.byHash.lookup (db.newNode data parent).block.id = none from hn) hr
  rw [newNode] at hr
  simp only [Prog.bind_run, Prog.zoom, hr, Prog.modify_run] at hp
  cases hp
  by_cases ha : db.getHead.all (fun head => head.number < data.number) = true
  · have hh : (if db.getHead.all (fun head => head.number < data.number) = true then
      some (db.newNode data parent) else db.head) = some (db.newNode data parent) := if_pos ha
    rw [getHead] at ha
    simp only [getHead, ha, if_true]
    exact ⟨hco, hc, hh.symm, hv⟩
  · have hh : (if db.getHead.all (fun head => head.number < data.number) = true then
      some (db.newNode data parent) else db.head) = db.head := if_neg ha
    rw [getHead] at ha
    simp only [getHead, ha]
    exact ⟨hco, hc, hh.symm, hv⟩

/-- **Pushing a new block** links it under its parent. -/
theorem push_spec (h : db.linked.Coherent) (hne : db.linked.getByHash data.id = none)
    (hp : push data db = (.ok (), db')) : Pushed data (db.resolvedParent data) db db' := by
  unfold push at hp
  unfold resolvedParent
  rw [Prog.bind_of_ok (Prog.get_run db)] at hp
  by_cases hl : (db.head.isSome && data.parentId ≠ Hash32.zero) = true
  · rw [if_pos hl] at hp ⊢
    cases hparent : db.linked.getByHash data.parentId with
    | none =>
      rw [hparent] at hp
      rcases hr : KhaosStore.insertPinning ⟨data, db.nextUid, none⟩
        (db.getHead.map (·.number)) none db.unlinked with ⟨e | _, unlinked⟩ <;>
        simp only [Prog.bind_run, Prog.modify_run, Prog.zoom, hr, Prog.throw_run] at hp <;>
        cases hp
    | some parent =>
      rw [hparent] at hp
      by_cases hn : data.number ≠ parent.block.number + 1
      · simp only [if_pos hn] at hp
        cases hp
      · simp only [if_neg hn] at hp
        exact pushLinked_spec h hne hp
  · rw [if_neg hl] at hp ⊢
    exact pushLinked_spec h hne hp

omit [RetainedSize T]

theorem survivesEvict_of_le (hc : 0 ≤ db.linked.maxCapacity) {head : KhaosBlockData T}
    (hh : db.getHead = some head) {node : KhaosNode T} (hn : 0 ≤ node.block.number)
    (hle : head.number ≤ node.block.number) :
    db.linked.survivesEvict (db.getHead.map (·.number)) node = true := by
  simp only [KhaosStore.survivesEvict, hh, Option.map_some, Option.all_some, decide_eq_true_eq,
    not_lt]
  omega

/-- **A block above the head** that is pushed is the new head, and Khaos finds it. -/
theorem Pushed.above {parent : Option (KhaosNode T)} (h : Pushed data parent db db')
    (hc : 0 ≤ db.linked.maxCapacity) {head : KhaosBlockData T}
    (hh : db.getHead = some head) (hn : head.number < data.number)
    (hno : 0 ≤ data.number) :
    db'.getHead = some data ∧ db'.getBlock data.id = some data := by
  have ha : db.getHead.all (fun head => head.number < data.number) = true := by
    simpa [hh] using hn
  have hne := h.head
  rw [if_pos ha] at hne
  obtain ⟨victims, he⟩ := h.entries
  have hm : db.newNode data parent ∈ db'.linked.entries := by
    rw [he, List.mem_filter]
    exact ⟨by simp, survivesEvict_of_le hc hh hno hn.le⟩
  have hi := h.linked.indexed _ hm
  refine ⟨by rw [getHead, hne]; rfl, ?_⟩
  have hg : db'.linked.getByHash data.id = some (db.newNode data parent) := hi
  rw [getBlock, hg]
  rfl

/-! ## The head and the blocks beside it -/

/-- No linked block is higher than the head. -/
structure HeadOnTop (db : KhaosDatabase T) : Prop where
  linked : db.linked.Coherent
  capacity : 0 ≤ db.linked.maxCapacity
  onTop : ∃ top, db.head = some top ∧ 0 ≤ top.block.number ∧
    ∀ n ∈ db.linked.entries, n.block.number ≤ top.block.number

/-- A block above the head is the new head. -/
theorem HeadOnTop.pushed_above (h : db.HeadOnTop) {parent : Option (KhaosNode T)}
    (hp : Pushed data parent db db') {head : KhaosBlockData T} (hh : db.getHead = some head)
    (hnu : head.number < data.number) : db'.HeadOnTop := by
  obtain ⟨top, ht, hno, hbe⟩ := h.onTop
  have hb : top.block = head := by
    rw [getHead, ht] at hh
    exact Option.some.inj hh
  have hne : db'.head = some (db.newNode data parent) := by
    rw [hp.head, if_pos]
    simpa [hh] using hnu
  obtain ⟨victims, he⟩ := hp.entries
  rw [hb] at hno hbe
  refine ⟨hp.linked, hp.capacity ▸ h.capacity, _, hne, hno.trans hnu.le, fun n hn => ?_⟩
  rw [he] at hn
  rcases List.mem_append.mp (List.mem_of_mem_filter hn) with hn | hn
  · exact (hbe n (List.mem_of_mem_filter hn)).trans hnu.le
  · rw [List.mem_singleton.mp hn]

/-! ## The first block -/

/-- The database with nothing but its first block. -/
structure Started (data : KhaosBlockData T) (db : KhaosDatabase T) : Prop where
  linked : db.linked.Coherent
  capacity : db.linked.maxCapacity = defaultKhaosCapacity
  head : db.head = some ⟨data, 0, none⟩
  entries : db.linked.entries = [⟨data, 0, none⟩]

theorem start_spec [RetainedSize T] (limits : KhaosLimits) (hno : 0 ≤ data.number)
    (h : start data (new.setLimits limits) = (.ok (), db')) : Started data db' := by
  have hco : (new.setLimits limits : KhaosDatabase T).linked.Coherent :=
    ⟨List.nodup_nil, nofun⟩
  have hem : (new.setLimits limits : KhaosDatabase T).linked.byHash.lookup
      (⟨data, 0, none⟩ : KhaosNode T).block.id = none := Finmap.lookup_empty _
  unfold start at h
  rw [Prog.bind_of_ok (Prog.get_run _), Prog.bind_of_ok (Prog.modify_run _ _), Prog.bind_run] at h
  rcases hr : KhaosStore.insertPinning ⟨data, 0, none⟩ (some data.number) none
    (new.setLimits limits : KhaosDatabase T).linked with ⟨e | _, linked⟩ <;>
    simp only [Prog.zoom, show (new.setLimits limits : KhaosDatabase T).nextUid = 0 from rfl,
      hr] at h
  · cases h
  · cases h
    obtain ⟨hl, hc, victims, he⟩ := KhaosStore.insertPinning_spec hco hem hr
    refine ⟨hl, hc, rfl, ?_⟩
    have hk : (new.setLimits limits : KhaosDatabase T).linked.survivesEvict (some data.number)
        ⟨data, 0, none⟩ = true := by
      have : 0 ≤ (new.setLimits limits : KhaosDatabase T).linked.maxCapacity := by
        show (0 : Int) ≤ defaultKhaosCapacity
        decide
      simp only [KhaosStore.survivesEvict, Option.all_some, decide_eq_true_eq, not_lt]
      omega
    rw [he]
    exact List.filter_eq_self.mpr fun n hn => by rwa [List.mem_singleton.mp hn]

theorem Started.headOnTop (h : Started data db) (hn : 0 ≤ data.number) : db.HeadOnTop where
  linked := h.linked
  capacity := by
    rw [h.capacity]
    decide
  onTop := ⟨_, h.head, hn, fun n hm => by
    rw [h.entries] at hm
    rw [List.mem_singleton.mp hm]⟩

end KhaosDatabase

/-! ## What holds of every block -/

/-- `P` holds of every block in the store, whether it is found through the list or the index. -/
structure KhaosStore.All (P : KhaosBlockData T → Prop) (store : KhaosStore T) : Prop where
  entries : ∀ n ∈ store.entries, P n.block
  index : ∀ id n, store.byHash.lookup id = some n → P n.block

/-- `P` holds of every block in the database. -/
structure KhaosDatabase.All (P : KhaosBlockData T → Prop) (db : KhaosDatabase T) : Prop where
  linked : db.linked.All P
  unlinked : db.unlinked.All P
  head : ∀ n, db.head = some n → P n.block

section All

variable {P : KhaosBlockData T → Prop} {store : KhaosStore T} {db : KhaosDatabase T}

namespace KhaosStore

theorem lookup_of_erase {m : FMap BlockId (KhaosNode T)} {id id' : BlockId} {n : KhaosNode T}
    (h : (m.erase id').lookup id = some n) : m.lookup id = some n := by
  by_cases hid : id = id'
  · rw [hid, Finmap.lookup_erase] at h
    cases h
  · rwa [Finmap.lookup_erase_ne hid] at h

theorem All.remove (h : store.All P) (id : BlockId) : (store.remove id).2.All P := by
  unfold KhaosStore.remove
  split
  · exact h
  · exact ⟨fun n hn => h.entries n (List.mem_of_mem_filter hn),
      fun id n hn => h.index id n (lookup_of_erase hn)⟩

theorem All.evict (h : store.All P) (headNumber : Int) : (store.evict headNumber).All P := by
  refine ⟨fun n hn => h.entries n (List.mem_of_mem_filter hn), fun id n hn => ?_⟩
  have he (expired : List (KhaosNode T)) (m : FMap BlockId (KhaosNode T))
      (hm : (expired.foldl (fun m n => m.erase n.block.id) m).lookup id = some n) :
      m.lookup id = some n := by
    induction expired generalizing m with
    | nil => exact hm
    | cons victim rest ih => exact lookup_of_erase (ih _ hm)
  exact h.index id n (he _ _ hn)

theorem All.evictEntry (h : store.All P) (victim : KhaosNode T) : (store.evictEntry victim).All P := by
  unfold KhaosStore.evictEntry
  split
  · refine ⟨fun n hn => h.entries n (List.mem_of_mem_filter hn), fun id n hn => ?_⟩
    dsimp only at hn
    split at hn
    · exact h.index id n (lookup_of_erase hn)
    · exact h.index id n hn
  · exact h

theorem All.insertPinning [RetainedSize T] (h : store.All P) {node : KhaosNode T}
    (hno : P node.block) (headNumber : Option Int) (pinned : Option (KhaosNode T)) :
    (insertPinning node headNumber pinned store).2.All P := by
  have hk : Prog.Keeps (All P) (KhaosStore.insertPinning node headNumber pinned) := by
    refine .bind .get fun _ => .bind .ofExcept fun victims => .bind (.modify fun store h => ?_)
      fun _ => .bind .get fun _ => ?_
    · induction victims generalizing store with
      | nil => exact h
      | cons victim rest ih => exact ih _ (h.evictEntry victim)
    · have hi : Prog.Keeps (All P) (modify fun store => { store with
          byHash := store.byHash.insert node.block.id node
          entries := store.entries ++ [node] } : Prog (KhaosStore T) KhaosError PUnit) := by
        refine .modify fun store h => ⟨fun n hn => ?_, fun id n hn => ?_⟩
        · rcases List.mem_append.mp hn with hn | hn
          · exact h.entries n hn
          · rwa [List.mem_singleton.mp hn]
        · by_cases hid : id = node.block.id
          · rw [hid, Finmap.lookup_insert] at hn
            rwa [← Option.some.inj hn]
          · rw [Finmap.lookup_insert_of_ne _ hid] at hn
            exact h.index id n hn
      have hv : ∀ number, Prog.Keeps (All P) (modify fun store => store.evict number :
          Prog (KhaosStore T) KhaosError PUnit) :=
        fun number => .modify fun store h => h.evict number
      cases pinned with
      | none => cases headNumber with
        | none => exact .bind hi fun _ => .pure
        | some number => exact .bind hi fun _ => hv number
      | some parent => cases headNumber with
        | none => exact .ite (fun _ => .throw_bind) fun _ => .bind hi fun _ => .pure
        | some number => exact .ite (fun _ => .throw_bind) fun _ => .bind hi fun _ => hv number
  exact hk.state h

end KhaosStore

namespace KhaosDatabase

theorem All.setHead (h : db.All P) (id : BlockId) : (setHead id db).2.All P := by
  unfold KhaosDatabase.setHead
  split
  · exact h
  · rename_i node hno
    exact ⟨h.linked, h.unlinked, fun n hn => Option.some.inj hn ▸ h.linked.index id node hno⟩

theorem All.pop (h : db.All P) : db.pop.2.All P := by
  unfold KhaosDatabase.pop
  split
  · exact h
  · rename_i parent hp
    refine ⟨h.linked, h.unlinked, fun n hn => ?_⟩
    obtain rfl := Option.some.inj hn
    obtain ⟨node, hno, hp⟩ := Option.bind_eq_some_iff.mp hp
    obtain ⟨uid, -, hu⟩ := Option.bind_eq_some_iff.mp hp
    rcases List.mem_append.mp (List.mem_of_find?_eq_some hu) with hm | hm
    · rcases List.mem_append.mp hm with hm | hm
      · exact h.linked.entries _ hm
      · exact h.unlinked.entries _ hm
    · rw [hno, Option.toList_some, List.mem_singleton] at hm
      exact hm ▸ h.head node hno

theorem mem_of_highestFirst {store : KhaosStore T} {node : KhaosNode T}
    (h : store.highestFirst = some node) : node ∈ store.entries := by
  have hf (nodes : List (KhaosNode T)) (best : Option (KhaosNode T))
      (hn : nodes.foldl KhaosStore.higher best = some node) : node ∈ nodes ∨ best = some node := by
    induction nodes generalizing best with
    | nil => exact .inr hn
    | cons first rest ih =>
      rcases ih _ hn with hm | hb
      · exact .inl (List.mem_cons_of_mem _ hm)
      · unfold KhaosStore.higher at hb
        split at hb
        · exact .inl (by simp_all)
        · split at hb
          · exact .inl (by simp_all)
          · exact .inr hb
  exact (hf _ none h).resolve_right nofun

/-- The head goes to one of the linked blocks that are left. -/
theorem All.toHighest (h : db.All P) :
    (match db.linked.highestFirst with
      | none => ((.error .headWouldBeNull, db) : Except KhaosError Unit × KhaosDatabase T)
      | some node => (.ok (), { db with head := some node })).2.All P := by
  split
  · exact h
  · rename_i node hno
    refine ⟨h.linked, h.unlinked, fun n hn => ?_⟩
    obtain rfl := Option.some.inj hn
    exact h.linked.entries _ (mem_of_highestFirst hno)

theorem All.removeBlk (h : db.All P) (id : BlockId) : (removeBlk id db).2.All P := by
  have hl := h.linked.remove id
  unfold KhaosDatabase.removeBlk
  rcases hr : db.linked.remove id with ⟨_ | _, linked⟩ <;> rw [hr] at hl <;>
    refine All.toHighest ?_
  · exact ⟨h.linked, h.unlinked.remove id, h.head⟩
  · exact ⟨hl, h.unlinked, h.head⟩

theorem All.push [RetainedSize T] (h : db.All P) {data : KhaosBlockData T} (hd : P data) :
    (push data db).2.All P := by
  have hl (node : KhaosNode T) (hno : node.block = data) (number : Option Int)
      (pinned : Option (KhaosNode T)) : Prog.Keeps (All P) (Prog.zoom KhaosDatabase.linked
        (fun db store => { db with linked := store }) id
        (KhaosStore.insertPinning node number pinned)) :=
    .zoom fun db h => ⟨h.linked.insertPinning (hno ▸ hd) number pinned, h.unlinked, h.head⟩
  have hu (node : KhaosNode T) (hno : node.block = data) (number : Option Int)
      (pinned : Option (KhaosNode T)) : Prog.Keeps (All P) (Prog.zoom KhaosDatabase.unlinked
        (fun db store => { db with unlinked := store }) id
        (KhaosStore.insertPinning node number pinned)) :=
    .zoom fun db h => ⟨h.linked, h.unlinked.insertPinning (hno ▸ hd) number pinned, h.head⟩
  have hpl (parent : Option (KhaosNode T)) :
      Prog.Keeps (All P) (pushLinked data parent) := by
    refine .bind .get fun db => .bind (.modify fun db h => ⟨h.linked, h.unlinked, h.head⟩) fun _ =>
      .bind (hl _ rfl _ _) fun _ => .modify fun db h => ?_
    split
    · exact ⟨h.linked, h.unlinked, fun n hn => Option.some.inj hn ▸ hd⟩
    · exact h
  have hk : Prog.Keeps (All P) (KhaosDatabase.push data) := by
    refine .bind .get fun db => .ite (fun _ => ?_) fun _ => hpl none
    cases db.linked.getByHash data.parentId with
    | some parent => exact .ite (fun _ => .throw) fun _ => hpl (some parent)
    | none =>
      exact .bind (.modify fun db h => ⟨h.linked, h.unlinked, h.head⟩) fun _ =>
        .bind (hu _ rfl _ _) fun _ => .throw
  exact hk.state h

theorem All.start [RetainedSize T] {data : KhaosBlockData T} (hd : P data)
    (limits : KhaosLimits) : (start data (new.setLimits limits)).2.All P := by
  have hne : (new.setLimits limits : KhaosDatabase T).All P :=
    ⟨⟨nofun, fun id n hn => by cases hn.symm.trans (Finmap.lookup_empty id)⟩,
      ⟨nofun, fun id n hn => by cases hn.symm.trans (Finmap.lookup_empty id)⟩, nofun⟩
  have hk : Prog.Keeps (All P) (KhaosDatabase.start data) := by
    refine .bind .get fun db => .bind (.modify fun db h => ⟨h.linked, h.unlinked, h.head⟩) fun _ =>
      .bind (.zoom fun db h => ⟨h.linked.insertPinning hd _ _, h.unlinked, h.head⟩) fun _ =>
        .modify fun db h => ⟨h.linked, h.unlinked, fun n hn => Option.some.inj hn ▸ hd⟩
  exact hk.state hne

end KhaosDatabase

end All

end RustTron.State
