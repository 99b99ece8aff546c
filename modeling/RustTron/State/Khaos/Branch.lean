import RustTron.State.Khaos.Retention
import RustTron.Library.Ancestry
import RustTron.Library.Results
import Mathlib

/-!
# Branches

Where the id of a block determines its number and its parent, a node that is held refers to the
block that its parent id names, one below it, or to a node that is gone. The walks of `get_branch`
then follow parent ids and only fail where a parent is gone.

## Main definitions

* `KhaosDatabase.Traced numberOf parentIdOf db`: what the nodes of a graph know of their parents
* `KhaosDatabase.Grows numberOf parentIdOf db`: the operations reach `db`
* `KhaosDatabase.next db node`: the node that a walk goes on to

## Main results

* `Traced.push`, `Traced.removeBlk`: the operations keep what the nodes know
* `getBranch_exact`: what `get_branch` returns are the ways down to the lowest common ancestor, the
  same from both sides and from `get_branch_deprecated`
-/

namespace RustTron.State

open Ancestry

variable {T : Type} {numberOf : BlockId → Int} {parentIdOf : BlockId → BlockId}

/-! ## Parents -/

/-- What nodes know of their parents: a node is found by its identity, which is below `next`, and
the parent of a node, if it is among them, is the block that the parent id names, one below. -/
structure Lineage (numberOf : BlockId → Int) (parentIdOf : BlockId → BlockId) (next : Nat)
    (nodes : List (KhaosNode T)) : Prop where
  unique : ∀ n ∈ nodes, ∀ m ∈ nodes, n.uid = m.uid → n = m
  below : ∀ n ∈ nodes, n.uid < next
  parentBelow : ∀ n ∈ nodes, ∀ uid, n.parent = some uid → uid < next
  number : ∀ n ∈ nodes, n.block.number = numberOf n.block.id
  parentId : ∀ n ∈ nodes, n.block.parentId = parentIdOf n.block.id
  parent : ∀ n ∈ nodes, ∀ m ∈ nodes, n.parent = some m.uid →
    m.block.id = n.block.parentId ∧ m.block.number + 1 = n.block.number

namespace Lineage

variable {next : Nat} {nodes nodes' : List (KhaosNode T)}

theorem mono (h : Lineage numberOf parentIdOf next nodes) (hs : nodes' ⊆ nodes) {next' : Nat}
    (hne : next ≤ next') : Lineage numberOf parentIdOf next' nodes' where
  unique n hn m hm := h.unique n (hs hn) m (hs hm)
  below n hn := (h.below n (hs hn)).trans_le hne
  parentBelow n hn uid hu := (h.parentBelow n (hs hn) uid hu).trans_le hne
  number n hn := h.number n (hs hn)
  parentId n hn := h.parentId n (hs hn)
  parent n hn m hm := h.parent n (hs hn) m (hs hm)

theorem cons (h : Lineage numberOf parentIdOf next nodes) {block : KhaosBlockData T}
    (hnu : block.number = numberOf block.id) (hpi : block.parentId = parentIdOf block.id)
    {parent : Option (KhaosNode T)} (hpa : ∀ p, parent = some p → p ∈ nodes ∧
      p.block.id = block.parentId ∧ p.block.number + 1 = block.number) :
    Lineage numberOf parentIdOf (next + 1) (⟨block, next, parent.map (·.uid)⟩ :: nodes) where
  unique := by
    rintro n (_ | ⟨_, hn⟩) m (_ | ⟨_, hm⟩) hu
    · rfl
    · exact absurd hu.symm (h.below m hm).ne
    · exact absurd hu (h.below n hn).ne
    · exact h.unique n hn m hm hu
  below := by
    rintro n (_ | ⟨_, hn⟩)
    · exact Nat.lt_succ_self _
    · exact (h.below n hn).trans (Nat.lt_succ_self _)
  parentBelow := by
    rintro n (_ | ⟨_, hn⟩) uid hu
    · obtain ⟨p, hp, rfl⟩ := Option.map_eq_some_iff.mp hu
      exact (h.below p (hpa p hp).1).trans (Nat.lt_succ_self _)
    · exact (h.parentBelow n hn uid hu).trans (Nat.lt_succ_self _)
  number := by
    rintro n (_ | ⟨_, hn⟩)
    · exact hnu
    · exact h.number n hn
  parentId := by
    rintro n (_ | ⟨_, hn⟩)
    · exact hpi
    · exact h.parentId n hn
  parent := by
    rintro n (_ | ⟨_, hn⟩) m (_ | ⟨_, hm⟩) hnm
    · obtain ⟨p, hp, hu⟩ := Option.map_eq_some_iff.mp hnm
      exact absurd hu (h.below p (hpa p hp).1).ne
    · obtain ⟨p, hp, hu⟩ := Option.map_eq_some_iff.mp hnm
      obtain ⟨hme, hf⟩ := hpa p hp
      obtain rfl := h.unique p hme m hm hu
      exact hf
    · exact absurd (h.parentBelow n hn _ hnm) (lt_irrefl _)
    · exact h.parent n hn m hm hnm

end Lineage

theorem KhaosStore.Ordered.insertPinning_subset [RetainedSize T] {store : KhaosStore T}
    (h : store.Ordered numberOf) (node : KhaosNode T)
    (hf : ∀ n ∈ store.entries, n.uid ≠ node.uid)
    (hnu : node.block.number = numberOf node.block.id) (headNumber : Option Int)
    (pinned : Option (KhaosNode T))
    (hp : ∀ p, pinned = some p → store.byHash.lookup p.block.id = some p) :
    (KhaosStore.insertPinning node headNumber pinned store).2.Ordered numberOf ∧
      (KhaosStore.insertPinning node headNumber pinned store).2.entries ⊆ node :: store.entries := by
  have hi := h.insertPinning node hf hnu headNumber pinned hp
  rcases hr : KhaosStore.insertPinning node headNumber pinned store with ⟨e | _, store'⟩ <;>
    rw [hr] at hi
  · subst hi
    exact ⟨h, List.subset_cons_self _ _⟩
  · obtain ⟨ho, victims, byHash, -, rfl⟩ := hi
    refine ⟨ho, fun n hn => ?_⟩
    rcases List.mem_append.mp (List.mem_of_mem_filter hn) with hn | hn
    · exact List.mem_cons_of_mem _ (List.mem_of_mem_filter hn)
    · exact List.mem_singleton.mp hn ▸ List.mem_cons_self

namespace KhaosDatabase

variable {db : KhaosDatabase T}

/-- The nodes that are held, by a store or as the head. -/
def held (db : KhaosDatabase T) : List (KhaosNode T) :=
  db.linked.entries ++ db.unlinked.entries ++ db.head.toList

/-- The stores are ordered, and the nodes that are held know their parents. -/
structure Traced (numberOf : BlockId → Int) (parentIdOf : BlockId → BlockId)
    (db : KhaosDatabase T) : Prop where
  linked : db.linked.Ordered numberOf
  unlinked : db.unlinked.Ordered numberOf
  lineage : Lineage numberOf parentIdOf db.nextUid db.held

theorem mem_held_linked {n : KhaosNode T} (h : n ∈ db.linked.entries) : n ∈ db.held :=
  List.mem_append_left _ (List.mem_append_left _ h)

theorem mem_held_unlinked {n : KhaosNode T} (h : n ∈ db.unlinked.entries) : n ∈ db.held :=
  List.mem_append_left _ (List.mem_append_right _ h)

theorem mem_held_head {n : KhaosNode T} (h : db.head = some n) : n ∈ db.held :=
  List.mem_append_right _ (by rw [h]; exact List.mem_singleton_self n)

theorem held_subset {nodes : List (KhaosNode T)} (hl : db.linked.entries ⊆ nodes)
    (hu : db.unlinked.entries ⊆ nodes) (hh : ∀ n, db.head = some n → n ∈ nodes) :
    db.held ⊆ nodes := by
  refine List.append_subset.mpr ⟨List.append_subset.mpr ⟨hl, hu⟩, fun n hn => ?_⟩
  exact hh n (Option.mem_toList.mp hn)

theorem parentOf_mem {node parent : KhaosNode T} (h : db.parentOf node = some parent) :
    parent ∈ db.held ∧ node.parent = some parent.uid := by
  obtain ⟨uid, hui, hu⟩ := Option.bind_eq_some_iff.mp h
  have hf := List.find?_some hu
  rw [decide_eq_true_iff] at hf
  exact ⟨List.mem_of_find?_eq_some hu, by rw [hui, hf]⟩

namespace Traced

theorem new : (new : KhaosDatabase T).Traced numberOf parentIdOf where
  linked := .new
  unlinked := .new
  lineage := ⟨nofun, nofun, nofun, nofun, nofun, nofun⟩

theorem setLimits (h : db.Traced numberOf parentIdOf) (limits : KhaosLimits) :
    (db.setLimits limits).Traced numberOf parentIdOf :=
  ⟨⟨h.linked.uids, h.linked.newest, h.linked.numbered⟩,
    ⟨h.unlinked.uids, h.unlinked.newest, h.unlinked.numbered⟩, h.lineage⟩

theorem setMaxSize (h : db.Traced numberOf parentIdOf) (maxSize : Int) :
    (db.setMaxSize maxSize).Traced numberOf parentIdOf :=
  ⟨⟨h.linked.uids, h.linked.newest, h.linked.numbered⟩,
    ⟨h.unlinked.uids, h.unlinked.newest, h.unlinked.numbered⟩, h.lineage⟩

theorem withHead (h : db.Traced numberOf parentIdOf) {node : KhaosNode T} (hno : node ∈ db.held) :
    ({ db with head := some node } : KhaosDatabase T).Traced numberOf parentIdOf := by
  refine ⟨h.linked, h.unlinked, h.lineage.mono (held_subset ?_ ?_ ?_) le_rfl⟩
  · exact fun n hn => mem_held_linked hn
  · exact fun n hn => mem_held_unlinked hn
  · rintro n ⟨⟩
    exact hno

theorem setHead (h : db.Traced numberOf parentIdOf) (id : BlockId) :
    (setHead id db).2.Traced numberOf parentIdOf := by
  unfold KhaosDatabase.setHead
  split
  · exact h
  · rename_i node hn
    exact h.withHead (mem_held_linked (h.linked.mem hn).1)

theorem pop (h : db.Traced numberOf parentIdOf) : db.pop.2.Traced numberOf parentIdOf := by
  unfold KhaosDatabase.pop
  split
  · exact h
  · rename_i parent hp
    obtain ⟨node, -, hp⟩ := Option.bind_eq_some_iff.mp hp
    exact h.withHead (parentOf_mem hp).1

theorem removeBlk (h : db.Traced numberOf parentIdOf) (id : BlockId) :
    (removeBlk id db).2.Traced numberOf parentIdOf := by
  have he : ∀ store : KhaosStore T, (store.remove id).2.entries ⊆ store.entries := by
    intro store
    unfold KhaosStore.remove
    split
    · exact List.Subset.refl _
    · exact fun n hn => List.mem_of_mem_filter hn
  -- the head goes to one of the linked nodes that are left
  have hh : ∀ (db' : KhaosDatabase T) (node : KhaosNode T), db'.Traced numberOf parentIdOf →
      db'.linked.highestFirst = some node →
      ({ db' with head := some node } : KhaosDatabase T).Traced numberOf parentIdOf :=
    fun db' node h' hno => h'.withHead (mem_held_linked (mem_of_highestFirst hno))
  have hl := h.linked.remove id
  have hs := he db.linked
  unfold KhaosDatabase.removeBlk
  rcases hr : db.linked.remove id with ⟨_ | _, linked⟩ <;> rw [hr] at hl hs
  · have ht : ({ db with unlinked := (db.unlinked.remove id).2 } : KhaosDatabase T).Traced
        numberOf parentIdOf := by
      refine ⟨h.linked, h.unlinked.remove id, h.lineage.mono (held_subset ?_ ?_ ?_) le_rfl⟩
      · exact fun n hn => mem_held_linked hn
      · exact fun n hn => mem_held_unlinked (he db.unlinked hn)
      · exact fun n hn => mem_held_head hn
    dsimp only
    split
    · exact ht
    · next node hno => exact hh _ node ht hno
  · have ht : ({ db with linked := linked } : KhaosDatabase T).Traced numberOf parentIdOf := by
      refine ⟨hl, h.unlinked, h.lineage.mono (held_subset ?_ ?_ ?_) le_rfl⟩
      · exact fun n hn => mem_held_linked (hs hn)
      · exact fun n hn => mem_held_unlinked hn
      · exact fun n hn => mem_held_head hn
    dsimp only
    split
    · exact ht
    · next node hno => exact hh _ node ht hno

theorem lineage_cons (h : db.Traced numberOf parentIdOf) {block : KhaosBlockData T}
    (hn : block.number = numberOf block.id) (hpi : block.parentId = parentIdOf block.id)
    {parent : Option (KhaosNode T)} (hpa : ∀ p, parent = some p →
      db.linked.getByHash block.parentId = some p ∧ p.block.number + 1 = block.number) :
    Lineage numberOf parentIdOf (db.nextUid + 1) (db.newNode block parent :: db.held) := by
  refine h.lineage.cons hn hpi fun p hp => ?_
  obtain ⟨hf, hh⟩ := hpa p hp
  obtain ⟨hm, hid⟩ := h.linked.mem hf
  exact ⟨mem_held_linked hm, hid, hh⟩

section Insertions

variable [RetainedSize T]

theorem insertLinked (h : db.Traced numberOf parentIdOf) {block : KhaosBlockData T}
    (hnu : block.number = numberOf block.id) (hpi : block.parentId = parentIdOf block.id)
    {parent : Option (KhaosNode T)} (hpa : ∀ p, parent = some p →
      db.linked.getByHash block.parentId = some p ∧ p.block.number + 1 = block.number)
    (number : Option Int) {r : Except KhaosError Unit} {store : KhaosStore T}
    (hr : KhaosStore.insertPinning (db.newNode block parent) number parent db.linked = (r, store))
    {head : Option (KhaosNode T)} (hh : head = db.head ∨ head = some (db.newNode block parent)) :
    ({ db with linked := store, nextUid := db.nextUid + 1, head := head } :
      KhaosDatabase T).Traced numberOf parentIdOf := by
  have hfr : ∀ n ∈ db.linked.entries, n.uid ≠ (db.newNode block parent).uid := fun n hn =>
    (h.lineage.below n (mem_held_linked hn)).ne
  obtain ⟨ho, hs⟩ := h.linked.insertPinning_subset _ hfr hnu number parent
    (fun p hp => by
      obtain ⟨hf, -⟩ := hpa p hp
      rw [(h.linked.mem hf).2]
      exact hf)
  rw [hr] at ho hs
  refine ⟨ho, h.unlinked, (h.lineage_cons hnu hpi hpa).mono
    (held_subset (fun n hn => ?_) (fun n hn => ?_) fun n hn => ?_) le_rfl⟩
  · rcases List.mem_cons.mp (hs hn) with rfl | hn
    · exact List.mem_cons_self
    · exact List.mem_cons_of_mem _ (mem_held_linked hn)
  · exact List.mem_cons_of_mem _ (mem_held_unlinked hn)
  · rcases hh with rfl | rfl
    · exact List.mem_cons_of_mem _ (mem_held_head hn)
    · cases hn
      exact List.mem_cons_self

theorem start (h : db.Traced numberOf parentIdOf) {block : KhaosBlockData T}
    (hn : block.number = numberOf block.id) (hpi : block.parentId = parentIdOf block.id) :
    (start block db).2.Traced numberOf parentIdOf := by
  have hno : ∀ p : KhaosNode T, none = some p →
      db.linked.getByHash block.parentId = some p ∧ p.block.number + 1 = block.number := nofun
  rcases hr : KhaosStore.insertPinning (db.newNode block none) (some block.number) none
    db.linked with ⟨e | _, store⟩
  all_goals
    unfold KhaosDatabase.start
    rw [Prog.bind_of_ok (Prog.get_run db)]
    simp only [Prog.bind_run, Prog.modify_run, Prog.zoom]
    rw [newNode, Option.map_none] at hr
    simp only [hr]
  · exact h.insertLinked hn hpi hno _ hr (.inl rfl)
  · exact h.insertLinked hn hpi hno _ hr (.inr rfl)

theorem push (h : db.Traced numberOf parentIdOf) {block : KhaosBlockData T}
    (hnu : block.number = numberOf block.id) (hpi : block.parentId = parentIdOf block.id) :
    (push block db).2.Traced numberOf parentIdOf := by
  have hl : ∀ parent, (∀ p, parent = some p →
      db.linked.getByHash block.parentId = some p ∧ p.block.number + 1 = block.number) →
      (pushLinked block parent db).2.Traced numberOf parentIdOf := by
    intro parent hp
    rcases hr : KhaosStore.insertPinning (db.newNode block parent) (db.getHead.map (·.number))
      parent db.linked with ⟨e | _, store⟩
    · rw [pushLinked_of_error hr]
      exact h.insertLinked hnu hpi hp _ hr (.inl rfl)
    · rw [pushLinked_of_ok hr]
      refine h.insertLinked hnu hpi hp _ hr ?_
      split
      · exact .inr rfl
      · exact .inl rfl
  unfold KhaosDatabase.push
  rw [Prog.bind_of_ok (Prog.get_run db)]
  split
  · cases hf : db.linked.getByHash block.parentId with
    | some parent =>
      dsimp only
      split
      · exact h
      · rename_i hh
        refine hl (some parent) ?_
        rintro p ⟨⟩
        exact ⟨hf, (not_ne_iff.mp hh).symm⟩
    | none =>
      -- the node goes to the other store, without a parent
      have hfr : ∀ n ∈ db.unlinked.entries, n.uid ≠ db.nextUid := fun n hn =>
        (h.lineage.below n (mem_held_unlinked hn)).ne
      obtain ⟨ho, hs⟩ := h.unlinked.insertPinning_subset ⟨block, db.nextUid, none⟩ hfr
        hnu (db.getHead.map (·.number)) none nofun
      rcases hr : KhaosStore.insertPinning ⟨block, db.nextUid, none⟩
        (db.getHead.map (·.number)) none db.unlinked with ⟨e | _, store⟩
      all_goals
        rw [hr] at ho hs
        simp only [Prog.bind_run, Prog.modify_run, Prog.zoom, hr, Prog.throw_run]
        have hli := h.lineage_cons hnu hpi (show ∀ p, none = some p → _ from nofun)
        refine ⟨h.linked, ho, hli.mono
          (held_subset (fun n hn => ?_) (fun n hn => ?_) fun n hn => ?_) le_rfl⟩
        · exact List.mem_cons_of_mem _ (mem_held_linked hn)
        · rcases List.mem_cons.mp (hs hn) with rfl | hn
          · exact List.mem_cons_self
          · exact List.mem_cons_of_mem _ (mem_held_unlinked hn)
        · exact List.mem_cons_of_mem _ (mem_held_head hn)
  · exact hl none nofun

end Insertions

end Traced

/-! ## Steps -/

/-- The block that a walk goes on to: the parent, if the linked store finds it. -/
def next (db : KhaosDatabase T) (id : BlockId) : Option BlockId :=
  (db.linked.getByHash id).bind fun node => (db.parentOf node).bind fun parent =>
    (db.linked.getByHash parent.block.id).map (·.block.id)

/-- The linked store finds the node at its id. -/
def Linked (db : KhaosDatabase T) (node : KhaosNode T) : Prop :=
  db.linked.getByHash node.block.id = some node

theorem Linked.getByHash {node : KhaosNode T} (h : db.Linked node) :
    db.linked.getByHash node.block.id = some node := h

theorem Linked.eq {n m : KhaosNode T} (hn : db.Linked n) (hm : db.Linked m)
    (hid : n.block.id = m.block.id) : n = m := by
  rw [Linked, hid] at hn
  exact Option.some.inj (hn.symm.trans hm)

theorem eq_of_ids {l m : List (KhaosNode T)} (hl : ∀ n ∈ l, db.Linked n)
    (hm : ∀ n ∈ m, db.Linked n) (hi : l.map (·.block.id) = m.map (·.block.id)) : l = m := by
  induction l generalizing m with
  | nil => exact (List.map_eq_nil_iff.mp hi.symm).symm
  | cons n l ih =>
    cases m with
    | nil => cases hi
    | cons n' m =>
      obtain ⟨hf, hr⟩ := List.cons.inj hi
      rw [(hl n List.mem_cons_self).eq (hm n' List.mem_cons_self) hf,
        ih (fun k hk => hl k (List.mem_cons_of_mem _ hk))
          (fun k hk => hm k (List.mem_cons_of_mem _ hk)) hr]

namespace Traced

theorem linked_of_getByHash (h : db.Traced numberOf parentIdOf) {id : BlockId} {node : KhaosNode T}
    (hn : db.linked.getByHash id = some node) : db.Linked node ∧ node.block.id = id := by
  obtain ⟨-, hid⟩ := h.linked.mem hn
  exact ⟨by rw [Linked, hid, hn], hid⟩

theorem parentOf_linked (h : db.Traced numberOf parentIdOf) {node parent : KhaosNode T}
    (hn : db.Linked node) (hp : db.parentOf node = some parent) :
    parent.block.id = parentIdOf node.block.id ∧
      parent.block.number + 1 = node.block.number := by
  have hm := mem_held_linked (h.linked.mem hn).1
  obtain ⟨hhe, hu⟩ := parentOf_mem hp
  obtain ⟨hid, hh⟩ := h.lineage.parent node hm parent hhe hu
  exact ⟨by rw [hid, h.lineage.parentId node hm], hh⟩

theorem number_linked (h : db.Traced numberOf parentIdOf) {node : KhaosNode T}
    (hn : db.Linked node) : node.block.number = numberOf node.block.id :=
  h.linked.numbered node (h.linked.mem hn).1

theorem next_eq_some (h : db.Traced numberOf parentIdOf) {id id' : BlockId}
    (hn : db.next id = some id') : id' = parentIdOf id ∧ numberOf id' + 1 = numberOf id ∧
      (db.linked.getByHash id).isSome ∧ (db.linked.getByHash id').isSome := by
  obtain ⟨node, hno, hn⟩ := Option.bind_eq_some_iff.mp hn
  obtain ⟨parent, hp, hn⟩ := Option.bind_eq_some_iff.mp hn
  obtain ⟨resolved, hr, rfl⟩ := Option.map_eq_some_iff.mp hn
  obtain ⟨hl, rfl⟩ := h.linked_of_getByHash hno
  obtain ⟨hl', hid⟩ := h.linked_of_getByHash hr
  obtain ⟨hpi, hh⟩ := h.parentOf_linked hl hp
  -- the block that is found again has the number of the parent
  have hnu := h.lineage.number parent (parentOf_mem hp).1
  rw [hid]
  refine ⟨hpi, ?_, by rw [hno]; rfl, by rw [hr]; rfl⟩
  rw [← hnu, ← h.number_linked hl, hh]

theorem next_down (h : db.Traced numberOf parentIdOf) :
    ∀ x y, db.next x = some y → numberOf y + 1 = numberOf x :=
  fun _ _ hn => (h.next_eq_some hn).2.1

/-- Blocks passed on ways without a common one, and the block they end in, are all linked. -/
theorem length_le (h : db.Traced numberOf parentIdOf) {a b c : BlockId} {l m : List BlockId}
    (hm : Meets db.next a b l m c) (hc : (db.linked.getByHash c).isSome) :
    l.length + m.length + 1 ≤ db.linked.entries.length := by
  have hs : l ++ m ++ [c] ⊆ db.linked.entries.map (·.block.id) := by
    have hme : ∀ x, (db.linked.getByHash x).isSome → x ∈ db.linked.entries.map (·.block.id) := by
      intro x hx
      obtain ⟨n, hn, rfl⟩ := h.linked.isSome_lookup.mp hx
      exact List.mem_map_of_mem hn
    have hp : ∀ {x : BlockId} {k : List BlockId}, Way db.next x k c → ∀ y ∈ k,
        (db.linked.getByHash y).isSome := by
      intro x k hpa y hy
      obtain ⟨z, hz⟩ := hpa.exists_next hy
      exact (h.next_eq_some hz).2.2.1
    intro x hx
    refine hme x ?_
    rcases List.mem_append.mp hx with hx | hx
    · exact (List.mem_append.mp hx).elim (hp hm.first x) (hp hm.second x)
    · exact List.mem_singleton.mp hx ▸ hc
  have hl := ((hm.nodup h.next_down).subperm hs).length_le
  simpa [Nat.add_assoc] using hl

end Traced

/-! ## Walks -/

namespace Walk

/-- The walk after a step to `node`. -/
def go (walk : Walk T) (node : KhaosNode T) : Walk T :=
  ⟨node, node.block.id :: walk.seen, walk.passed ++ [walk.node]⟩

/-- A walk from the block `origin`: it has passed linked nodes, on the way to a linked node, and has
seen nothing below that. -/
structure From (numberOf : BlockId → Int) (db : KhaosDatabase T) (origin : BlockId)
    (walk : Walk T) : Prop where
  linked : db.Linked walk.node
  passed : ∀ n ∈ walk.passed, db.Linked n
  path : Way db.next origin (walk.passed.map (·.block.id)) walk.node.block.id
  seen : ∀ id ∈ walk.seen, numberOf walk.node.block.id ≤ numberOf id

variable {origin : BlockId} {walk : Walk T}

theorem From.start (h : db.Traced numberOf parentIdOf) {id : BlockId} {node : KhaosNode T}
    (hn : db.linked.getByHash id = some node) :
    From numberOf db id ⟨node, [node.block.id], []⟩ := by
  obtain ⟨hl, rfl⟩ := h.linked_of_getByHash hn
  exact ⟨hl, nofun, .nil _, fun id hid => by rw [List.mem_singleton.mp hid]⟩

theorem From.go (h : db.Traced numberOf parentIdOf) (hw : walk.From numberOf db origin)
    {node : KhaosNode T} (hno : db.Linked node)
    (hne : db.next walk.node.block.id = some node.block.id) :
    (walk.go node).From numberOf db origin where
  linked := hno
  passed n hn := by
    rcases List.mem_append.mp hn with hn | hn
    · exact hw.passed n hn
    · exact List.mem_singleton.mp hn ▸ hw.linked
  path := by
    rw [Walk.go, List.map_append]
    exact hw.path.concat hne
  seen id hid := by
    have hd := h.next_down _ _ hne
    rcases List.mem_cons.mp hid with rfl | hid
    · exact le_rfl
    · have hs := hw.seen id hid
      show numberOf node.block.id ≤ numberOf id
      omega

/-- **A step**: to the next block, or nowhere. The ids that were seen are above the parent, which is
below the block itself, so no other error is met. -/
theorem step_cases (h : db.Traced numberOf parentIdOf) (hw : walk.From numberOf db origin) :
    (db.next walk.node.block.id = none ∧ walk.step db = .error .nonCommonBlock ∧
      walk.stepDeprecated db = .error .deprecatedMissingAncestor) ∨
    ∃ node, db.next walk.node.block.id = some node.block.id ∧
      (walk.go node).From numberOf db origin ∧ walk.step db = .ok (walk.go node) ∧
      walk.stepDeprecated db = .ok (walk.go node) := by
  have hn : db.next walk.node.block.id = (db.parentOf walk.node).bind fun parent =>
      (db.linked.getByHash parent.block.id).map (·.block.id) := by
    rw [next, hw.linked.getByHash, Option.bind_some]
  rw [hn]
  unfold step stepDeprecated
  cases hp : db.parentOf walk.node with
  | none => exact .inl ⟨rfl, rfl, rfl⟩
  | some parent =>
    obtain ⟨-, hh⟩ := h.parentOf_linked hw.linked hp
    have hnu := h.lineage.number parent (parentOf_mem hp).1
    have hn' := h.number_linked hw.linked
    have hno : parent.block.id ∉ walk.seen := fun hm => by
      have hs := hw.seen _ hm
      omega
    have hb : ¬ walk.node.block.number ≤ parent.block.number := by omega
    dsimp only [Option.bind_some]
    rw [if_neg hb, if_neg hno, if_neg hno, if_neg hb]
    cases hr : db.linked.getByHash parent.block.id with
    | none => exact .inl ⟨rfl, rfl, rfl⟩
    | some node =>
      obtain ⟨hl, hid⟩ := h.linked_of_getByHash hr
      have hb' : ¬ walk.node.block.number ≤ node.block.number := by
        rw [h.number_linked hl, hid]
        omega
      dsimp only
      rw [if_neg hb', ← hid]
      refine .inr ⟨node, rfl, hw.go h hl ?_, rfl, rfl⟩
      rw [hn, hp, Option.bind_some, hr]
      rfl

theorem From.length_lt (h : db.Traced numberOf parentIdOf) (hw : walk.From numberOf db origin) :
    walk.passed.length < db.linked.entries.length := by
  have hl := h.length_le (m := []) ⟨hw.path, .nil _, fun _ _ hm => nomatch hm⟩
    (by rw [hw.linked.getByHash]; rfl)
  rw [List.length_map, List.length_nil] at hl
  exact hl

/-- **The walk down** ends at the limit or below it, or where there is no next block. -/
theorem down_cases (h : db.Traced numberOf parentIdOf) (maximum : Nat) (limit : Int) (fuel : Nat)
    (hw : walk.From numberOf db origin)
    (hfu : db.linked.entries.length ≤ fuel + walk.passed.length) :
    (∃ fuel' walk', Walk.down db maximum limit fuel walk = .ok (fuel', walk') ∧
      walk'.From numberOf db origin ∧
      fuel' + walk'.passed.length = fuel + walk.passed.length ∧
      walk'.node.block.number ≤ limit ∧
      (walk' = walk ∨ walk'.node.block.number = limit) ∧
      Reaches db.next walk.node.block.id walk'.node.block.id) ∨
    Walk.down db maximum limit fuel walk = .error .nonCommonBlock ∧
      ∀ c, Reaches db.next walk.node.block.id c → limit < numberOf c := by
  induction fuel generalizing walk with
  | zero =>
    have hlt := hw.length_lt h
    omega
  | succ fuel ih =>
    unfold Walk.down
    by_cases hl : limit < walk.node.block.number
    · rw [if_pos hl]
      rcases step_cases h hw with ⟨hn, hs, -⟩ | ⟨node, hn, hgo, hs, -⟩ <;>
        simp only [hs]
      · refine .inr ⟨trivial, ?_⟩
        rintro c ⟨l, hp⟩
        cases hp with
        | nil => rwa [← h.number_linked hw.linked]
        | cons hn' _ => rw [hn] at hn'; cases hn'
      · have hlen : (walk.go node).passed.length = walk.passed.length + 1 := by simp [Walk.go]
        have hh : (walk.go node).node.block.number + 1 = walk.node.block.number := by
          rw [h.number_linked hgo.linked, h.number_linked hw.linked]
          exact h.next_down _ _ hn
        rcases ih hgo (by omega) with ⟨fuel', walk', hd, hf, hsu, hle, he, hr⟩ |
          ⟨hd, hno⟩
        · refine .inl ⟨fuel', walk', hd, hf, by omega, hle, .inr ?_, ?_⟩
          · rcases he with rfl | he
            · omega
            · exact he
          · obtain ⟨l, hp⟩ := hr
            exact ⟨_, .cons hn hp⟩
        · refine .inr ⟨hd, ?_⟩
          rintro c ⟨l, hp⟩
          cases hp with
          | nil => rwa [← h.number_linked hw.linked]
          | cons hn' hre =>
            rw [hn] at hn'
            cases hn'
            exact hno c ⟨_, hre⟩
    · rw [if_neg hl]
      exact .inl ⟨fuel + 1, walk, rfl, hw, rfl, not_lt.mp hl, .inl rfl, ⟨[], .nil _⟩⟩

theorem disjoint_go (h : db.Traced numberOf parentIdOf) {a b : BlockId} {first second : Walk T}
    (hf : first.From numberOf db a) (hs : second.From numberOf db b)
    (hl : first.node.block.number = second.node.block.number)
    (hne : first.node.block.id ≠ second.node.block.id)
    (hd : (first.passed.map (·.block.id)).Disjoint (second.passed.map (·.block.id)))
    (node node' : KhaosNode T) : ((first.go node).passed.map (·.block.id)).Disjoint
      ((second.go node').passed.map (·.block.id)) := by
  rw [h.number_linked hf.linked, h.number_linked hs.linked] at hl
  intro x hx hx'
  rw [go, List.map_append, List.mem_append, List.map_singleton, List.mem_singleton] at hx hx'
  rcases hx with hx | rfl
  · rcases hx' with hx' | rfl
    · exact hd hx hx'
    · exact absurd (hf.path.height_lt h.next_down hx) (by omega)
  · rcases hx' with hx' | hx'
    · exact absurd (hs.path.height_lt h.next_down hx') (by omega)
    · exact hne hx'

/-- **The walk down of both** ends where they first meet, or where there is no next block. -/
theorem meet_cases (h : db.Traced numberOf parentIdOf) (maximum fuel : Nat) {a b : BlockId}
    {first second : Walk T} (hf : first.From numberOf db a) (hs : second.From numberOf db b)
    (hl : first.node.block.number = second.node.block.number)
    (hd : (first.passed.map (·.block.id)).Disjoint (second.passed.map (·.block.id)))
    (hfu : 2 * db.linked.entries.length ≤ fuel + first.passed.length + second.passed.length) :
    (∃ first' second', Walk.meet db maximum fuel first second = .ok (first', second') ∧
      first'.From numberOf db a ∧ second'.From numberOf db b ∧
      first'.node.block.id = second'.node.block.id ∧
      (first'.passed.map (·.block.id)).Disjoint (second'.passed.map (·.block.id))) ∨
    Walk.meet db maximum fuel first second = .error .nonCommonBlock ∧
      ∀ c, Reaches db.next first.node.block.id c → ¬ Reaches db.next second.node.block.id c := by
  induction fuel using Nat.strong_induction_on generalizing first second with
  | _ fuel ih =>
    unfold Walk.meet
    by_cases hi : first.node.block.id = second.node.block.id
    · rw [if_pos hi]
      exact .inl ⟨first, second, rfl, hf, hs, hi, hd⟩
    rw [if_neg hi]
    have hlt := hf.length_lt h
    have hlt' := hs.length_lt h
    obtain ⟨fuel, rfl⟩ : ∃ k, fuel = k + 2 := ⟨fuel - 2, by omega⟩
    have hsa : numberOf first.node.block.id = numberOf second.node.block.id := by
      rw [← h.number_linked hf.linked, ← h.number_linked hs.linked, hl]
    dsimp only
    rcases step_cases h hf with ⟨hn, hst, -⟩ | ⟨node, hn, hgo, hst, -⟩ <;>
      simp only [hst]
    · refine .inr ⟨trivial, fun c hc hc' => ?_⟩
      obtain ⟨x, hx, -⟩ := hc.next_of_level h.next_down hc' hsa hi
      rw [hn] at hx
      cases hx
    rcases step_cases h hs with ⟨hn', hs', -⟩ | ⟨node', hn', hg', hs', -⟩ <;>
      simp only [hs']
    · refine .inr ⟨trivial, fun c hc hc' => ?_⟩
      obtain ⟨x, hx, -⟩ := hc'.next_of_level h.next_down hc hsa.symm (Ne.symm hi)
      rw [hn'] at hx
      cases hx
    have hl' : (first.go node).node.block.number = (second.go node').node.block.number := by
      have hdo := h.next_down _ _ hn
      have hd' := h.next_down _ _ hn'
      rw [h.number_linked hgo.linked, h.number_linked hg'.linked]
      show numberOf node.block.id = numberOf node'.block.id
      omega
    have hle : (first.go node).passed.length = first.passed.length + 1 := by simp [Walk.go]
    have hle' : (second.go node').passed.length = second.passed.length + 1 := by simp [Walk.go]
    rcases ih fuel (by omega) hgo hg' hl'
      (disjoint_go h hf hs hl hi hd node node') (by omega) with
      hme | ⟨hm, hno⟩
    · exact .inl hme
    · -- what both reach is reached from where they go on to
      refine .inr ⟨hm, fun c hc hc' => ?_⟩
      obtain ⟨x, hx, hr⟩ := hc.next_of_level h.next_down hc' hsa hi
      obtain ⟨y, hy, hr'⟩ := hc'.next_of_level h.next_down hc hsa.symm (Ne.symm hi)
      rw [hn] at hx
      rw [hn'] at hy
      cases hx
      cases hy
      exact hno c hr hr'

/-- **The walk of `get_branch_deprecated`** reaches the block where two ways first meet, within the
steps to it. -/
theorem meetDeprecated_of_meets (h : db.Traced numberOf parentIdOf) (maximum fuel : Nat)
    {a b c : BlockId} {first second : Walk T} {l m : List BlockId}
    (hf : first.From numberOf db a) (hs : second.From numberOf db b)
    (hm : Meets db.next first.node.block.id second.node.block.id l m c)
    (hfu : l.length + m.length ≤ fuel) :
    ∃ first' second', Walk.meetDeprecated db maximum fuel first second = .ok (first', second') ∧
      first'.From numberOf db a ∧ second'.From numberOf db b ∧
      first'.passed.map (·.block.id) = first.passed.map (·.block.id) ++ l ∧
      second'.passed.map (·.block.id) = second.passed.map (·.block.id) ++ m := by
  induction fuel using Nat.strong_induction_on generalizing first second l m with
  | _ fuel ih =>
    have hnu := h.number_linked hf.linked
    have hnu' := h.number_linked hs.linked
    have hh := hm.first.height_eq h.next_down
    have hh' := hm.second.height_eq h.next_down
    unfold Walk.meetDeprecated
    by_cases hi : first.node.block.id = second.node.block.id
    · rw [if_pos hi]
      obtain ⟨rfl, rfl⟩ := hm.nil_of_eq h.next_down hi
      exact ⟨first, second, rfl, hf, hs, by simp, by simp⟩
    rw [if_neg hi]
    -- a walk that goes on takes the step that its way takes
    have hg : ∀ {x y : BlockId} {walk : Walk T}, walk.From numberOf db x →
        db.next walk.node.block.id = some y → ∃ node, y = node.block.id ∧
          (walk.go node).From numberOf db x ∧ walk.stepDeprecated db = .ok (walk.go node) := by
      intro x y walk hw hn
      rcases step_cases h hw with ⟨hno, -⟩ | ⟨node, hn', hgo, -, hst⟩
      · rw [hno] at hn
        cases hn
      · rw [hn'] at hn
        exact ⟨node, (Option.some.inj hn).symm, hgo, hst⟩
    rcases lt_trichotomy second.node.block.number first.node.block.number with hlt | heq | hlt
    · obtain ⟨x, l', hn, rfl, hm'⟩ := hm.step h.next_down (by omega) hi
      obtain ⟨node, rfl, hgo, hst⟩ := hg hf hn
      rw [List.length_cons] at hfu
      obtain ⟨fuel, rfl⟩ : ∃ k, fuel = k + 1 := ⟨fuel - 1, by omega⟩
      obtain ⟨first', second', hme, hfr, hf', hi, hi'⟩ :=
        ih fuel (by omega) hgo hs hm' (by omega)
      simp only [if_pos hlt, hst]
      exact ⟨first', second', hme, hfr, hf', by rw [hi]; simp [go], hi'⟩
    · obtain ⟨x, l', hn, rfl, hm'⟩ := hm.step h.next_down (by omega) hi
      obtain ⟨node, rfl, hgo, hst⟩ := hg hf hn
      have hd := h.next_down _ _ hn
      obtain ⟨x, m', hn', rfl, hm''⟩ := hm'.symm.step h.next_down (by omega)
        (fun hsa => by rw [hsa] at hnu'; omega)
      obtain ⟨node', rfl, hg', hs'⟩ := hg hs hn'
      rw [List.length_cons, List.length_cons] at hfu
      obtain ⟨fuel, rfl⟩ : ∃ k, fuel = k + 2 := ⟨fuel - 2, by omega⟩
      obtain ⟨first', second', hme, hfr, hf', hi, hi'⟩ :=
        ih fuel (by omega) hgo hg' hm''.symm (by omega)
      simp only [heq, lt_irrefl, if_false, hst, hs']
      exact ⟨first', second', hme, hfr, hf', by rw [hi]; simp [go],
        by rw [hi']; simp [go]⟩
    · obtain ⟨x, m', hn, rfl, hm'⟩ := hm.symm.step h.next_down (by omega) (Ne.symm hi)
      obtain ⟨node, rfl, hgo, hst⟩ := hg hs hn
      rw [List.length_cons] at hfu
      obtain ⟨fuel, rfl⟩ : ∃ k, fuel = k + 1 := ⟨fuel - 1, by omega⟩
      obtain ⟨first', second', hme, hfr, hf', hi, hi'⟩ :=
        ih fuel (by omega) hf hgo hm'.symm (by omega)
      simp only [if_neg (not_lt.mpr hlt.le), if_pos hlt, hst]
      exact ⟨first', second', hme, hfr, hf', hi, by rw [hi']; simp [go]⟩

end Walk

/-! ## Branches -/

/-- **What `get_branch` returns** are the ways to where they first meet; it fails only where one of
the blocks is not linked or there is no such place. -/
theorem getBranch_cases (h : db.Traced numberOf parentIdOf) (a b : BlockId) :
    (∃ l m c, db.getBranch a b = .ok (l, m) ∧ (∀ n ∈ l, db.Linked n) ∧ (∀ n ∈ m, db.Linked n) ∧
      (db.linked.getByHash a).isSome ∧ (db.linked.getByHash b).isSome ∧
      (db.linked.getByHash c).isSome ∧
      Meets db.next a b (l.map (·.block.id)) (m.map (·.block.id)) c) ∨
    db.getBranch a b = .error .nonCommonBlock ∧
      ((db.linked.getByHash a).isSome → (db.linked.getByHash b).isSome → ∀ c,
        Reaches db.next a c → ¬ Reaches db.next b c) := by
  unfold getBranch
  cases hf : db.linked.getByHash a with
  | none => exact .inr ⟨rfl, nofun⟩
  | some first =>
    cases hs : db.linked.getByHash b with
    | none => exact .inr ⟨rfl, fun _ h => by cases h⟩
    | some second =>
      have hfr := Walk.From.start h hf
      have hf' := Walk.From.start h hs
      obtain ⟨hli, rfl⟩ := h.linked_of_getByHash hf
      obtain ⟨hli', rfl⟩ := h.linked_of_getByHash hs
      have hnu := h.number_linked hli
      have hn' := h.number_linked hli'
      dsimp only
      generalize hma : db.linked.entries.length * 2 + 2 = maximum
      rcases Walk.down_cases h maximum second.block.number maximum hfr (by omega) with
        ⟨fuel, walk, hdo, hw, hsu, hle, he, hr⟩ | ⟨hdo, hn⟩ <;> simp only [hdo]
      swap
      · -- the first walk ends above the second block
        refine .inr ⟨trivial, fun _ _ c hc hc' => ?_⟩
        obtain ⟨m, hm⟩ := hc'
        have hh := hm.height_eq h.next_down
        have ha := hn c hc
        omega
      -- what both blocks reach is not above the first walk
      have hco : ∀ c, Reaches db.next first.block.id c → Reaches db.next second.block.id c →
          numberOf c ≤ numberOf walk.node.block.id := by
        rintro c ⟨l, hl⟩ ⟨m, hm⟩
        have hh := hl.height_eq h.next_down
        have hh' := hm.height_eq h.next_down
        have hwn := h.number_linked hw.linked
        rcases he with rfl | he
        · dsimp only
          omega
        · omega
      rcases Walk.down_cases h maximum walk.node.block.number fuel hf' (by
        have hlt := hw.length_lt h
        dsimp only at hsu ⊢
        omega) with
        ⟨fuel', walk', hdo', hw', hs', hle', he', hr'⟩ | ⟨hdo', hn⟩ <;>
        simp only [hdo']
      swap
      · refine .inr ⟨trivial, fun _ _ c hc hc' => ?_⟩
        have ha := hn c hc'
        have hle := hco c hc hc'
        rw [h.number_linked hw.linked] at ha
        omega
      have hlev : walk.node.block.number = walk'.node.block.number := by
        rcases he' with rfl | he'
        · rcases he with rfl | he
          · exact le_antisymm hle hle'
          · exact he
        · exact he'.symm
      have hd : (walk.passed.map (·.block.id)).Disjoint (walk'.passed.map (·.block.id)) := by
        rcases he with rfl | he
        · exact fun _ hx => nomatch hx
        · -- the first walk came down to the second block, which stays
          have hh := hw'.path.height_eq h.next_down
          rw [← hn', ← h.number_linked hw'.linked] at hh
          obtain hni : walk'.passed.map (·.block.id) = [] :=
            List.length_eq_zero_iff.mp (by omega)
          rw [hni]
          exact fun _ _ hx => nomatch hx
      rcases Walk.meet_cases h maximum fuel' hw hw' hlev hd (by
        dsimp only at hsu hs'
        omega) with
        ⟨last, last', hmee, hla, hl', hsa, hd'⟩ | ⟨hmee, hn⟩ <;>
        simp only [hmee]
      · have hp' := hl'.path
        rw [← hsa] at hp'
        exact .inl ⟨_, _, last.node.block.id, rfl, hla.passed, hl'.passed, rfl, rfl,
          by rw [hla.linked.getByHash]; rfl, hla.path, hp', hd'⟩
      · refine .inr ⟨trivial, fun _ _ c hc hc' => ?_⟩
        have hle := hco c hc hc'
        have hwn := h.number_linked hw.linked
        have hwn' := h.number_linked hw'.linked
        have hb := (hw.path.reaches_or_mem hc).resolve_right fun hme => by
          have hlt := hw.path.height_lt h.next_down hme
          omega
        have hb' := (hw'.path.reaches_or_mem hc').resolve_right fun hme => by
          have hlt := hw'.path.height_lt h.next_down hme
          omega
        exact hn c hb hb'

theorem getBranchDeprecated_of_meets (h : db.Traced numberOf parentIdOf) {a b c : BlockId}
    (ha : (db.linked.getByHash a).isSome) (hb : (db.linked.getByHash b).isSome)
    (hc : (db.linked.getByHash c).isSome) {l m : List (KhaosNode T)}
    (hl : ∀ n ∈ l, db.Linked n) (hm : ∀ n ∈ m, db.Linked n)
    (hme : Meets db.next a b (l.map (·.block.id)) (m.map (·.block.id)) c) :
    db.getBranchDeprecated a b = .ok (l, m) := by
  obtain ⟨first, hf⟩ := Option.isSome_iff_exists.mp ha
  obtain ⟨second, hs⟩ := Option.isSome_iff_exists.mp hb
  have hle := h.length_le hme hc
  have hfr := Walk.From.start h hf
  have hf' := Walk.From.start h hs
  obtain ⟨-, rfl⟩ := h.linked_of_getByHash hf
  obtain ⟨-, rfl⟩ := h.linked_of_getByHash hs
  obtain ⟨first', second', hmee, he, he', hi, hi'⟩ :=
    Walk.meetDeprecated_of_meets h db.linked.entries.length db.linked.entries.length hfr hf'
      hme (by omega)
  simp only [getBranchDeprecated, hf, hs, hmee]
  rw [eq_of_ids he.passed hl hi, eq_of_ids he'.passed hm hi']

section Runs

variable [RetainedSize T]

/-- The graphs that the operations reach, with blocks whose id determines their number and their
parent. -/
inductive Grows (numberOf : BlockId → Int) (parentIdOf : BlockId → BlockId) :
    KhaosDatabase T → Prop where
  | new : Grows numberOf parentIdOf new
  | start {db : KhaosDatabase T} {block : KhaosBlockData T} : Grows numberOf parentIdOf db →
      block.number = numberOf block.id → block.parentId = parentIdOf block.id →
        Grows numberOf parentIdOf (start block db).2
  | push {db : KhaosDatabase T} {block : KhaosBlockData T} : Grows numberOf parentIdOf db →
      block.number = numberOf block.id → block.parentId = parentIdOf block.id →
        Grows numberOf parentIdOf (push block db).2
  | removeBlk {db : KhaosDatabase T} (id : BlockId) :
      Grows numberOf parentIdOf db → Grows numberOf parentIdOf (removeBlk id db).2
  | pop {db : KhaosDatabase T} :
      Grows numberOf parentIdOf db → Grows numberOf parentIdOf db.pop.2
  | setHead {db : KhaosDatabase T} (id : BlockId) :
      Grows numberOf parentIdOf db → Grows numberOf parentIdOf (setHead id db).2
  | setLimits {db : KhaosDatabase T} (limits : KhaosLimits) :
      Grows numberOf parentIdOf db → Grows numberOf parentIdOf (db.setLimits limits)
  | setMaxSize {db : KhaosDatabase T} (maxSize : Int) :
      Grows numberOf parentIdOf db → Grows numberOf parentIdOf (db.setMaxSize maxSize)

theorem Grows.traced (h : Grows numberOf parentIdOf db) : db.Traced numberOf parentIdOf := by
  induction h with
  | new => exact .new
  | start _ hn hpi ih => exact ih.start hn hpi
  | push _ hn hpi ih => exact ih.push hn hpi
  | removeBlk id _ ih => exact ih.removeBlk id
  | pop _ ih => exact ih.pop
  | setHead id _ ih => exact ih.setHead id
  | setLimits limits _ ih => exact ih.setLimits limits
  | setMaxSize maxSize _ ih => exact ih.setMaxSize maxSize

/-- **A branch is exact**: the blocks from each side down to the lowest common ancestor, which is
left out. It comes out the same from the other side and from `get_branch_deprecated`, and only a
missing ancestor is an error. -/
theorem getBranch_exact (h : Grows numberOf parentIdOf db) (a b : BlockId) :
    (∀ l m, db.getBranch a b = .ok (l, m) →
      (∀ n ∈ l ++ m, db.linked.getByHash n.block.id = some n) ∧
      (∃ c, (db.linked.getByHash c).isSome ∧
        Meets (fun id => some (parentIdOf id)) a b (l.map (·.block.id)) (m.map (·.block.id)) c ∧
        LowestCommon (fun id => some (parentIdOf id)) a b c) ∧
      db.getBranch b a = .ok (m, l) ∧ db.getBranchDeprecated a b = .ok (l, m)) ∧
    ∀ e, db.getBranch a b = .error e → e = .nonCommonBlock := by
  have htraced := h.traced
  rcases getBranch_cases htraced a b with ⟨l, m, c, hbranch, hl, hm, ha, hb, hc, hmeets⟩ |
    ⟨hbranch, -⟩ <;> rw [hbranch]
  · refine ⟨?_, nofun⟩
    rintro l m ⟨⟩
    have hparents : ∀ {x y : BlockId} {k : List BlockId}, Way db.next x k y →
        Way (fun id => some (parentIdOf id)) x k y := by
      intro x y k hpath
      have hmap : Way (fun id => some (parentIdOf id)) (id x) (k.map id) (id y) :=
        hpath.map fun x y hnext => congrArg some (htraced.next_eq_some hnext).1.symm
      rwa [List.map_id] at hmap
    have hmeets' : Meets (fun id => some (parentIdOf id)) a b (l.map (·.block.id))
        (m.map (·.block.id)) c :=
      ⟨hparents hmeets.first, hparents hmeets.second, hmeets.disjoint⟩
    refine ⟨fun n hn => (List.mem_append.mp hn).elim (hl n) (hm n),
      ⟨c, hc, hmeets', hmeets'.lowestCommon⟩, ?_,
      getBranchDeprecated_of_meets htraced ha hb hc hl hm hmeets⟩
    rcases getBranch_cases htraced b a with ⟨m', l', c', hbranch', hm', hl', -, -, -, hmeets''⟩ |
      ⟨-, hnone⟩
    · obtain ⟨hids, hids', -⟩ := hmeets''.symm.unique htraced.next_down hmeets
      rw [hbranch', eq_of_ids hl' hl hids, eq_of_ids hm' hm hids']
    · exact absurd ⟨_, hmeets.first⟩ (hnone hb ha c ⟨_, hmeets.second⟩)
  · refine ⟨nofun, ?_⟩
    rintro e ⟨⟩
    rfl

/-- The ids of two branches. -/
def branchIds (branch : Except KhaosError (List (KhaosNode T) × List (KhaosNode T))) :
    Option (List BlockId × List BlockId) :=
  branch.toOption.map fun (l, m) => (l.map (·.block.id), m.map (·.block.id))

end Runs

/-- The parents of the small graph. -/
def sampleParent (id : BlockId) : BlockId :=
  if id = (sampleBlock 0 9 .zero).id then .zero else (sampleBlock 0 9 .zero).id

/-- A first block with two children. -/
def sampleFork : KhaosDatabase UInt8 :=
  (push (sampleChild 2) (push (sampleChild 1) (start (sampleBlock 0 9 .zero) new).2).2).2

theorem sampleFork_grows : Grows BlockId.height sampleParent sampleFork :=
  .push (.push (.start .new (by decide) (by decide)) (by decide) (by decide)) (by decide)
    (by decide)

/-- The branches of the two children. -/
theorem getBranch_exact_sample :
    ∃ l m, sampleFork.getBranch (sampleChild 1).id (sampleChild 2).id = .ok (l, m) ∧
      l.map (·.block.id) = [(sampleChild 1).id] ∧ m.map (·.block.id) = [(sampleChild 2).id] ∧
      sampleFork.getBranch (sampleChild 2).id (sampleChild 1).id = .ok (m, l) := by
  have hids : branchIds (sampleFork.getBranch (sampleChild 1).id (sampleChild 2).id) =
      some ([(sampleChild 1).id], [(sampleChild 2).id]) := by decide
  obtain ⟨⟨l, m⟩, hbranch, hpair⟩ := Option.map_eq_some_iff.mp hids
  have hok := toOption_eq_some_iff.mp hbranch
  obtain ⟨-, -, hswap, -⟩ :=
    (getBranch_exact sampleFork_grows (sampleChild 1).id (sampleChild 2).id).1 l m hok
  exact ⟨l, m, hok, congrArg Prod.fst hpair, congrArg Prod.snd hpair, hswap⟩

/-- The branch of a block to its parent has nothing on the side of the parent. -/
theorem branch_of_parent_empty :
    ¬ ∀ db : KhaosDatabase UInt8, Grows BlockId.height sampleParent db → ∀ a b l m,
      db.getBranch a b = .ok (l, m) →
        l.head?.map (·.block.id) = some a ∧ m.head?.map (·.block.id) = some b := by
  intro hclaim
  have hids : branchIds (sampleFork.getBranch (sampleChild 1).id (sampleBlock 0 9 .zero).id) =
      some ([(sampleChild 1).id], []) := by decide
  obtain ⟨⟨l, m⟩, hbranch, hpair⟩ := Option.map_eq_some_iff.mp hids
  obtain ⟨-, hstart⟩ := hclaim _ sampleFork_grows _ _ l m (toOption_eq_some_iff.mp hbranch)
  rw [List.map_eq_nil_iff.mp (congrArg Prod.snd hpair)] at hstart
  cases hstart

end KhaosDatabase

end RustTron.State
