import RustTron.Primitives.Bytes
import Mathlib

/-!
# The Kademlia table

Nodes live in 256 buckets of at most sixteen, each in the bucket of its XOR distance to the local
node.  A node that finds its bucket full waits in the replacement list of the bucket, and when a
node of the bucket dies, the newest waiting one takes its place.

Nothing looks into the replacement list: a node that is heard of twice while it waits waits twice,
and two deaths later it is in the bucket twice.  That is the one way to lose the uniqueness of the
table, and it is lost exactly when a node is promoted that the bucket has already.

## Main definitions

* `KademliaTable.bucketIndex`, `insert`, `markAlive`, `markFailed`, `closest`
* `KademliaTable.Intact`: what the table promises
* `KademliaTable.Promotes`: a failure promotes no node that stays in the bucket

## Main results

* `KademliaTable.throughout_intact_iff`: the promises hold throughout a run iff every failure of
  it promotes so
-/

namespace RustTron.Network.Discovery

def bucketSize : Nat := 16

structure Endpoint where
  address : Bytes
  port : Int
  nodeId : Bytes
  addressIpv6 : Bytes
  deriving DecidableEq

inductive NodeState
  | discovered
  | alive
  | active
  | evictionCandidate
  | dead
  deriving DecidableEq

/-- `NodeRecord`, over the type of socket addresses. -/
structure NodeRecord (A : Type) where
  endpoint : Endpoint
  address : A
  state : NodeState
  updateTime : Int
  lastSeen : Int
  failures : UInt8

variable {A : Type}

namespace NodeRecord

def nodeId (n : NodeRecord A) : Bytes := n.endpoint.nodeId

/-- What `mark_alive` does to a record. -/
def markAlive (now : Int) (n : NodeRecord A) : NodeRecord A :=
  { n with state := .alive, lastSeen := now, updateTime := now, failures := 0 }

/-- `failures.saturating_add(1)`. -/
def failedAgain (n : NodeRecord A) : UInt8 := if n.failures = 255 then 255 else n.failures + 1

/-- What `mark_failed` does to a record. -/
def markFailed (threshold : UInt8) (n : NodeRecord A) : NodeRecord A :=
  { n with
    failures := n.failedAgain
    state := if threshold ≤ n.failedAgain then .dead else .evictionCandidate }

/-- A promoted record. -/
def promoted (n : NodeRecord A) : NodeRecord A := { n with state := .discovered }

@[simp] theorem nodeId_markAlive (now : Int) (n : NodeRecord A) :
    (n.markAlive now).nodeId = n.nodeId := rfl

@[simp] theorem nodeId_markFailed (threshold : UInt8) (n : NodeRecord A) :
    (n.markFailed threshold).nodeId = n.nodeId := rfl

@[simp] theorem nodeId_promoted (n : NodeRecord A) : n.promoted.nodeId = n.nodeId := rfl

theorem markFailed_dead {threshold : UInt8} {n : NodeRecord A} :
    (n.markFailed threshold).state = .dead ↔ threshold ≤ n.failedAgain := by
  simp only [markFailed, ite_eq_left_iff, reduceCtorEq, imp_false, not_not]

end NodeRecord

/-! ### Queues -/

section Queues

variable {α : Type}

/-- The first record that `p` finds, changed by `f`: `iter_mut().find`. -/
def updateFirst (p : α → Bool) (f : α → α) : List α → List α
  | [] => []
  | a :: l => if p a then f a :: l else a :: updateFirst p f l

/-- `while len() > BUCKET_SIZE { pop_front() }`. -/
def trim : List α → List α
  | [] => []
  | a :: l => if bucketSize < (a :: l).length then trim l else a :: l

theorem trim_suffix (l : List α) : trim l <:+ l := by
  induction l with
  | nil => exact List.suffix_rfl
  | cons a l ih =>
    rw [trim]
    split
    · exact ih.trans (List.suffix_cons a l)
    · exact List.suffix_rfl

theorem length_trim_le (l : List α) : (trim l).length ≤ bucketSize := by
  induction l with
  | nil => exact Nat.zero_le _
  | cons a l ih =>
    rw [trim]
    split
    · exact ih
    · omega

theorem length_updateFirst (p : α → Bool) (f : α → α) (l : List α) :
    (updateFirst p f l).length = l.length := by
  induction l with
  | nil => rfl
  | cons a l ih =>
    rw [updateFirst]
    split
    · rfl
    · rw [List.length_cons, ih, List.length_cons]

theorem map_updateFirst {β : Type} {p : α → Bool} {f : α → α} {key : α → β}
    (hf : ∀ a, key (f a) = key a) (l : List α) : (updateFirst p f l).map key = l.map key := by
  induction l with
  | nil => rfl
  | cons a l ih =>
    rw [updateFirst]
    split
    · rw [List.map_cons, hf, List.map_cons]
    · rw [List.map_cons, ih, List.map_cons]

end Queues

/-! ### The table -/

structure KademliaTable (A : Type) where
  localId : Bytes
  buckets : Vector (List (NodeRecord A)) 256
  replacements : Vector (List (NodeRecord A)) 256

def leadingZeros (b : UInt8) : Nat := if b = 0 then 8 else 7 - b.toNat.log2

namespace KademliaTable

def new (localId : Bytes) : KademliaTable A :=
  ⟨localId, Vector.replicate 256 [], Vector.replicate 256 []⟩

/-- `KademliaTable::distance`: missing bytes count as zero. -/
def distance (a b : Bytes) : Bytes := (List.range 64).map fun i => a.getD i 0 ^^^ b.getD i 0

def bucketIndex (t : KademliaTable A) (id : Bytes) : Option (Fin 256) :=
  let d := distance t.localId id
  let leading := (d.takeWhile (· == 0)).length
  if leading = 64 then none
  else some ⟨(511 - (leading * 8 + leadingZeros (d.getD leading 0))) / 2, by omega⟩

/-- The record of `id` in a list. -/
def isNode (id : Bytes) (n : NodeRecord A) : Bool := n.nodeId == id

/-- `KademliaTable::insert`, with the candidate for eviction that it returns. -/
def insert (t : KademliaTable A) (node : NodeRecord A) : KademliaTable A × Option (NodeRecord A) :=
  match t.bucketIndex node.nodeId with
  | none => (t, none)
  | some i =>
    if t.buckets[i].any (isNode node.nodeId) then
      ({ t with buckets :=
          t.buckets.set i (t.buckets[i].eraseP (isNode node.nodeId) ++ [node]) }, none)
    else if t.buckets[i].length < bucketSize then
      ({ t with buckets := t.buckets.set i (t.buckets[i] ++ [node]) }, none)
    else
      ({ t with replacements := t.replacements.set i (trim (t.replacements[i] ++ [node])) },
        t.buckets[i].head?)

def update (t : KademliaTable A) (id : Bytes) (f : NodeRecord A → NodeRecord A) :
    KademliaTable A :=
  match t.bucketIndex id with
  | none => t
  | some i => { t with buckets := t.buckets.set i (updateFirst (isNode id) f t.buckets[i]) }

/-- A dead record of `id`. -/
def isDead (id : Bytes) (n : NodeRecord A) : Bool := isNode id n && n.state == .dead

def evictDead (t : KademliaTable A) (id : Bytes) : KademliaTable A :=
  match t.bucketIndex id with
  | none => t
  | some i =>
    if t.buckets[i].any (isDead id) then
      { t with
        buckets := t.buckets.set i (t.buckets[i].eraseP (isDead id) ++
          (t.replacements[i].getLast?.map NodeRecord.promoted).toList)
        replacements := t.replacements.set i t.replacements[i].dropLast }
    else t

def markAlive (t : KademliaTable A) (id : Bytes) (now : Int) : KademliaTable A :=
  t.update id (NodeRecord.markAlive now)

def markFailed (t : KademliaTable A) (id : Bytes) (threshold : UInt8) : KademliaTable A :=
  (t.update id (NodeRecord.markFailed threshold)).evictDead id

def nodes (t : KademliaTable A) : List (NodeRecord A) := t.buckets.toList.flatten

/-- The order of `closest`: by distance, then the newer first. -/
def Nearer (target : Bytes) (a b : NodeRecord A) : Prop :=
  ¬ keyLe (distance b.nodeId target) (distance a.nodeId target) ∨
    distance a.nodeId target = distance b.nodeId target ∧ b.updateTime ≤ a.updateTime

instance (target : Bytes) : DecidableRel (Nearer (A := A) target) := fun _ _ =>
  inferInstanceAs (Decidable (_ ∨ _))

/-- The records that are not dead. -/
def live (t : KademliaTable A) : List (NodeRecord A) := t.nodes.filter fun n => n.state ≠ .dead

def closest (t : KademliaTable A) (target : Bytes) (limit : Nat) : List (NodeRecord A) :=
  (t.live.insertionSort (Nearer target)).take limit

/-! ### Closest nodes -/

section Closest

variable {target : Bytes} {a b c : NodeRecord A}

theorem Nearer.distance_le (h : Nearer target a b) :
    keyLe (distance a.nodeId target) (distance b.nodeId target) := by
  rcases h with h | ⟨h, -⟩
  · exact (Std.Total.total (r := keyLe) _ _).resolve_right h
  · rw [h]
    exact (Std.Total.total (r := keyLe) _ _).elim id id

instance (target : Bytes) : Std.Total (Nearer (A := A) target) where
  total a b := by
    by_cases hab : keyLe (distance a.nodeId target) (distance b.nodeId target)
    · by_cases hba : keyLe (distance b.nodeId target) (distance a.nodeId target)
      · have heq := Std.Antisymm.antisymm (r := keyLe) _ _ hab hba
        exact (le_total b.updateTime a.updateTime).imp (fun h => .inr ⟨heq, h⟩)
          (fun h => .inr ⟨heq.symm, h⟩)
      · exact .inl (.inl hba)
    · exact .inr (.inl hab)

instance (target : Bytes) : IsTrans (NodeRecord A) (Nearer target) where
  trans a b c hab hbc := by
    have hab' := hab.distance_le
    rcases hbc with hbc | ⟨hbc, htime⟩
    · exact .inl fun h => hbc (Trans.trans (r := keyLe) (s := keyLe) h hab')
    · rcases hab with hab | ⟨hab, htime'⟩
      · exact .inl (hbc ▸ hab)
      · exact .inr ⟨hab.trans hbc, htime.trans htime'⟩

/-- The promise of `closest`: as many live nodes as there are, up to the limit, in the order of
their distance, none twice, and none left out that is nearer than one of them. -/
structure IsClosest (t : KademliaTable A) (target : Bytes) (limit : Nat)
    (found : List (NodeRecord A)) : Prop where
  length_eq : found.length = min limit t.live.length
  live : ∀ n ∈ found, n ∈ t.nodes ∧ n.state ≠ .dead
  sorted : found.Pairwise fun a b => keyLe (distance a.nodeId target) (distance b.nodeId target)
  nodup : (found.map NodeRecord.nodeId).Nodup
  nearest : ∀ n ∈ t.live, n ∉ found →
    ∀ m ∈ found, keyLe (distance m.nodeId target) (distance n.nodeId target)

theorem isClosest_closest {t : KademliaTable A} (h : (t.nodes.map NodeRecord.nodeId).Nodup)
    (target : Bytes) (limit : Nat) : t.IsClosest target limit (t.closest target limit) := by
  have hp := List.perm_insertionSort (Nearer target) t.live
  have hs : (t.live.insertionSort (Nearer target)).Pairwise (Nearer target) :=
    List.pairwise_insertionSort _ _
  refine ⟨?_, fun n hn => ?_, ?_, ?_, fun n hn ho m hm => ?_⟩
  · rw [closest, List.length_take, hp.length_eq]
  · have hl := hp.mem_iff.mp (List.mem_of_mem_take hn)
    exact ⟨List.mem_of_mem_filter hl, by simpa [live] using (List.mem_filter.mp hl).2⟩
  · exact (hs.imp Nearer.distance_le).sublist (List.take_sublist _ _)
  · have hl : (t.live.map NodeRecord.nodeId).Nodup := h.sublist (List.filter_sublist.map _)
    exact ((hp.map _).nodup_iff.mpr hl).sublist ((List.take_sublist _ _).map _)
  · rw [← hp.mem_iff, ← List.take_append_drop limit (t.live.insertionSort _)] at hn
    rw [← List.take_append_drop limit (t.live.insertionSort _)] at hs
    rcases List.mem_append.mp hn with hn | hn
    · exact absurd hn ho
    · exact ((List.pairwise_append.mp hs).2.2 m hm n hn).distance_le

end Closest

/-! ### Steps -/

inductive Call (A : Type)
  | insert (node : NodeRecord A)
  | markAlive (id : Bytes) (now : Int)
  | markFailed (id : Bytes) (threshold : UInt8)

/-- The node that a call is about. -/
def Call.id : Call A → Bytes
  | .insert node => node.nodeId
  | .markAlive id _ => id
  | .markFailed id _ => id

def step (t : KademliaTable A) : Call A → KademliaTable A
  | .insert node => (t.insert node).1
  | .markAlive id now => t.markAlive id now
  | .markFailed id threshold => t.markFailed id threshold

/-- The table with one bucket and its replacement list exchanged. -/
def replace (t : KademliaTable A) (i : Fin 256) (bucket waiting : List (NodeRecord A)) :
    KademliaTable A :=
  { t with buckets := t.buckets.set i bucket, replacements := t.replacements.set i waiting }

/-- What a call may do to a bucket and its replacement list. -/
inductive Moves (bucket waiting : List (NodeRecord A)) :
    Call A → List (NodeRecord A) → List (NodeRecord A) → Prop
  | known {node : NodeRecord A} (h : bucket.any (isNode node.nodeId) = true) :
      Moves bucket waiting (.insert node) (bucket.eraseP (isNode node.nodeId) ++ [node]) waiting
  | room {node : NodeRecord A} (h : ¬ bucket.any (isNode node.nodeId) = true)
      (hroom : bucket.length < bucketSize) :
      Moves bucket waiting (.insert node) (bucket ++ [node]) waiting
  | waits {node : NodeRecord A} (h : ¬ bucket.any (isNode node.nodeId) = true) :
      Moves bucket waiting (.insert node) bucket (trim (waiting ++ [node]))
  | alive {id : Bytes} {now : Int} :
      Moves bucket waiting (.markAlive id now)
        (updateFirst (isNode id) (NodeRecord.markAlive now) bucket) waiting
  | failed {id : Bytes} {threshold : UInt8}
      (h : ¬ (updateFirst (isNode id) (NodeRecord.markFailed threshold) bucket).any
        (isDead id) = true) :
      Moves bucket waiting (.markFailed id threshold)
        (updateFirst (isNode id) (NodeRecord.markFailed threshold) bucket) waiting
  | died {id : Bytes} {threshold : UInt8}
      (h : (updateFirst (isNode id) (NodeRecord.markFailed threshold) bucket).any
        (isDead id) = true) :
      Moves bucket waiting (.markFailed id threshold)
        ((updateFirst (isNode id) (NodeRecord.markFailed threshold) bucket).eraseP (isDead id) ++
          (waiting.getLast?.map NodeRecord.promoted).toList) waiting.dropLast

section Steps

variable {t : KademliaTable A} {k : Call A} {i j : Fin 256}
  {bucket waiting bucket' waiting' : List (NodeRecord A)}

@[simp] theorem buckets_replace : (t.replace i bucket waiting).buckets[j] =
    if i = j then bucket else t.buckets[j] := by
  simp only [replace, Fin.getElem_fin, Vector.getElem_set, Fin.ext_iff]

@[simp] theorem replacements_replace : (t.replace i bucket waiting).replacements[j] =
    if i = j then waiting else t.replacements[j] := by
  simp only [replace, Fin.getElem_fin, Vector.getElem_set, Fin.ext_iff]

theorem replace_bucket : t.replace i bucket t.replacements[i] =
    { t with buckets := t.buckets.set i bucket } := by
  simp only [replace, Fin.getElem_fin, Vector.set_getElem_self]

theorem replace_waiting : t.replace i t.buckets[i] waiting =
    { t with replacements := t.replacements.set i waiting } := by
  simp only [replace, Fin.getElem_fin, Vector.set_getElem_self]

theorem update_eq {id : Bytes} (hi : t.bucketIndex id = some i)
    (f : NodeRecord A → NodeRecord A) :
    t.update id f = t.replace i (updateFirst (isNode id) f t.buckets[i]) t.replacements[i] := by
  rw [update, hi, replace_bucket]

theorem step_cases (t : KademliaTable A) (k : Call A) :
    (t.bucketIndex k.id = none ∧ t.step k = t) ∨
      ∃ i bucket waiting, t.bucketIndex k.id = some i ∧
        Moves t.buckets[i] t.replacements[i] k bucket waiting ∧
        t.step k = t.replace i bucket waiting := by
  cases hi : t.bucketIndex k.id with
  | none =>
    refine .inl ⟨rfl, ?_⟩
    cases k with
    | insert node =>
      change t.bucketIndex node.nodeId = none at hi
      simp only [step, insert, hi]
    | markAlive id now =>
      change t.bucketIndex id = none at hi
      simp only [step, markAlive, update, hi]
    | markFailed id threshold =>
      change t.bucketIndex id = none at hi
      simp only [step, markFailed, update, evictDead, hi]
  | some i =>
    refine .inr ?_
    cases k with
    | insert node =>
      change t.bucketIndex node.nodeId = some i at hi
      simp only [step, insert, hi]
      split
      next h => exact ⟨i, _, _, rfl, .known h, replace_bucket.symm⟩
      next h =>
        split
        next hr => exact ⟨i, _, _, rfl, .room h hr, replace_bucket.symm⟩
        next => exact ⟨i, _, _, rfl, .waits h, replace_waiting.symm⟩
    | markAlive id now =>
      exact ⟨i, _, _, rfl, .alive, update_eq hi _⟩
    | markFailed id threshold =>
      change t.bucketIndex id = some i at hi
      have hu := update_eq hi (NodeRecord.markFailed threshold)
      have hin : (t.update id (NodeRecord.markFailed threshold)).bucketIndex id = some i := by
        rw [hu]
        exact hi
      simp only [step, markFailed, evictDead, hin]
      rw [hu, buckets_replace, if_pos rfl, replacements_replace, if_pos rfl]
      split
      next h =>
        refine ⟨i, _, _, rfl, .died h, ?_⟩
        simp only [replace, Vector.set_set]
      next h => exact ⟨i, _, _, rfl, .failed h, rfl⟩

/-- The ids of a list of records. -/
def ids (l : List (NodeRecord A)) : List Bytes := l.map NodeRecord.nodeId

theorem any_isNode {id : Bytes} {l : List (NodeRecord A)} :
    l.any (isNode id) = true ↔ id ∈ ids l := by
  simp only [List.any_eq_true, isNode, beq_iff_eq, ids, List.mem_map]

theorem Moves.ids_subset (h : Moves bucket waiting k bucket' waiting') {id : Bytes}
    (hid : id ∈ ids (bucket' ++ waiting')) : id ∈ ids (bucket ++ waiting) ∨ id = k.id := by
  simp only [ids, List.map_append, List.mem_append] at hid ⊢
  cases h with
  | known =>
    simp only [List.map_append, List.mem_append, List.map_singleton, List.mem_singleton] at hid
    rcases hid with (hid | hid) | hid
    · exact .inl (.inl ((List.eraseP_sublist.map _).subset hid))
    · exact .inr hid
    · exact .inl (.inr hid)
  | room =>
    simp only [List.map_append, List.mem_append, List.map_singleton, List.mem_singleton] at hid
    rcases hid with (hid | hid) | hid
    · exact .inl (.inl hid)
    · exact .inr hid
    · exact .inl (.inr hid)
  | waits =>
    rcases hid with hid | hid
    · exact .inl (.inl hid)
    · have := ((trim_suffix _).sublist.map NodeRecord.nodeId).subset hid
      rw [List.map_append, List.mem_append, List.map_singleton, List.mem_singleton] at this
      exact this.imp_left .inr
  | alive =>
    rw [map_updateFirst (NodeRecord.nodeId_markAlive _)] at hid
    exact .inl hid
  | failed =>
    rw [map_updateFirst (NodeRecord.nodeId_markFailed _)] at hid
    exact .inl hid
  | died =>
    simp only [List.map_append, List.mem_append] at hid
    rcases hid with (hid | hid) | hid
    · have := (List.eraseP_sublist.map NodeRecord.nodeId).subset hid
      rw [map_updateFirst (NodeRecord.nodeId_markFailed _)] at this
      exact .inl (.inl this)
    · refine .inl (.inr ?_)
      cases hl : waiting.getLast? with
      | none => simp [hl] at hid
      | some w =>
        simp only [hl, Option.map_some, Option.toList_some, List.map_singleton,
          NodeRecord.nodeId_promoted, List.mem_singleton] at hid
        rw [hid]
        exact List.mem_map_of_mem (List.mem_of_getLast? hl)
    · exact .inl (.inr (((List.dropLast_sublist _).map _).subset hid))

theorem Moves.length_le (h : Moves bucket waiting k bucket' waiting')
    (hb : bucket.length ≤ bucketSize) (hw : waiting.length ≤ bucketSize) :
    bucket'.length ≤ bucketSize ∧ waiting'.length ≤ bucketSize := by
  cases h with
  | known h =>
    obtain ⟨n, hn, hp⟩ := List.any_eq_true.mp h
    refine ⟨?_, hw⟩
    have := List.length_eraseP_of_mem hn hp
    have := List.length_pos_of_mem hn
    rw [List.length_append, List.length_singleton]
    omega
  | room _ hr => exact ⟨by rw [List.length_append, List.length_singleton]; omega, hw⟩
  | waits => exact ⟨hb, length_trim_le _⟩
  | alive => exact ⟨by rwa [length_updateFirst], hw⟩
  | failed => exact ⟨by rwa [length_updateFirst], hw⟩
  | died h =>
    obtain ⟨n, hn, hp⟩ := List.any_eq_true.mp h
    have he := List.length_eraseP_of_mem hn hp
    have hpo := List.length_pos_of_mem hn
    rw [length_updateFirst] at he hpo
    refine ⟨?_, (List.dropLast_sublist _).length_le.trans hw⟩
    rw [List.length_append, he]
    cases waiting.getLast? with
    | none =>
      simp only [Option.map_none, Option.toList_none, List.length_nil]
      omega
    | some w =>
      simp only [Option.map_some, Option.toList_some, List.length_singleton]
      omega

end Steps

/-! ### Uniqueness -/

section Unique

variable {k : Call A} {bucket waiting bucket' waiting' : List (NodeRecord A)} {id : Bytes}
  {n : NodeRecord A}

/-- A failure that kills its node promotes one that does not stay in the bucket. -/
def PromotesIn (bucket waiting : List (NodeRecord A)) : Call A → Prop
  | .insert _ => True
  | .markAlive _ _ => True
  | .markFailed id threshold => ∀ n ∈ bucket, n.nodeId = id → threshold ≤ n.failedAgain →
      ∀ w, waiting.getLast? = some w → ∀ m ∈ bucket, m.nodeId = w.nodeId → m.nodeId = id

instance (bucket waiting : List (NodeRecord A)) (k : Call A) :
    Decidable (PromotesIn bucket waiting k) :=
  match k with
  | .insert _ => .isTrue trivial
  | .markAlive _ _ => .isTrue trivial
  | .markFailed id threshold => inferInstanceAs (Decidable (∀ n ∈ bucket, n.nodeId = id →
      threshold ≤ n.failedAgain → ∀ w ∈ waiting.getLast?, ∀ m ∈ bucket,
        m.nodeId = w.nodeId → m.nodeId = id))

theorem mem_updateFirst_of_nodup {f : NodeRecord A → NodeRecord A} (h : (ids bucket).Nodup)
    (hn : n ∈ bucket) : f n ∈ updateFirst (isNode n.nodeId) f bucket := by
  induction bucket with
  | nil => cases hn
  | cons a l ih =>
    obtain ⟨ha, hl⟩ := List.nodup_cons.mp h
    rw [updateFirst]
    rcases List.mem_cons.mp hn with rfl | hn
    · rw [if_pos (by simp [isNode])]
      exact List.mem_cons_self
    · have hne : a.nodeId ≠ n.nodeId := fun he => ha (he ▸ List.mem_map_of_mem hn)
      rw [if_neg (by simpa [isNode] using hne)]
      exact List.mem_cons_of_mem a (ih hl hn)

theorem ids_eraseP {p : NodeRecord A → Bool} (h : (ids bucket).Nodup) (hn : n ∈ bucket)
    (hp : p n = true) (hid : ∀ m, p m = true → m.nodeId = id) :
    ids (bucket.eraseP p) = (ids bucket).erase id := by
  induction bucket with
  | nil => cases hn
  | cons a l ih =>
    obtain ⟨ha, hl⟩ := List.nodup_cons.mp h
    by_cases hpa : p a = true
    · rw [List.eraseP_cons_of_pos hpa, ids, ids, List.map_cons, hid a hpa,
        List.erase_cons_head]
    · have hnl : n ∈ l := (List.mem_cons.mp hn).resolve_left fun he => hpa (he ▸ hp)
      have hne : a.nodeId ≠ id := fun he =>
        ha (by rw [he, ← hid n hp]; exact List.mem_map_of_mem hnl)
      rw [List.eraseP_cons_of_neg hpa, ids, List.map_cons, ids, List.map_cons,
        List.erase_cons_tail (by simpa using hne)]
      exact congrArg _ (ih hl hnl)

theorem nodup_concat {l : List Bytes} {a : Bytes} : (l ++ [a]).Nodup ↔ l.Nodup ∧ a ∉ l := by
  rw [← List.concat_eq_append, List.nodup_concat, and_comm]

/-- Of distinct ids, a call leaves distinct ids iff it promotes none that is there. -/
theorem Moves.nodup_iff (h : Moves bucket waiting k bucket' waiting') (hb : (ids bucket).Nodup) :
    (ids bucket').Nodup ↔ PromotesIn bucket waiting k := by
  cases h with
  | @known node h =>
    refine iff_of_true ?_ trivial
    obtain ⟨n, hn, hp⟩ := List.any_eq_true.mp h
    have hno : ∀ m : NodeRecord A, isNode node.nodeId m = true → m.nodeId = node.nodeId :=
      fun m hm => beq_iff_eq.mp hm
    have her := ids_eraseP hb hn hp hno
    rw [ids, List.map_append, List.map_singleton, nodup_concat]
    change (ids _).Nodup ∧ _ ∉ ids _
    rw [her]
    exact ⟨hb.erase _, fun hme => (hb.mem_erase_iff.mp hme).1 rfl⟩
  | room h =>
    refine iff_of_true ?_ trivial
    rw [ids, List.map_append, List.map_singleton, nodup_concat]
    exact ⟨hb, fun hme => h (any_isNode.mpr hme)⟩
  | waits => exact iff_of_true hb trivial
  | alive =>
    refine iff_of_true ?_ trivial
    rwa [ids, map_updateFirst (NodeRecord.nodeId_markAlive _)]
  | @failed id threshold h =>
    refine iff_of_true (by rwa [ids, map_updateFirst (NodeRecord.nodeId_markFailed _)]) ?_
    rintro n hn rfl hle
    refine absurd (List.any_eq_true.mpr ⟨_, mem_updateFirst_of_nodup hb hn, ?_⟩) h
    simpa [isDead, isNode] using NodeRecord.markFailed_dead.mpr hle
  | @died id threshold h =>
    obtain ⟨n', hn', hd⟩ := List.any_eq_true.mp h
    have hi : ids (updateFirst (isNode id) (NodeRecord.markFailed threshold) bucket) =
        ids bucket := map_updateFirst (NodeRecord.nodeId_markFailed _) bucket
    have hii : ∀ m : NodeRecord A, isDead id m = true → m.nodeId = id :=
      fun m hm => beq_iff_eq.mp (Bool.and_eq_true_iff.mp hm).1
    have her := ids_eraseP (hi ▸ hb) hn' hd hii
    rw [hi] at her
    -- The dead record is the one of the id, as it is after the failure.
    have hdi : ∃ n ∈ bucket, n.nodeId = id ∧ threshold ≤ n.failedAgain := by
      simp only [isDead, isNode, Bool.and_eq_true, beq_iff_eq] at hd
      have hme : n'.nodeId ∈ ids bucket := hi ▸ List.mem_map_of_mem hn'
      obtain ⟨n, hn, hne⟩ : ∃ n ∈ bucket, n.nodeId = id := List.mem_map.mp (hd.1 ▸ hme)
      have hs : n' = n.markFailed threshold := by
        refine List.inj_on_of_nodup_map (hi ▸ hb : (ids _).Nodup) hn' ?_ ?_
        · exact hne ▸ mem_updateFirst_of_nodup hb hn
        · exact hd.1.trans hne.symm
      exact ⟨n, hn, hne, NodeRecord.markFailed_dead.mp (hs ▸ hd.2)⟩
    cases hl : waiting.getLast? with
    | none =>
      refine iff_of_true ?_ fun n _ _ _ w hw => ?_
      · simp only [Option.map_none, Option.toList_none, List.append_nil]
        exact her ▸ hb.erase _
      · rw [hl] at hw
        cases hw
    | some w =>
      have hc : (ids ((updateFirst (isNode id) (NodeRecord.markFailed threshold) bucket).eraseP
          (isDead id) ++ (some w.promoted).toList)).Nodup ↔ w.nodeId ∉ (ids bucket).erase id := by
        rw [ids, List.map_append, Option.toList_some, List.map_singleton, nodup_concat]
        change (ids _).Nodup ∧ _ ∉ ids _ ↔ _
        rw [her]
        exact and_iff_right (hb.erase _)
      rw [Option.map_some, hc, hb.mem_erase_iff]
      constructor
      · rintro ho n - - - v hv m hm hmv
        cases hl.symm.trans hv
        by_contra hmi
        exact ho ⟨fun he => hmi (hmv.trans he), hmv ▸ List.mem_map_of_mem hm⟩
      · rintro hpr ⟨hne, hme⟩
        obtain ⟨n, hn, hni, hle⟩ := hdi
        obtain ⟨m, hm, hmw⟩ := List.mem_map.mp hme
        exact hne (hmw ▸ hpr n hn hni hle w hl m hm hmw)

end Unique

/-! ### Invariants -/

/-- What every run keeps: the nodes are in the buckets of their distances, and the lists within
their bounds. -/
structure Filed (t : KademliaTable A) : Prop where
  placed : ∀ i : Fin 256, ∀ id ∈ ids (t.buckets[i] ++ t.replacements[i]),
    t.bucketIndex id = some i
  bucket_le : ∀ i : Fin 256, t.buckets[i].length ≤ bucketSize
  replacement_le : ∀ i : Fin 256, t.replacements[i].length ≤ bucketSize

/-- What the table promises: a node is in the table once at most, and in the bucket of its
distance, the lists are within their bounds, the local node is nowhere, and `closest` answers
with the closest nodes. -/
structure Intact (t : KademliaTable A) : Prop where
  once : (ids t.nodes).Nodup
  placed : ∀ i : Fin 256, ∀ n ∈ t.buckets[i], t.bucketIndex n.nodeId = some i
  bucket_le : ∀ i : Fin 256, t.buckets[i].length ≤ bucketSize
  replacement_le : ∀ i : Fin 256, t.replacements[i].length ≤ bucketSize
  notLocal : ∀ i : Fin 256, ∀ n ∈ t.buckets[i] ++ t.replacements[i], n.nodeId ≠ t.localId
  closest : ∀ target limit, t.IsClosest target limit (t.closest target limit)

/-- A failure promotes no node that stays in the bucket. -/
def Promotes (t : KademliaTable A) (k : Call A) : Prop :=
  ∀ i : Fin 256, t.bucketIndex k.id = some i → PromotesIn t.buckets[i] t.replacements[i] k

section Invariants

variable {t : KademliaTable A} {k : Call A}

theorem filed_new (localId : Bytes) : (new localId : KademliaTable A).Filed where
  placed i id hid := by simp [new, ids] at hid
  bucket_le i := by simp [new]
  replacement_le i := by simp [new]

theorem Filed.step (h : t.Filed) (k : Call A) : (t.step k).Filed := by
  rcases t.step_cases k with ⟨-, hs⟩ | ⟨i, bucket, waiting, hi, hm, hs⟩
  · rwa [hs]
  · rw [hs]
    obtain ⟨hb, hw⟩ := hm.length_le (h.bucket_le i) (h.replacement_le i)
    refine ⟨fun j id hid => ?_, fun j => ?_, fun j => ?_⟩
    · rw [buckets_replace, replacements_replace] at hid
      split at hid
      next hij =>
        subst hij
        rcases hm.ids_subset hid with hid | rfl
        · exact h.placed i id hid
        · exact hi
      next => exact h.placed j id hid
    · rw [buckets_replace]
      split
      · exact hb
      · exact h.bucket_le j
    · rw [replacements_replace]
      split
      · exact hw
      · exact h.replacement_le j

theorem bucketIndex_localId (t : KademliaTable A) : t.bucketIndex t.localId = none := by
  have hz : distance t.localId t.localId = List.replicate 64 0 := by
    simp only [distance, UInt8.xor_self, List.map_const', List.length_range]
  have hl : ((distance t.localId t.localId).takeWhile (· == 0)).length = 64 := by
    rw [hz]
    rfl
  simp only [bucketIndex, hl, if_true]

theorem Filed.once_iff (h : t.Filed) :
    (ids t.nodes).Nodup ↔ ∀ i : Fin 256, (ids t.buckets[i]).Nodup := by
  have hn : ids t.nodes = (t.buckets.toList.map ids).flatten := by
    rw [ids, nodes, List.map_flatten]
    rfl
  rw [hn, List.nodup_flatten]
  constructor
  · rintro ⟨ha, -⟩ i
    exact ha _ (List.mem_map_of_mem (Vector.mem_toList_iff.mpr (Vector.getElem_mem i.isLt)))
  · refine fun ha => ⟨fun l hl => ?_, ?_⟩
    · obtain ⟨b, hb, rfl⟩ := List.mem_map.mp hl
      obtain ⟨i, hi, rfl⟩ := Vector.getElem_of_mem (Vector.mem_toList_iff.mp hb)
      exact ha ⟨i, hi⟩
    · refine List.pairwise_iff_getElem.mpr fun i j hi hj hij => ?_
      have hi' : i < 256 := by simpa using hi
      have hj' : j < 256 := by simpa using hj
      simp only [List.getElem_map, Vector.getElem_toList]
      intro id hid hid'
      have h₁ := h.placed ⟨i, hi'⟩ id (by
        rw [ids, List.map_append]
        exact List.mem_append_left _ hid)
      have h₂ := h.placed ⟨j, hj'⟩ id (by
        rw [ids, List.map_append]
        exact List.mem_append_left _ hid')
      have := Fin.mk.inj (Option.some.inj (h₁.symm.trans h₂))
      omega

theorem Filed.intact_iff (h : t.Filed) :
    t.Intact ↔ ∀ i : Fin 256, (ids t.buckets[i]).Nodup := by
  refine ⟨fun hi => h.once_iff.mp hi.once, fun hu => ?_⟩
  have ho := h.once_iff.mpr hu
  refine ⟨ho, fun i n hn => ?_, h.bucket_le, h.replacement_le, fun i n hn hl => ?_,
    isClosest_closest ho⟩
  · exact h.placed i _ (List.mem_map_of_mem (List.mem_append_left _ hn))
  · have := h.placed i _ (List.mem_map_of_mem hn)
    rw [hl, bucketIndex_localId] at this
    cases this

theorem Filed.intact_step_iff (h : t.Filed) (ht : t.Intact) (k : Call A) :
    (t.step k).Intact ↔ t.Promotes k := by
  have hu := h.intact_iff.mp ht
  rw [(h.step k).intact_iff]
  rcases t.step_cases k with ⟨hn, hs⟩ | ⟨i, bucket, waiting, hi, hm, hs⟩
  · rw [hs]
    refine iff_of_true hu fun i hi => ?_
    rw [hn] at hi
    cases hi
  · rw [hs]
    have hb := hm.nodup_iff (hu i)
    constructor
    · intro ha j hj
      cases hi.symm.trans hj
      have := ha i
      rw [buckets_replace, if_pos rfl] at this
      exact hb.mp this
    · intro hk j
      rw [buckets_replace]
      split
      · exact hb.mpr (hk i hi)
      · exact hu j

end Invariants

/-! ### Runs -/

/-- `P` of every table of a run. -/
def Throughout (P : KademliaTable A → Prop) : KademliaTable A → List (Call A) → Prop
  | t, [] => P t
  | t, k :: calls => P t ∧ Throughout P (t.step k) calls

/-- Each call of a run meets `P` in the table it finds. -/
def Along (P : KademliaTable A → Call A → Prop) : KademliaTable A → List (Call A) → Prop
  | _, [] => True
  | t, k :: calls => P t k ∧ Along P (t.step k) calls

theorem throughout_iff_along {t : KademliaTable A} (h : t.Filed) (ht : t.Intact)
    (calls : List (Call A)) : Throughout Intact t calls ↔ Along Promotes t calls := by
  induction calls generalizing t with
  | nil => exact iff_of_true ht trivial
  | cons k calls ih =>
    have hs := h.intact_step_iff ht k
    constructor
    · rintro ⟨-, hr⟩
      have hn : (t.step k).Intact := by
        cases calls with
        | nil => exact hr
        | cons k' calls => exact hr.1
      exact ⟨hs.mp hn, (ih (h.step k) hn).mp hr⟩
    · rintro ⟨hk, hr⟩
      exact ⟨ht, (ih (h.step k) (hs.mpr hk)).mpr hr⟩

/-- The promises hold throughout a run of a new table iff no failure of the run promotes a node
that stays in the bucket. -/
theorem throughout_intact_iff (localId : Bytes) (calls : List (Call A)) :
    Throughout Intact (new localId) calls ↔ Along Promotes (new localId) calls := by
  have hfiled : (new localId : KademliaTable A).Filed := filed_new localId
  refine throughout_iff_along hfiled (hfiled.intact_iff.mpr fun i => ?_) calls
  simp [new, ids]

/-- The id of the `j`th sample node: all of them are in the last bucket of the zero id. -/
def sampleId (j : Nat) : Bytes := UInt8.ofNat (128 + j) :: List.replicate 63 0

def sampleNode (j : Nat) : NodeRecord Unit :=
  ⟨⟨[], 0, sampleId j, []⟩, (), .discovered, 0, 0, 0⟩

/-- Sixteen nodes fill a bucket, another is heard of twice, and two of the sixteen die. -/
def heardTwice : List (Call Unit) :=
  (List.range 16).map (fun j => .insert (sampleNode j)) ++
    [.insert (sampleNode 16), .insert (sampleNode 16),
      .markFailed (sampleId 0) 1, .markFailed (sampleId 1) 1]

/-- A full bucket, a node that waits once, and the death of one of the sixteen. -/
def heardOnce : List (Call Unit) :=
  ((List.range 17).map sampleNode).map .insert ++ [.markFailed (sampleId 0) 1]

set_option maxRecDepth 2000 in
theorem heardOnce_intact : Throughout Intact (new (List.replicate 64 0)) heardOnce := by
  refine (throughout_intact_iff _ heardOnce).mpr ?_
  have hinserts : ∀ (nodes : List (NodeRecord Unit)) (t : KademliaTable Unit)
      (calls : List (Call Unit)), Along Promotes ((nodes.map .insert).foldl step t) calls →
        Along Promotes t (nodes.map .insert ++ calls) := by
    intro nodes
    induction nodes with
    | nil => exact fun t calls h => h
    | cons n nodes ih => exact fun t calls h => ⟨fun _ _ => trivial, ih _ calls h⟩
  refine hinserts ((List.range 17).map sampleNode) _ [.markFailed (sampleId 0) 1] ⟨?_, trivial⟩
  intro i hi
  obtain rfl : (255 : Fin 256) = i := Option.some.inj hi
  decide

set_option maxRecDepth 2000 in
/-- The node that waited twice is in the bucket twice. -/
theorem heardTwice_not_intact :
    ¬ Throughout Intact (new (List.replicate 64 0)) heardTwice := by
  have hlast : ∀ (calls : List (Call Unit)) (t : KademliaTable Unit),
      Throughout Intact t calls → Intact (calls.foldl step t) := by
    intro calls
    induction calls with
    | nil => exact fun t h => h
    | cons k calls ih => exact fun t h => ih _ h.2
  intro h
  have honce := (hlast _ _ h).once
  revert honce
  decide

end KademliaTable

end RustTron.Network.Discovery
