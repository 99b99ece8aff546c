import RustTron.Network.Sync

/-!
# The books of the sync coordinator

Every id the coordinator keeps track of is in one place and belongs to one peer, whatever calls are
made in whatever order, and the limits hold. A peer that answers its requests in the order in which
it got them is told so by their heights: it is turned down where a batch holds a block below one
that the peer still has to deliver, as after inventories of two forks.

## Main definitions

* `Owns`, `Exclusive`, `Within`: an id is tracked for a peer, in one place, within the limits
* `Call`, `Served`: the calls, and the coordinator with what each peer has still to answer
* `InOrder`: the next batch of a peer continues its requests in height

## Main results

* `Served.bookkeeping`: the books hold over every run, and where the batches are in order no peer
  that answers in order is turned down
-/

namespace RustTron.Network.SyncCoordinator

variable {Peer : Type} [LinearOrder Peer]
variable {s : SyncCoordinator Peer}

/-! ### Queues -/

theorem queueOf_insert (s : SyncCoordinator Peer) (peer p : Peer) (queue : List SyncBlockId) :
    queueOf { s with queues := s.queues.insert peer queue } p =
      if p = peer then queue else s.queueOf p := by
  unfold queueOf
  by_cases hp : p = peer
  · subst hp
    rw [if_pos rfl, Finmap.lookup_insert]
    rfl
  · rw [if_neg hp, Finmap.lookup_insert_of_ne _ hp]

theorem total_queues_insert (s : SyncCoordinator Peer) (peer : Peer) (queue : List SyncBlockId) :
    (s.queueOf peer).length + FMap.total (fun _ q => q.length) (s.queues.insert peer queue) =
      queue.length + FMap.total (fun _ q => q.length) s.queues := by
  have hi := FMap.total_insert (fun _ q => q.length) s.queues peer queue
  rw [← hi, queueOf]
  cases s.queues.lookup peer <;> rfl

theorem contains_eq_false_iff {id : SyncBlockId} :
    s.contains id = false ↔ (∀ peer, id ∉ s.queueOf peer) ∧ id ∉ s.requested ∧ id ∉ s.inProcess := by
  simp only [contains, decide_eq_false_iff_not, not_or, ne_eq, not_not]
  refine and_congr_left fun _ => ?_
  rw [Finset.filter_eq_empty_iff]
  constructor
  · intro h peer hm
    refine h ?_ hm
    rw [Finmap.mem_keys, Finmap.mem_iff]
    unfold queueOf at hm
    cases hq : s.queues.lookup peer with
    | none => simp [hq] at hm
    | some queue => exact ⟨queue, rfl⟩
  · exact fun h peer _ => h peer

/-! ### One place for each id -/

/-- An id is tracked for a peer. -/
def Owns (s : SyncCoordinator Peer) (peer : Peer) (id : SyncBlockId) : Prop :=
  id ∈ s.queueOf peer ∨ (∃ madeAt, s.requested.lookup id = some (peer, madeAt)) ∨
    s.inProcess.lookup id = some peer

/-- Every tracked id is in one place, and for one peer. -/
structure Exclusive (s : SyncCoordinator Peer) : Prop where
  nodup : ∀ peer, (s.queueOf peer).Nodup
  owner : ∀ {id peer peer'}, id ∈ s.queueOf peer → id ∈ s.queueOf peer' → peer = peer'
  queued : ∀ {id peer}, id ∈ s.queueOf peer → id ∉ s.requested ∧ id ∉ s.inProcess
  requested : ∀ {id}, id ∈ s.requested → id ∉ s.inProcess

/-- An id has one owner. -/
theorem Exclusive.unique (hs : s.Exclusive) {peer peer' : Peer} {id : SyncBlockId}
    (h : s.Owns peer id) (h' : s.Owns peer' id) : peer = peer' := by
  have hm : ∀ {p t}, s.requested.lookup id = some (p, t) → id ∈ s.requested :=
    fun hl => Finmap.mem_iff.mpr ⟨_, hl⟩
  have hm' : ∀ {p}, s.inProcess.lookup id = some p → id ∈ s.inProcess :=
    fun hl => Finmap.mem_iff.mpr ⟨_, hl⟩
  rcases h with hq | ⟨t, hr⟩ | hp <;> rcases h' with hq' | ⟨t', hr'⟩ | hp'
  · exact hs.owner hq hq'
  · exact absurd (hm hr') (hs.queued hq).1
  · exact absurd (hm' hp') (hs.queued hq).2
  · exact absurd (hm hr) (hs.queued hq').1
  · cases hr.symm.trans hr'
    rfl
  · exact absurd (hm' hp') (hs.requested (hm hr))
  · exact absurd (hm' hp) (hs.queued hq').2
  · exact absurd (hm' hp) (hs.requested (hm hr'))
  · cases hp.symm.trans hp'
    rfl

/-- The usage is within the limits. -/
structure Within (s : SyncCoordinator Peer) : Prop where
  globalCount : saturateUsize s.globalCount ≤ s.limits.globalCount
  globalBytes : idBytes s.globalCount ≤ s.limits.globalBytes
  peerCount : ∀ peer, saturateUsize (s.peerCount peer) ≤ s.limits.peerCount
  peerBytes : ∀ peer, idBytes (s.peerCount peer) ≤ s.limits.peerBytes

theorem idBytes_mono {m n : Nat} (h : m ≤ n) : idBytes m ≤ idBytes n :=
  saturateUsize_mono (Nat.mul_le_mul_right _ h)

/-- Where no count grows the limits hold on. -/
theorem Within.of_le {s t : SyncCoordinator Peer} (hs : s.Within) (hl : t.limits = s.limits)
    (hg : t.globalCount ≤ s.globalCount) (hp : ∀ p, t.peerCount p ≤ s.peerCount p) :
    t.Within where
  globalCount := hl ▸ (saturateUsize_mono hg).trans hs.globalCount
  globalBytes := hl ▸ (idBytes_mono hg).trans hs.globalBytes
  peerCount p := hl ▸ (saturateUsize_mono (hp p)).trans (hs.peerCount p)
  peerBytes p := hl ▸ (idBytes_mono (hp p)).trans (hs.peerBytes p)

/-! ### Moves

Every call is made of moves of one id from one place to another. -/

/-- The id at the front of a queue becomes a request. -/
def popOne (peer : Peer) (now : Int) (s : SyncCoordinator Peer) (id : SyncBlockId) :
    SyncCoordinator Peer :=
  { s with
    queues := s.queues.insert peer (s.queueOf peer).tail
    requested := s.requested.insert id (peer, now) }

/-- What a move leaves in place. -/
structure Moves (s t : SyncCoordinator Peer) : Prop where
  exclusive : t.Exclusive
  limits : t.limits = s.limits
  globalCount : t.globalCount = s.globalCount
  peerCount : ∀ p, t.peerCount p = s.peerCount p
  owns : ∀ p i, t.Owns p i ↔ s.Owns p i

theorem Moves.refl (hs : s.Exclusive) : Moves s s :=
  ⟨hs, rfl, rfl, fun _ => rfl, fun _ _ => Iff.rfl⟩

theorem Moves.trans {s t u : SyncCoordinator Peer} (h : Moves s t) (h' : Moves t u) : Moves s u :=
  ⟨h'.exclusive, h'.limits.trans h.limits, h'.globalCount.trans h.globalCount,
    fun p => (h'.peerCount p).trans (h.peerCount p), fun p i => (h'.owns p i).trans (h.owns p i)⟩

theorem Moves.within {s t : SyncCoordinator Peer} (h : Moves s t) (hs : s.Within) : t.Within :=
  hs.of_le h.limits h.globalCount.le fun p => (h.peerCount p).le

theorem requestedCount_insert (peer : Peer) (now : Int) {id : SyncBlockId} (h : id ∉ s.requested)
    (p : Peer) :
    FMap.total (fun _ entry => if entry.1 = p then 1 else 0) (s.requested.insert id (peer, now)) =
      (if peer = p then 1 else 0) + s.requestedCount p :=
  FMap.total_insert_of_notMem _ _ h

theorem requestedCount_erase {peer : Peer} {madeAt : Int} {id : SyncBlockId}
    (h : s.requested.lookup id = some (peer, madeAt)) (p : Peer) :
    (if peer = p then 1 else 0) +
      FMap.total (fun _ entry => if entry.1 = p then 1 else 0) (s.requested.erase id) =
        s.requestedCount p :=
  FMap.total_erase (fun (_ : SyncBlockId) entry => if entry.1 = p then 1 else 0) h

/-- The front of the queue of a peer, asked for. -/
theorem moves_popOne (hs : s.Exclusive) {peer : Peer} (now : Int) {id : SyncBlockId}
    {rest : List SyncBlockId} (hqu : s.queueOf peer = id :: rest) :
    Moves s (popOne peer now s id) := by
  have hm : id ∈ s.queueOf peer := hqu ▸ List.mem_cons_self
  obtain ⟨hnr, hnp⟩ := hs.queued hm
  have hn : (id :: rest).Nodup := hqu ▸ hs.nodup peer
  have hta : (s.queueOf peer).tail = rest := by rw [hqu]; rfl
  have hq : ∀ p, (popOne peer now s id).queueOf p = if p = peer then rest else s.queueOf p := by
    intro p
    rw [← hta]
    exact queueOf_insert _ peer p _
  -- a queue loses the id, and nothing else
  have hsu : ∀ {i p}, i ∈ (popOne peer now s id).queueOf p → i ∈ s.queueOf p ∧ i ≠ id := by
    intro i p hi
    rw [hq] at hi
    split at hi
    · next hp =>
      refine ⟨by rw [hp, hqu]; exact List.mem_cons_of_mem _ hi, ?_⟩
      rintro rfl
      exact (List.nodup_cons.mp hn).1 hi
    · next hp =>
      refine ⟨hi, ?_⟩
      rintro rfl
      exact hp (hs.owner hi hm)
  refine ⟨⟨fun p => ?_, fun hi hi' => hs.owner (hsu hi).1 (hsu hi').1, fun hi => ?_, fun hi => ?_⟩,
    rfl, ?_, fun p => ?_, fun p i => ?_⟩
  · rw [hq]
    split
    · exact (List.nodup_cons.mp hn).2
    · exact hs.nodup p
  · obtain ⟨ho, hne⟩ := hsu hi
    refine ⟨fun hin => ?_, (hs.queued ho).2⟩
    rcases Finmap.mem_insert.mp hin with rfl | hin
    · exact hne rfl
    · exact (hs.queued ho).1 hin
  · rcases Finmap.mem_insert.mp hi with rfl | hi
    · exact hnp
    · exact hs.requested hi
  · -- one id fewer waits and one more is asked for, so the counts stay
    have hque := total_queues_insert s peer (s.queueOf peer).tail
    have hr := FMap.total_insert_of_notMem (fun _ _ => 1) (peer, now) hnr
    simp only [popOne, globalCount, hqu, List.tail_cons, List.length_cons] at *
    omega
  · have hr := requestedCount_insert peer now hnr p
    simp only [peerCount, requestedCount, inProcessCount, hq] at *
    simp only [popOne] at *
    rw [hr]
    by_cases hp : p = peer
    · subst hp
      simp only [↓reduceIte, hqu, List.length_cons]
      omega
    · rw [if_neg hp, if_neg (Ne.symm hp)]
      omega
  · -- the peer owned the id as queued, and owns it now as asked for
    simp only [Owns, hq]
    by_cases hi : i = id
    · subst hi
      have hl : (popOne peer now s i).requested.lookup i = some (peer, now) :=
        Finmap.lookup_insert _
      constructor
      · rintro (hin | ⟨t, ht⟩ | hin)
        · split at hin
          · exact absurd hin (List.nodup_cons.mp hn).1
          · exact .inl hin
        · rw [hl] at ht
          cases ht
          exact .inl hm
        · exact .inr (.inr hin)
      · rintro (hin | ⟨t, ht⟩ | hin)
        · obtain rfl := hs.owner hin hm
          exact .inr (.inl ⟨now, hl⟩)
        · exact absurd (Finmap.mem_iff.mpr ⟨_, ht⟩) hnr
        · exact .inr (.inr hin)
    · have hl : (popOne peer now s id).requested.lookup i = s.requested.lookup i :=
        Finmap.lookup_insert_of_ne _ hi
      rw [hl]
      refine or_congr_left ?_
      split
      · next hp =>
        rw [hp, hqu, List.mem_cons]
        simp [hi]
      · rfl

/-- A request taken back to the front of the queue of its peer. -/
theorem moves_retryOne (hs : s.Exclusive) {peer : Peer} {madeAt : Int} {id : SyncBlockId}
    (hl : s.requested.lookup id = some (peer, madeAt)) : Moves s (s.retryOne (id, peer)) := by
  have hm : id ∈ s.requested := Finmap.mem_iff.mpr ⟨_, hl⟩
  have hnp : id ∉ s.inProcess := hs.requested hm
  have hnq : ∀ p, id ∉ s.queueOf p := fun p hin => (hs.queued hin).1 hm
  have hq : ∀ p, (s.retryOne (id, peer)).queueOf p =
      if p = peer then id :: s.queueOf peer else s.queueOf p :=
    fun p => queueOf_insert _ peer p _
  -- a queue gains the id, and nothing else
  have hsu : ∀ {i p}, i ∈ (s.retryOne (id, peer)).queueOf p →
      i = id ∧ p = peer ∨ i ∈ s.queueOf p ∧ i ≠ id := by
    intro i p hi
    rw [hq] at hi
    split at hi
    · next hp =>
      rcases List.mem_cons.mp hi with rfl | hin
      · exact .inl ⟨rfl, hp⟩
      · refine .inr ⟨hp ▸ hin, ?_⟩
        rintro rfl
        exact hnq _ hin
    · refine .inr ⟨hi, ?_⟩
      rintro rfl
      exact hnq _ hi
  refine ⟨⟨fun p => ?_, fun hi hi' => ?_, fun hi => ?_, fun hi => ?_⟩, rfl, ?_, fun p => ?_,
    fun p i => ?_⟩
  · rw [hq]
    split
    · exact List.nodup_cons.mpr ⟨hnq peer, hs.nodup peer⟩
    · exact hs.nodup p
  · rcases hsu hi with ⟨rfl, rfl⟩ | ⟨ho, hne⟩ <;> rcases hsu hi' with ⟨he, rfl⟩ | ⟨ho', hn'⟩
    · rfl
    · exact absurd rfl hn'
    · exact absurd he hne
    · exact hs.owner ho ho'
  · rcases hsu hi with ⟨rfl, rfl⟩ | ⟨ho, hne⟩
    · exact ⟨Finmap.notMem_erase_self, hnp⟩
    · exact ⟨fun hin => (hs.queued ho).1 (Finmap.mem_erase.mp hin).2, (hs.queued ho).2⟩
  · exact hs.requested (Finmap.mem_erase.mp hi).2
  · have hqu := total_queues_insert s peer (id :: s.queueOf peer)
    have hr := FMap.total_erase (fun _ _ => 1) hl
    simp only [retryOne, globalCount, List.length_cons] at *
    omega
  · have hr := requestedCount_erase hl p
    simp only [peerCount, requestedCount, inProcessCount, hq] at *
    simp only [retryOne] at *
    rw [← hr]
    by_cases hp : p = peer
    · subst hp
      simp only [↓reduceIte, List.length_cons]
      omega
    · rw [if_neg hp, if_neg (Ne.symm hp)]
      omega
  · -- the peer owned the id as asked for, and owns it now as queued
    simp only [Owns, hq]
    by_cases hi : i = id
    · subst hi
      have hn : (s.retryOne (i, peer)).requested.lookup i = none := Finmap.lookup_erase _ _
      constructor
      · rintro (hin | ⟨t, ht⟩ | hin)
        · split at hin
          · next hp => exact .inr (.inl ⟨madeAt, hp ▸ hl⟩)
          · exact .inl hin
        · rw [hn] at ht
          cases ht
        · exact .inr (.inr hin)
      · rintro (hin | ⟨t, ht⟩ | hin)
        · exact absurd hin (hnq p)
        · cases hl.symm.trans ht
          exact .inl (by rw [if_pos rfl]; exact List.mem_cons_self)
        · exact .inr (.inr hin)
    · have hk : (s.retryOne (id, peer)).requested.lookup i = s.requested.lookup i :=
        Finmap.lookup_erase_ne hi
      rw [hk]
      refine or_congr_left ?_
      split
      · next hp =>
        rw [hp, List.mem_cons]
        simp [hi]
      · rfl

/-- A request answered. -/
theorem moves_received (hs : s.Exclusive) {peer : Peer} {madeAt : Int} {id : SyncBlockId}
    (hl : s.requested.lookup id = some (peer, madeAt)) :
    Moves s { s with
      requested := s.requested.erase id
      inProcess := s.inProcess.insert id peer } := by
  have hm : id ∈ s.requested := Finmap.mem_iff.mpr ⟨_, hl⟩
  have hnp : id ∉ s.inProcess := hs.requested hm
  refine ⟨⟨hs.nodup, hs.owner, fun hi => ?_, fun hi => ?_⟩, rfl, ?_, fun p => ?_, fun p i => ?_⟩
  · obtain ⟨hnr, hni⟩ := hs.queued hi
    refine ⟨fun hin => hnr (Finmap.mem_erase.mp hin).2, fun hin => ?_⟩
    rcases Finmap.mem_insert.mp hin with rfl | hin
    · exact hnr hm
    · exact hni hin
  · obtain ⟨hne, hin⟩ := Finmap.mem_erase.mp hi
    intro hi'
    rcases Finmap.mem_insert.mp hi' with rfl | hi'
    · exact hne rfl
    · exact hs.requested hin hi'
  · have hr := FMap.total_erase (fun _ _ => 1) hl
    have hp := FMap.total_insert_of_notMem (fun _ _ => 1) peer hnp
    simp only [globalCount] at *
    omega
  · have hr := requestedCount_erase hl p
    have hp := FMap.total_insert_of_notMem (fun _ owner => if owner = p then 1 else 0) peer hnp
    simp only [peerCount, requestedCount, inProcessCount, queueOf] at *
    omega
  · refine or_congr_right ?_
    by_cases hi : i = id
    · subst hi
      rw [Finmap.lookup_erase, Finmap.lookup_insert, hl]
      have hn : s.inProcess.lookup i = none := Finmap.lookup_eq_none.mpr hnp
      simp [hn]
    · rw [Finmap.lookup_erase_ne hi, Finmap.lookup_insert_of_ne _ hi]

/-! ### The calls -/

/-- `next_batch` takes what fits from the front of the queue. -/
theorem fst_nextBatch (s : SyncCoordinator Peer) (peer : Peer) (now : Int) :
    (s.nextBatch peer now).1 = (s.queueOf peer).take (s.capacity peer) := by
  have ht : ∀ (room : Nat) (queue : List SyncBlockId) (requested),
      (takeBatch peer now room queue requested).1 = queue.take room := by
    intro room
    induction room with
    | zero => exact fun queue _ => by rw [takeBatch, List.take_zero]
    | succ room ih =>
      intro queue requested
      cases queue with
      | nil => rw [takeBatch, List.take_nil]
      | cons id queue =>
        rw [takeBatch, List.take_succ_cons, ih]
  exact ht _ _ _

/-- `next_batch` asks for one id after the other. -/
theorem snd_nextBatch (s : SyncCoordinator Peer) (peer : Peer) (now : Int) :
    (s.nextBatch peer now).2 = ((s.queueOf peer).take (s.capacity peer)).foldl (popOne peer now)
      { s with queues := s.queues.insert peer (s.queueOf peer) } := by
  have hf : ∀ (room : Nat) (queue : List SyncBlockId) (u : SyncCoordinator Peer),
      { u with
        queues := u.queues.insert peer (takeBatch peer now room queue u.requested).2.1
        requested := (takeBatch peer now room queue u.requested).2.2 } =
      (queue.take room).foldl (popOne peer now)
        { u with queues := u.queues.insert peer queue } := by
    intro room
    induction room with
    | zero => exact fun queue u => by rw [takeBatch, List.take_zero]; rfl
    | succ room ih =>
      intro queue u
      cases queue with
      | nil => rw [takeBatch, List.take_nil]; rfl
      | cons id queue =>
        have hp : popOne peer now { u with queues := u.queues.insert peer (id :: queue) } id =
            { u with
              queues := u.queues.insert peer queue
              requested := u.requested.insert id (peer, now) } := by
          rw [popOne, queueOf_insert, if_pos rfl, Finmap.insert_insert]
          rfl
        rw [takeBatch, List.take_succ_cons, List.foldl_cons, hp]
        exact ih queue { u with requested := u.requested.insert id (peer, now) }
  exact hf _ _ _

theorem moves_popAll {peer : Peer} {now : Int} (batch : List SyncBlockId) :
    ∀ {s : SyncCoordinator Peer}, s.Exclusive → ∀ {rest}, s.queueOf peer = batch ++ rest →
      Moves s (batch.foldl (popOne peer now) s) := by
  induction batch with
  | nil => exact fun hs _ _ => .refl hs
  | cons id batch ih =>
    intro s hs rest hq
    have hm := moves_popOne hs now hq
    have hn : (popOne peer now s id).queueOf peer = batch ++ rest := by
      refine (queueOf_insert _ peer peer _).trans ?_
      rw [if_pos rfl, hq]
      rfl
    exact hm.trans (ih hm.exclusive hn)

theorem moves_nextBatch (hs : s.Exclusive) (peer : Peer) (now : Int) :
    Moves s (s.nextBatch peer now).2 := by
  have hq : ∀ p, ({ s with queues := s.queues.insert peer (s.queueOf peer) }).queueOf p =
      s.queueOf p := by
    intro p
    rw [queueOf_insert]
    split
    · next hp => rw [hp]
    · rfl
  have ht : Moves s { s with queues := s.queues.insert peer (s.queueOf peer) } := by
    refine ⟨⟨fun p => (hq p).symm ▸ hs.nodup p, fun hi hi' => ?_, fun hi => ?_, hs.requested⟩, rfl,
      ?_, fun p => ?_, fun p i => ?_⟩
    · rw [hq] at hi hi'
      exact hs.owner hi hi'
    · rw [hq] at hi
      exact hs.queued hi
    · have hqu := total_queues_insert s peer (s.queueOf peer)
      simp only [globalCount]
      omega
    · rw [peerCount, hq]
      rfl
    · rw [Owns, hq]
      rfl
  rw [snd_nextBatch]
  have hsp := (hq peer).trans (List.take_append_drop (s.capacity peer) _).symm
  exact ht.trans (moves_popAll _ ht.exclusive hsp)

theorem moves_retryAll (entries : List (SyncBlockId × Peer)) :
    ∀ {s : SyncCoordinator Peer}, s.Exclusive → (entries.map Prod.fst).Nodup →
      (∀ id peer, (id, peer) ∈ entries → ∃ madeAt, s.requested.lookup id = some (peer, madeAt)) →
      Moves s (entries.foldl retryOne s) := by
  induction entries with
  | nil => exact fun hs _ _ => .refl hs
  | cons entry entries ih =>
    obtain ⟨id, peer⟩ := entry
    intro s hs hn hl
    rw [List.map_cons, List.nodup_cons] at hn
    obtain ⟨madeAt, hma⟩ := hl id peer List.mem_cons_self
    have hm := moves_retryOne hs hma
    refine hm.trans (ih hm.exclusive hn.2 fun i p hin => ?_)
    obtain ⟨t, ht⟩ := hl i p (List.mem_cons_of_mem _ hin)
    have hne : i ≠ id := by
      rintro rfl
      exact hn.1 (List.mem_map.mpr ⟨_, hin, rfl⟩)
    exact ⟨t, (Finmap.lookup_erase_ne hne).trans ht⟩

section Expired

variable {now : Int} {listing : List (SyncBlockId × Peer × Int)}

theorem mem_expiredOf (hl : s.Lists listing) {id : SyncBlockId} {peer : Peer} :
    (id, peer) ∈ expiredOf now listing ↔
      ∃ madeAt, s.requested.lookup id = some (peer, madeAt) ∧ isExpired now madeAt := by
  rw [expiredOf, List.mem_mergeSort, List.mem_map]
  constructor
  · rintro ⟨⟨i, p, t⟩, hin, heq⟩
    cases heq
    rw [List.mem_filter] at hin
    exact ⟨t, (hl.2 _ _ _).mp hin.1, hin.2⟩
  · rintro ⟨t, ht, he⟩
    exact ⟨(id, peer, t), List.mem_filter.mpr ⟨(hl.2 _ _ _).mpr ht, he⟩, rfl⟩

theorem nodup_expiredOf (hl : s.Lists listing) :
    ((expiredOf now listing).map Prod.fst).Nodup := by
  have hp := (List.mergeSort_perm ((listing.filter fun entry => isExpired now entry.2.2).map
    fun entry => (entry.1, entry.2.1)) retryLe).map Prod.fst
  refine hp.nodup_iff.mpr ?_
  rw [List.map_map]
  exact hl.1.sublist (List.Sublist.map _ List.filter_sublist)

theorem moves_retryExpired (hs : s.Exclusive) (hl : s.Lists listing) :
    Moves s (s.retryExpired now listing).2 := by
  refine moves_retryAll _ hs ?_ fun id peer hin => ?_
  · rw [List.map_reverse, List.nodup_reverse]
    exact nodup_expiredOf hl
  · rw [List.mem_reverse, mem_expiredOf hl] at hin
    obtain ⟨t, ht, -⟩ := hin
    exact ⟨t, ht⟩

end Expired

theorem mem_requestsOf {peer : Peer} {id : SyncBlockId} :
    id ∈ s.requestsOf peer ↔ ∃ madeAt, s.requested.lookup id = some (peer, madeAt) := by
  rw [requestsOf, Finset.mem_filter, Finmap.mem_keys, Finmap.mem_iff]
  constructor
  · rintro ⟨-, h⟩
    obtain ⟨⟨owner, madeAt⟩, hl, rfl⟩ := Option.map_eq_some_iff.mp h
    exact ⟨madeAt, hl⟩
  · rintro ⟨madeAt, h⟩
    exact ⟨⟨_, h⟩, by rw [h]; rfl⟩

theorem min_number_eq_iff {ids : Finset SyncBlockId} {id : SyncBlockId} (hm : id ∈ ids) :
    (ids.image SyncBlockId.number).min = ↑id.number ↔ ∀ i ∈ ids, id.number ≤ i.number := by
  have hin : id.number ∈ ids.image SyncBlockId.number := Finset.mem_image_of_mem _ hm
  constructor
  · exact fun h i hi => Finset.min_le_of_eq (Finset.mem_image_of_mem _ hi) h
  · intro h
    refine le_antisymm (Finset.min_le hin) (Finset.le_min fun n hn => ?_)
    obtain ⟨i, hi, rfl⟩ := Finset.mem_image.mp hn
    exact WithTop.coe_le_coe.mpr (h i hi)

/-- An answer is accepted where it is asked for and no lower request to the peer is open. -/
theorem receive_eq_ok_iff {peer : Peer} {id : SyncBlockId} :
    (s.receive peer id).1 = .ok () ↔ id ∈ s.requestsOf peer ∧
      ∀ i ∈ s.requestsOf peer, id.number ≤ i.number := by
  rw [mem_requestsOf, receive]
  cases hl : s.requested.lookup id with
  | none => simp
  | some entry =>
    obtain ⟨owner, madeAt⟩ := entry
    dsimp only
    by_cases ho : owner = peer
    · subst ho
      have hme : id ∈ s.requestsOf owner := mem_requestsOf.mpr ⟨madeAt, hl⟩
      rw [if_neg (not_not.mpr rfl), ← min_number_eq_iff hme]
      split
      · next hm => exact ⟨fun h => (nomatch h), fun h => absurd h.2 hm⟩
      · next hm => exact ⟨fun _ => ⟨⟨madeAt, rfl⟩, not_not.mp hm⟩, fun _ => rfl⟩
    · rw [if_pos ho]
      refine ⟨fun h => (nomatch h), ?_⟩
      rintro ⟨⟨t, ht⟩, -⟩
      cases ht
      exact absurd rfl ho

/-- An answer moves its id to the blocks in process, or changes nothing. -/
theorem receive_cases (s : SyncCoordinator Peer) (peer : Peer) (id : SyncBlockId) :
    (∃ madeAt, s.requested.lookup id = some (peer, madeAt) ∧
      s.receive peer id = (.ok (), { s with
        requested := s.requested.erase id
        inProcess := s.inProcess.insert id peer })) ∨
      ∃ e, s.receive peer id = (.error e, s) := by
  unfold receive
  split
  · exact .inr ⟨_, rfl⟩
  · next owner madeAt hl =>
    split
    · exact .inr ⟨_, rfl⟩
    · next ho =>
      rw [not_not] at ho
      subst ho
      split
      · exact .inr ⟨_, rfl⟩
      · exact .inl ⟨madeAt, hl, rfl⟩

theorem moves_receive (hs : s.Exclusive) (peer : Peer) (id : SyncBlockId) :
    Moves s (s.receive peer id).2 := by
  rcases s.receive_cases peer id with ⟨madeAt, hl, heq⟩ | ⟨e, heq⟩
  · rw [heq]
    exact moves_received hs hl
  · rw [heq]
    exact .refl hs

theorem exclusive_applied (hs : s.Exclusive) (id : SyncBlockId) : (s.applied id).Exclusive := by
  have hsu : ∀ {i}, i ∈ (s.applied id).inProcess → i ∈ s.inProcess :=
    fun hi => (Finmap.mem_erase.mp hi).2
  exact ⟨hs.nodup, hs.owner, fun hi => ⟨(hs.queued hi).1, fun hin => (hs.queued hi).2 (hsu hin)⟩,
    fun hi hin => hs.requested hi (hsu hin)⟩

theorem within_applied (hs : s.Within) (id : SyncBlockId) : (s.applied id).Within := by
  have hsu : ∀ i p, (s.applied id).inProcess.lookup i = some p → s.inProcess.lookup i = some p := by
    intro i p hi
    have hne : i ≠ id := by
      rintro rfl
      rw [applied, Finmap.lookup_erase] at hi
      cases hi
    rwa [applied, Finmap.lookup_erase_ne hne] at hi
  refine hs.of_le rfl ?_ fun p => ?_
  · exact Nat.add_le_add_left (FMap.total_le_total _ hsu) _
  · exact Nat.add_le_add_left (FMap.total_le_total _ hsu) _

theorem owns_applied {peer : Peer} {id i : SyncBlockId} (hi : i ≠ id) (h : s.Owns peer i) :
    (s.applied id).Owns peer i := by
  rcases h with h | h | h
  · exact .inl h
  · exact .inr (.inl h)
  · exact .inr (.inr ((Finmap.lookup_erase_ne hi).trans h))

theorem queueOf_disconnect (peer p : Peer) :
    (s.disconnect peer).queueOf p = if p = peer then [] else s.queueOf p := by
  unfold queueOf disconnect
  by_cases hp : p = peer
  · subst hp
    rw [if_pos rfl, Finmap.lookup_erase]
    rfl
  · rw [if_neg hp, Finmap.lookup_erase_ne hp]

theorem exclusive_disconnect (hs : s.Exclusive) (peer : Peer) : (s.disconnect peer).Exclusive := by
  have hsu : ∀ {i p}, i ∈ (s.disconnect peer).queueOf p → i ∈ s.queueOf p := by
    intro i p hi
    rw [queueOf_disconnect] at hi
    split at hi
    · cases hi
    · exact hi
  have hr : ∀ {i}, i ∈ (s.disconnect peer).requested → i ∈ s.requested :=
    fun hi => FMap.mem_of_mem_retain hi
  have hp : ∀ {i}, i ∈ (s.disconnect peer).inProcess → i ∈ s.inProcess :=
    fun hi => FMap.mem_of_mem_retain hi
  refine ⟨fun p => ?_, fun hi hi' => hs.owner (hsu hi) (hsu hi'), fun hi => ?_, fun hi hin => ?_⟩
  · rw [queueOf_disconnect]
    split
    · exact List.nodup_nil
    · exact hs.nodup p
  · obtain ⟨hnr, hnp⟩ := hs.queued (hsu hi)
    exact ⟨fun hin => hnr (hr hin), fun hin => hnp (hp hin)⟩
  · exact hs.requested (hr hi) (hp hin)

theorem within_disconnect (hs : s.Within) (peer : Peer) : (s.disconnect peer).Within := by
  have hr : ∀ i e, (s.disconnect peer).requested.lookup i = some e →
      s.requested.lookup i = some e := fun _ _ hi => (FMap.lookup_retain_eq_some.mp hi).1
  have hp : ∀ i p, (s.disconnect peer).inProcess.lookup i = some p →
      s.inProcess.lookup i = some p := fun _ _ hi => (FMap.lookup_retain_eq_some.mp hi).1
  have hqu : ∀ p q, (s.disconnect peer).queues.lookup p = some q →
      s.queues.lookup p = some q := by
    intro p q hq
    have hne : p ≠ peer := by
      rintro rfl
      rw [disconnect, Finmap.lookup_erase] at hq
      cases hq
    rwa [disconnect, Finmap.lookup_erase_ne hne] at hq
  refine hs.of_le rfl ?_ fun p => ?_
  · refine Nat.add_le_add (Nat.add_le_add ?_ ?_) ?_
    · exact FMap.total_le_total _ hqu
    · exact FMap.total_le_total _ hr
    · exact FMap.total_le_total _ hp
  · refine Nat.add_le_add (Nat.add_le_add ?_ ?_) ?_
    · rw [queueOf_disconnect]
      split
      · exact Nat.zero_le _
      · exact le_rfl
    · exact FMap.total_le_total _ hr
    · exact FMap.total_le_total _ hp

theorem owns_disconnect {peer p : Peer} {i : SyncBlockId} (hp : p ≠ peer) (h : s.Owns p i) :
    (s.disconnect peer).Owns p i := by
  rcases h with h | ⟨t, ht⟩ | h
  · exact .inl (by rw [queueOf_disconnect, if_neg hp]; exact h)
  · exact .inr (.inl ⟨t, FMap.lookup_retain_eq_some.mpr ⟨ht, by simpa using hp⟩⟩)
  · exact .inr (.inr (FMap.lookup_retain_eq_some.mpr ⟨h, by simpa using hp⟩))

/-! ### Installing an inventory -/

section Install

variable {peer : Peer} {inv : ChainInventory}
  {known : SyncBlockId → Bool}

theorem mem_additions {id : SyncBlockId} :
    id ∈ s.additions inv known ↔ id ∈ inv.ids.drop 1 ∧ known id = false ∧ s.contains id = false := by
  simp [additions]

theorem emod_number_of_consecutive {first : SyncBlockId} {rest : List SyncBlockId}
    (h : consecutive (first :: rest)) :
    ∀ k (hk : k < rest.length), ((rest[k]).number - first.number - (k + 1)) % 2 ^ 64 = 0 := by
  induction rest generalizing first with
  | nil => exact fun k hk => absurd hk (Nat.not_lt_zero _)
  | cons second rest ih =>
    rw [consecutive, Bool.and_eq_true, beq_iff_eq, wrapI64] at h
    intro k hk
    cases k with
    | zero =>
      simp only [List.getElem_cons_zero]
      omega
    | succ k =>
      have hn := ih h.2 k (by simpa using hk)
      simp only [List.getElem_cons_succ]
      push_cast
      omega

/-- The ids of consecutive blocks differ. -/
theorem nodup_of_consecutive {ids : List SyncBlockId} (h : consecutive ids)
    (hl : ids.length < 2 ^ 64) : ids.Nodup := by
  induction ids with
  | nil => exact List.nodup_nil
  | cons first rest ih =>
    have hr : consecutive rest := by
      cases rest with
      | nil => rfl
      | cons second rest =>
        rw [consecutive, Bool.and_eq_true] at h
        exact h.2
    rw [List.length_cons] at hl
    refine List.nodup_cons.mpr ⟨fun hin => ?_, ih hr (by omega)⟩
    obtain ⟨k, hk, heq⟩ := List.getElem_of_mem hin
    have hn := emod_number_of_consecutive h k hk
    rw [heq] at hn
    omega

/-- What an inventory that is taken leaves. -/
theorem installInventory_eq_ok (h : (s.installInventory peer inv known).1 = .ok ()) :
    (s.installInventory peer inv known).2 =
        { s with queues := s.queues.insert peer (s.queueOf peer ++ s.additions inv known) } ∧
      saturateUsize (s.globalCount + (s.additions inv known).length) ≤ s.limits.globalCount ∧
      saturateUsize (idBytes s.globalCount + idBytes (s.additions inv known).length) ≤
        s.limits.globalBytes ∧
      saturateUsize (s.peerCount peer + (s.additions inv known).length) ≤ s.limits.peerCount ∧
      saturateUsize (idBytes (s.peerCount peer) + idBytes (s.additions inv known).length) ≤
        s.limits.peerBytes := by
  unfold installInventory at h ⊢
  dsimp only at h ⊢
  split at h
  · cases h
  · next h₁ =>
    split at h
    · cases h
    · next h₂ =>
      split at h
      · cases h
      · next h₃ =>
        split at h
        · cases h
        · next h₄ =>
          rw [if_neg h₁, if_neg h₂, if_neg h₃, if_neg h₄]
          exact ⟨rfl, not_lt.mp h₁, not_lt.mp h₂, not_lt.mp h₃, not_lt.mp h₄⟩

/-- An inventory that is not taken leaves the coordinator as it is. -/
theorem installInventory_eq_error {e : SyncError}
    (h : (s.installInventory peer inv known).1 = .error e) :
    (s.installInventory peer inv known).2 = s := by
  unfold installInventory at h ⊢
  dsimp only at h ⊢
  split
  · rfl
  · next h₁ =>
    split
    · rfl
    · next h₂ =>
      split
      · rfl
      · next h₃ =>
        split
        · rfl
        · next h₄ =>
          rw [if_neg h₁, if_neg h₂, if_neg h₃, if_neg h₄] at h
          cases h

/-- A validated inventory is consecutive and not too long. -/
theorem consecutive_of_validate {requested : SyncBlockChain} {maxFuture : Int}
    (h : validateChainInventory inv requested maxFuture = .ok ()) :
    consecutive inv.ids ∧ inv.ids.length ≤ maxChainInventory := by
  unfold validateChainInventory at h
  split at h
  · cases h
  · next first rest hi =>
    rw [hi]
    split at h
    · cases h
    · next hl =>
      split at h
      · cases h
      · split at h
        · cases h
        · split at h
          · cases h
          · next hc =>
            exact ⟨by simpa using hc, not_lt.mp hl⟩

theorem exclusive_install (hs : s.Exclusive) (hid : inv.ids.Nodup) :
    ({ s with queues := s.queues.insert peer (s.queueOf peer ++ s.additions inv known) } :
      SyncCoordinator Peer).Exclusive := by
  have hf : ∀ {i}, i ∈ s.additions inv known →
      (∀ p, i ∉ s.queueOf p) ∧ i ∉ s.requested ∧ i ∉ s.inProcess :=
    fun hi => contains_eq_false_iff.mp (mem_additions.mp hi).2.2
  have hsu : ∀ {i p}, i ∈ queueOf { s with
        queues := s.queues.insert peer (s.queueOf peer ++ s.additions inv known) } p →
      i ∈ s.queueOf p ∨ p = peer ∧ i ∈ s.additions inv known := by
    intro i p hi
    rw [queueOf_insert] at hi
    split at hi
    · next hp =>
      rcases List.mem_append.mp hi with hi | hi
      · exact .inl (hp ▸ hi)
      · exact .inr ⟨hp, hi⟩
    · exact .inl hi
  refine ⟨fun p => ?_, fun hi hi' => ?_, fun hi => ?_, hs.requested⟩
  · rw [queueOf_insert]
    split
    · refine List.Nodup.append (hs.nodup peer) ?_ fun i hi hi' => (hf hi').1 peer hi
      exact (hid.sublist (List.drop_sublist 1 _)).filter _
    · exact hs.nodup p
  · rcases hsu hi with ho | ⟨rfl, hn⟩ <;> rcases hsu hi' with ho' | ⟨hp', hn'⟩
    · exact hs.owner ho ho'
    · exact absurd ho ((hf hn').1 _)
    · exact absurd ho' ((hf hn).1 _)
    · exact hp'.symm
  · rcases hsu hi with ho | ⟨rfl, hn⟩
    · exact hs.queued ho
    · exact (hf hn).2

theorem idBytes_add_le (m n : Nat) : idBytes (m + n) ≤ saturateUsize (idBytes m + idBytes n) := by
  simp only [idBytes, saturateUsize, syncBlockIdBytes, usizeMax]
  omega

theorem exclusive_installInventory (hs : s.Exclusive) (hi : inv.ids.Nodup) :
    (s.installInventory peer inv known).2.Exclusive := by
  cases hr : (s.installInventory peer inv known).1 with
  | error e =>
    rw [installInventory_eq_error hr]
    exact hs
  | ok _ =>
    rw [(installInventory_eq_ok hr).1]
    exact exclusive_install hs hi

theorem within_installInventory (hs : s.Within) :
    (s.installInventory peer inv known).2.Within := by
  cases hr : (s.installInventory peer inv known).1 with
  | error e =>
    rw [installInventory_eq_error hr]
    exact hs
  | ok _ =>
    obtain ⟨hst, h₁, h₂, h₃, h₄⟩ := installInventory_eq_ok hr
    rw [hst]
    have hq := total_queues_insert s peer (s.queueOf peer ++ s.additions inv known)
    have hg : globalCount { s with
          queues := s.queues.insert peer (s.queueOf peer ++ s.additions inv known) } =
        s.globalCount + (s.additions inv known).length := by
      rw [List.length_append] at hq
      simp only [globalCount]
      omega
    have hpe : ∀ p, peerCount { s with
          queues := s.queues.insert peer (s.queueOf peer ++ s.additions inv known) } p =
        s.peerCount p + if p = peer then (s.additions inv known).length else 0 := by
      intro p
      rw [peerCount, queueOf_insert, peerCount]
      split
      · next hp =>
        rw [hp, List.length_append]
        simp only [requestedCount, inProcessCount]
        omega
      · rfl
    refine ⟨hg ▸ h₁, hg ▸ (idBytes_add_le _ _).trans h₂, fun p => ?_, fun p => ?_⟩
    · rw [hpe]
      split
      · next hp =>
        subst hp
        exact h₃
      · exact hs.peerCount p
    · rw [hpe]
      split
      · next hp =>
        subst hp
        exact (idBytes_add_le _ _).trans h₄
      · exact hs.peerBytes p

theorem owns_installInventory {p : Peer} {i : SyncBlockId} (h : s.Owns p i) :
    (s.installInventory peer inv known).2.Owns p i := by
  cases hr : (s.installInventory peer inv known).1 with
  | error e =>
    rw [installInventory_eq_error hr]
    exact h
  | ok _ =>
    rw [(installInventory_eq_ok hr).1]
    refine h.imp_left fun hi => ?_
    rw [queueOf_insert]
    split
    · next hp => exact List.mem_append_left _ (hp ▸ hi)
    · exact hi

/-- An inventory that is taken tracks its new ids for the peer. -/
theorem owns_of_installInventory_ok (h : (s.installInventory peer inv known).1 = .ok ())
    {i : SyncBlockId} (hi : i ∈ s.additions inv known) :
    (s.installInventory peer inv known).2.Owns peer i := by
  rw [(installInventory_eq_ok h).1]
  refine .inl ?_
  rw [queueOf_insert, if_pos rfl]
  exact List.mem_append_right _ hi

end Install

/-! ### Runs -/

/-- The calls of the coordinator. -/
inductive Call (Peer : Type) where
  | issueChainRequest (peer : Peer)
  | installInventoryForRequest (peer : Peer) (token : ChainRequestToken) (inv : ChainInventory)
      (known : SyncBlockId → Bool)
  | nextBatch (peer : Peer) (now : Int)
  | receive (peer : Peer) (id : SyncBlockId)
  | applied (id : SyncBlockId)
  | retryExpired (now : Int) (listing : List (SyncBlockId × Peer × Int))
  | disconnect (peer : Peer)

/-- The state that a call leaves. -/
def call (s : SyncCoordinator Peer) : Call Peer → SyncCoordinator Peer
  | .issueChainRequest peer => (s.issueChainRequest peer).2
  | .installInventoryForRequest peer token inv known =>
    (s.installInventoryForRequest peer token inv known).2
  | .nextBatch peer now => (s.nextBatch peer now).2
  | .receive peer id => (s.receive peer id).2
  | .applied id => s.applied id
  | .retryExpired now listing => (s.retryExpired now listing).2
  | .disconnect peer => s.disconnect peer

/-- A call as it can be made: an inventory is validated first, and the requests are iterated in some
order. -/
def Call.Valid (s : SyncCoordinator Peer) : Call Peer → Prop
  | .installInventoryForRequest _ _ inv _ =>
    ∃ requested maxFuture, validateChainInventory inv requested maxFuture = .ok ()
  | .retryExpired _ listing => s.Lists listing
  | _ => True

/-- The books of a coordinator. -/
structure Booked (s : SyncCoordinator Peer) : Prop where
  exclusive : s.Exclusive
  within : s.Within

theorem snd_issueChainRequest (s : SyncCoordinator Peer) (peer : Peer) :
    ∃ requests token, (s.issueChainRequest peer).2 =
      { s with chainRequests := requests, nextToken := token } := by
  unfold issueChainRequest
  split
  · exact ⟨_, _, rfl⟩
  · exact ⟨_, _, rfl⟩

/-- An inventory for a request, from the state without the request. -/
theorem snd_installInventoryForRequest (s : SyncCoordinator Peer) (peer : Peer)
    (token : ChainRequestToken) (inv : ChainInventory) (known : SyncBlockId → Bool) :
    (s.installInventoryForRequest peer token inv known).2 = s ∨
      (s.installInventoryForRequest peer token inv known).2 =
        ({ s with chainRequests := s.chainRequests.erase peer }.installInventory peer inv known).2 := by
  unfold installInventoryForRequest
  split
  · exact .inl rfl
  · exact .inr rfl

/-- Every call keeps the books. -/
theorem Booked.call (hs : s.Booked) {c : Call Peer} (hc : c.Valid s) : (s.call c).Booked := by
  have hm : ∀ {t}, Moves s t → t.Booked := fun h => ⟨h.exclusive, h.within hs.within⟩
  cases c with
  | issueChainRequest peer =>
    obtain ⟨requests, token, hst⟩ := s.snd_issueChainRequest peer
    have he : ({ s with chainRequests := requests, nextToken := token } :
        SyncCoordinator Peer).Exclusive :=
      ⟨hs.exclusive.nodup, hs.exclusive.owner, hs.exclusive.queued, hs.exclusive.requested⟩
    rw [SyncCoordinator.call, hst]
    exact hm ⟨he, rfl, rfl, fun _ => rfl, fun _ _ => Iff.rfl⟩
  | installInventoryForRequest peer token inv known =>
    obtain ⟨requested, maxFuture, hv⟩ := hc
    obtain ⟨hco, hl⟩ := consecutive_of_validate hv
    have hn : inv.ids.Nodup := by
      refine nodup_of_consecutive hco (hl.trans_lt ?_)
      decide
    have he : ({ s with chainRequests := s.chainRequests.erase peer } :
        SyncCoordinator Peer).Exclusive :=
      ⟨hs.exclusive.nodup, hs.exclusive.owner, hs.exclusive.queued, hs.exclusive.requested⟩
    have hw : ({ s with chainRequests := s.chainRequests.erase peer } :
        SyncCoordinator Peer).Within :=
      hs.within.of_le rfl le_rfl fun _ => le_rfl
    rcases s.snd_installInventoryForRequest peer token inv known with h | h
    · rw [SyncCoordinator.call, h]
      exact hs
    · rw [SyncCoordinator.call, h]
      exact ⟨exclusive_installInventory he hn, within_installInventory hw⟩
  | nextBatch peer now => exact hm (moves_nextBatch hs.exclusive peer now)
  | receive peer id => exact hm (moves_receive hs.exclusive peer id)
  | applied id => exact ⟨exclusive_applied hs.exclusive id, within_applied hs.within id⟩
  | retryExpired now listing => exact hm (moves_retryExpired hs.exclusive hc)
  | disconnect peer =>
    exact ⟨exclusive_disconnect hs.exclusive peer, within_disconnect hs.within peer⟩

/-- Every call but the application of an id and the end of its peer keeps track of the id. -/
theorem Owns.call (hs : s.Booked) {c : Call Peer} (hc : c.Valid s) {peer : Peer} {id : SyncBlockId}
    (ha : c ≠ .applied id) (hd : c ≠ .disconnect peer) (h : s.Owns peer id) :
    (s.call c).Owns peer id := by
  cases c with
  | issueChainRequest p =>
    obtain ⟨requests, token, hst⟩ := s.snd_issueChainRequest p
    rw [SyncCoordinator.call, hst]
    exact h
  | installInventoryForRequest p token inv known =>
    rcases s.snd_installInventoryForRequest p token inv known with hst | hst
    · rw [SyncCoordinator.call, hst]
      exact h
    · rw [SyncCoordinator.call, hst]
      exact owns_installInventory (s := { s with chainRequests := s.chainRequests.erase p }) h
  | nextBatch p now => exact ((moves_nextBatch hs.exclusive p now).owns _ _).mpr h
  | receive p i => exact ((moves_receive hs.exclusive p i).owns _ _).mpr h
  | applied i => exact owns_applied (fun he => ha (he ▸ rfl)) h
  | retryExpired now listing => exact ((moves_retryExpired hs.exclusive hc).owns _ _).mpr h
  | disconnect p => exact owns_disconnect (fun he => hd (he ▸ rfl)) h

/-! ### Answers in order -/

/-- The coordinator, and what each peer was handed by `next_batch` and has neither delivered nor lost
since, in the order of the batches. -/
structure Served (Peer : Type) where
  coordinator : SyncCoordinator Peer
  outstanding : Peer → List SyncBlockId

/-- The next batch of a peer is sorted by height and continues the open requests to it. -/
def InOrder (s : SyncCoordinator Peer) (peer : Peer) : Prop :=
  let batch := (s.queueOf peer).take (s.capacity peer)
  (batch.Pairwise fun a b => a.number ≤ b.number) ∧
    ∀ a ∈ s.requestsOf peer, ∀ b ∈ batch, a.number ≤ b.number

/-- A batch is asked for only where it is in order. -/
def Call.Orderly (s : SyncCoordinator Peer) : Call Peer → Prop
  | .nextBatch peer _ => s.InOrder peer
  | _ => True

section Requests

variable {p : Peer} {id : SyncBlockId}

theorem requestsOf_congr {t : SyncCoordinator Peer} (h : t.requested = s.requested) (p : Peer) :
    t.requestsOf p = s.requestsOf p := by
  rw [requestsOf, requestsOf, h]

theorem lookup_popAll (peer : Peer) (now : Int) (batch : List SyncBlockId) :
    ∀ s : SyncCoordinator Peer, (batch.foldl (popOne peer now) s).requested.lookup id =
      if id ∈ batch then some (peer, now) else s.requested.lookup id := by
  induction batch with
  | nil => exact fun s => by rw [List.foldl_nil, if_neg List.not_mem_nil]
  | cons i batch ih =>
    intro s
    rw [List.foldl_cons, ih]
    by_cases hin : id ∈ batch
    · rw [if_pos hin, if_pos (List.mem_cons_of_mem _ hin)]
    · rw [if_neg hin, popOne]
      by_cases hi : id = i
      · subst hi
        rw [if_pos List.mem_cons_self, Finmap.lookup_insert]
      · have hne : id ∉ i :: batch := by simp [hi, hin]
        rw [if_neg hne, Finmap.lookup_insert_of_ne _ hi]

theorem mem_requestsOf_nextBatch (peer : Peer) (now : Int) (hs : s.Exclusive) :
    id ∈ (s.nextBatch peer now).2.requestsOf p ↔
      id ∈ s.requestsOf p ∨ p = peer ∧ id ∈ (s.nextBatch peer now).1 := by
  rw [fst_nextBatch, snd_nextBatch, mem_requestsOf, mem_requestsOf, lookup_popAll]
  by_cases hin : id ∈ (s.queueOf peer).take (s.capacity peer)
  · have hn : s.requested.lookup id = none :=
      Finmap.lookup_eq_none.mpr (hs.queued (List.mem_of_mem_take hin)).1
    rw [if_pos hin, hn]
    simp [hin, eq_comm]
  · rw [if_neg hin]
    simp [hin]

theorem lookup_retryAll (entries : List (SyncBlockId × Peer)) :
    ∀ s : SyncCoordinator Peer, (entries.foldl retryOne s).requested.lookup id =
      if id ∈ entries.map Prod.fst then none else s.requested.lookup id := by
  induction entries with
  | nil => exact fun s => by rw [List.foldl_nil, List.map_nil, if_neg List.not_mem_nil]
  | cons entry entries ih =>
    intro s
    rw [List.foldl_cons, ih, List.map_cons]
    by_cases hin : id ∈ entries.map Prod.fst
    · rw [if_pos hin, if_pos (List.mem_cons_of_mem _ hin)]
    · rw [if_neg hin, retryOne]
      by_cases hi : id = entry.1
      · subst hi
        rw [if_pos List.mem_cons_self, Finmap.lookup_erase]
      · rw [if_neg (List.not_mem_cons_of_ne_of_not_mem hi hin), Finmap.lookup_erase_ne hi]

theorem mem_requestsOf_retryExpired (now : Int) (listing : List (SyncBlockId × Peer × Int)) :
    id ∈ (s.retryExpired now listing).2.requestsOf p ↔
      id ∈ s.requestsOf p ∧ id ∉ (s.retryExpired now listing).1 := by
  rw [mem_requestsOf, mem_requestsOf, retryExpired]
  dsimp only
  have hr : id ∈ (expiredOf now listing).reverse.map Prod.fst ↔
      id ∈ (expiredOf now listing).map Prod.fst := by
    rw [List.map_reverse, List.mem_reverse]
  rw [lookup_retryAll]
  by_cases hin : id ∈ (expiredOf now listing).map Prod.fst
  · rw [if_pos (hr.mpr hin)]
    simp [hin]
  · rw [if_neg (mt hr.mp hin)]
    simp [hin]

theorem requestsOf_received (i : SyncBlockId) (peer : Peer) :
    requestsOf { s with
      requested := s.requested.erase i
      inProcess := s.inProcess.insert i peer } p = (s.requestsOf p).erase i := by
  ext j
  rw [Finset.mem_erase, mem_requestsOf, mem_requestsOf]
  by_cases hj : j = i
  · subst hj
    rw [Finmap.lookup_erase]
    simp
  · rw [Finmap.lookup_erase_ne hj]
    simp [hj]

theorem mem_requestsOf_disconnect (peer : Peer) :
    id ∈ (s.disconnect peer).requestsOf p ↔ id ∈ s.requestsOf p ∧ p ≠ peer := by
  simp only [mem_requestsOf, disconnect, FMap.lookup_retain_eq_some]
  simp

end Requests

namespace Served

/-- No call was made yet. -/
def start (limits : SyncLimits) : Served Peer where
  coordinator := withLimits limits
  outstanding := fun _ => []

/-- A call, and what it hands out or takes back. -/
def step (s : Served Peer) (c : Call Peer) : Served Peer where
  coordinator := s.coordinator.call c
  outstanding :=
    match c with
    | .nextBatch peer now =>
      Function.update s.outstanding peer
        (s.outstanding peer ++ (s.coordinator.nextBatch peer now).1)
    | .receive peer id =>
      match (s.coordinator.receive peer id).1 with
      | .ok _ => Function.update s.outstanding peer ((s.outstanding peer).erase id)
      | .error _ => s.outstanding
    | .retryExpired now listing => fun p =>
      (s.outstanding p).filter fun id => id ∉ (s.coordinator.retryExpired now listing).1
    | .disconnect peer => Function.update s.outstanding peer []
    | _ => s.outstanding

/-- One call after the other. -/
def run (s : Served Peer) (calls : List (Call Peer)) : Served Peer := calls.foldl step s

/-- Each call can be made where it is made. -/
def Valid : Served Peer → List (Call Peer) → Prop
  | _, [] => True
  | s, c :: calls => c.Valid s.coordinator ∧ Valid (s.step c) calls

/-- Each batch is in order where it is asked for. -/
def Orderly : Served Peer → List (Call Peer) → Prop
  | _, [] => True
  | s, c :: calls => c.Orderly s.coordinator ∧ Orderly (s.step c) calls

/-- What is outstanding is what is requested. -/
structure Consistent (s : Served Peer) : Prop where
  booked : s.coordinator.Booked
  nodup : ∀ p, (s.outstanding p).Nodup
  mem : ∀ p id, id ∈ s.outstanding p ↔ id ∈ s.coordinator.requestsOf p

/-- What is outstanding is sorted by height. -/
def Sorted (s : Served Peer) : Prop :=
  ∀ p, (s.outstanding p).Pairwise fun a b => a.number ≤ b.number

theorem booked_start (limits : SyncLimits) :
    (start limits : Served Peer).coordinator.Booked := by
  have hq : ∀ p : Peer, (withLimits limits).queueOf p = [] := fun _ => rfl
  have hg : (withLimits limits : SyncCoordinator Peer).globalCount = 0 := rfl
  have hp : ∀ p : Peer, (withLimits limits).peerCount p = 0 := fun _ => rfl
  refine ⟨⟨fun p => ?_, fun hi _ => ?_, fun hi => ?_, fun hi => ?_⟩,
    ⟨?_, ?_, fun p => ?_, fun p => ?_⟩⟩
  · rw [start, hq]
    exact List.nodup_nil
  · rw [start, hq] at hi
    cases hi
  · rw [start, hq] at hi
    cases hi
  · exact absurd hi Finmap.notMem_empty
  · rw [start, hg]
    exact Nat.zero_le _
  · rw [start, hg]
    exact Nat.zero_le _
  · rw [start, hp]
    exact Nat.zero_le _
  · rw [start, hp]
    exact Nat.zero_le _

theorem consistent_start (limits : SyncLimits) : (start limits : Served Peer).Consistent := by
  refine ⟨booked_start limits, fun _ => List.nodup_nil, fun p id => ?_⟩
  rw [mem_requestsOf]
  simp [start, withLimits]

section Step

variable {s : Served Peer} {c : Call Peer}

theorem requested_installInventoryForRequest (s : SyncCoordinator Peer) (peer : Peer)
    (token : ChainRequestToken) (inv : ChainInventory) (known : SyncBlockId → Bool) :
    (s.installInventoryForRequest peer token inv known).2.requested = s.requested := by
  rcases s.snd_installInventoryForRequest peer token inv known with h | h
  · rw [h]
  · rw [h]
    cases hr : ({ s with chainRequests := s.chainRequests.erase peer }.installInventory peer inv
        known).1 with
    | error e => rw [installInventory_eq_error hr]
    | ok _ => rw [(installInventory_eq_ok hr).1]

/-- What is outstanding stays what is requested. -/
theorem Consistent.step (hs : s.Consistent) (hc : c.Valid s.coordinator) :
    (s.step c).Consistent := by
  have hk : (s.coordinator.call c).requested = s.coordinator.requested →
      (s.step c).outstanding = s.outstanding → (s.step c).Consistent := by
    intro hr ho
    refine ⟨hs.booked.call hc, fun p => ho ▸ hs.nodup p, fun p id => ?_⟩
    rw [ho, hs.mem]
    exact Iff.of_eq (congrArg (id ∈ ·) (requestsOf_congr hr p).symm)
  cases c with
  | issueChainRequest peer =>
    obtain ⟨requests, token, hst⟩ := s.coordinator.snd_issueChainRequest peer
    exact hk (by rw [SyncCoordinator.call, hst]) rfl
  | installInventoryForRequest peer token inv known =>
    exact hk (requested_installInventoryForRequest _ peer token inv known) rfl
  | applied id => exact hk rfl rfl
  | nextBatch peer now =>
    have he := hs.booked.exclusive
    have hm : ∀ p id, id ∈ (s.step (.nextBatch peer now)).outstanding p ↔
        id ∈ s.outstanding p ∨ p = peer ∧ id ∈ (s.coordinator.nextBatch peer now).1 := by
      intro p id
      simp only [step, Function.update_apply]
      split
      · next hp => rw [hp, List.mem_append]; simp
      · next hp => simp [hp]
    refine ⟨hs.booked.call hc, fun p => ?_, fun p id => ?_⟩
    · simp only [step, Function.update_apply]
      split
      · refine List.Nodup.append (hs.nodup peer) ?_ fun id hid hi' => ?_
        · rw [fst_nextBatch]
          exact (he.nodup peer).sublist (List.take_sublist _ _)
        -- what is requested is not queued
        · rw [fst_nextBatch] at hi'
          obtain ⟨madeAt, hl⟩ := mem_requestsOf.mp ((hs.mem _ _).mp hid)
          exact (he.queued (List.mem_of_mem_take hi')).1 (Finmap.mem_iff.mpr ⟨_, hl⟩)
      · exact hs.nodup p
    · rw [hm, hs.mem]
      exact (mem_requestsOf_nextBatch peer now he).symm
  | receive peer id =>
    rcases s.coordinator.receive_cases peer id with ⟨madeAt, hl, heq⟩ | ⟨e, heq⟩
    · have ho : (s.step (.receive peer id)).outstanding =
          Function.update s.outstanding peer ((s.outstanding peer).erase id) := by
        simp only [step, heq]
      have hst : (s.step (.receive peer id)).coordinator =
          { s.coordinator with
            requested := s.coordinator.requested.erase id
            inProcess := s.coordinator.inProcess.insert id peer } := by
        simp only [step, SyncCoordinator.call, heq]
      refine ⟨hs.booked.call hc, fun p => ?_, fun p i => ?_⟩
      · rw [ho, Function.update_apply]
        split
        · exact (hs.nodup peer).erase id
        · exact hs.nodup p
      · rw [ho, hst, requestsOf_received, Finset.mem_erase, Function.update_apply]
        split
        · next hp =>
          rw [hp, (hs.nodup peer).mem_erase_iff, hs.mem]
        · next hp =>
          rw [hs.mem]
          refine ⟨fun hi => ⟨?_, hi⟩, fun hi => hi.2⟩
          rintro rfl
          obtain ⟨t, ht⟩ := mem_requestsOf.mp hi
          cases hl.symm.trans ht
          exact hp rfl
    · refine hk ?_ ?_
      · simp only [SyncCoordinator.call, heq]
      · simp only [step, heq]
  | retryExpired now listing =>
    refine ⟨hs.booked.call hc, fun p => (hs.nodup p).filter _, fun p id => ?_⟩
    simp only [step, List.mem_filter, hs.mem, decide_eq_true_eq]
    exact (mem_requestsOf_retryExpired now listing).symm
  | disconnect peer =>
    refine ⟨hs.booked.call hc, fun p => ?_, fun p id => ?_⟩
    · simp only [step, Function.update_apply]
      split
      · exact List.nodup_nil
      · exact hs.nodup p
    · simp only [step, Function.update_apply]
      refine Iff.trans ?_ (mem_requestsOf_disconnect peer).symm
      split
      · next hp => simp [hp]
      · next hp => simp [hp, hs.mem]

/-- A batch in order keeps what is outstanding sorted. -/
theorem Sorted.step (hs : s.Consistent) (hso : s.Sorted) (hc : c.Orderly s.coordinator) :
    (s.step c).Sorted := by
  intro p
  cases c with
  | nextBatch peer now =>
    simp only [Served.step, Function.update_apply]
    split
    · rw [fst_nextBatch]
      refine List.pairwise_append.mpr ⟨hso peer, hc.1, fun a ha b hb => ?_⟩
      exact hc.2 a ((hs.mem peer a).mp ha) b hb
    · exact hso p
  | receive peer id =>
    rcases s.coordinator.receive_cases peer id with ⟨madeAt, -, heq⟩ | ⟨e, heq⟩
    · simp only [Served.step, heq, Function.update_apply]
      split
      · exact (hso peer).sublist List.erase_sublist
      · exact hso p
    · simp only [Served.step, heq]
      exact hso p
  | retryExpired now listing => exact (hso p).sublist List.filter_sublist
  | disconnect peer =>
    simp only [Served.step, Function.update_apply]
    split
    · exact .nil
    · exact hso p
  | issueChainRequest peer => exact hso p
  | installInventoryForRequest peer token inv known => exact hso p
  | applied id => exact hso p

/-- Where what is outstanding is sorted, the next answer in order is accepted. -/
theorem Sorted.receive (hs : s.Consistent) (hso : s.Sorted) {peer : Peer} {id : SyncBlockId}
    {rest : List SyncBlockId} (h : s.outstanding peer = id :: rest) :
    (s.coordinator.receive peer id).1 = .ok () := by
  refine receive_eq_ok_iff.mpr ⟨?_, fun i hi => ?_⟩
  · rw [← hs.mem, h]
    exact List.mem_cons_self
  · rw [← hs.mem, h] at hi
    have hp := hso peer
    rw [h] at hp
    rcases List.mem_cons.mp hi with rfl | hi
    · exact le_rfl
    · exact List.rel_of_pairwise_cons hp hi

end Step

theorem Consistent.run {calls : List (Call Peer)} :
    ∀ {s : Served Peer}, s.Consistent → s.Valid calls → (s.run calls).Consistent := by
  induction calls with
  | nil => exact fun hs _ => hs
  | cons c calls ih => exact fun hs hv => ih (hs.step hv.1) hv.2

theorem Sorted.run {calls : List (Call Peer)} :
    ∀ {s : Served Peer}, s.Consistent → s.Sorted → s.Valid calls → s.Orderly calls →
      (s.run calls).Sorted := by
  induction calls with
  | nil => exact fun _ hso _ _ => hso
  | cons c calls ih =>
    exact fun hs hso hv ho => ih (hs.step hv.1) (hso.step hs ho.1) hv.2 ho.2

theorem Owns.run {peer : Peer} {id : SyncBlockId} {calls : List (Call Peer)} :
    ∀ {s : Served Peer}, s.Consistent → s.Valid calls → Call.applied id ∉ calls →
      Call.disconnect peer ∉ calls → s.coordinator.Owns peer id →
        (s.run calls).coordinator.Owns peer id := by
  induction calls with
  | nil => exact fun _ _ _ _ h => h
  | cons c calls ih =>
    intro s hs hv ha hd h
    rw [List.mem_cons, not_or] at ha hd
    refine ih (hs.step hv.1) hv.2 ha.2 hd.2 ?_
    exact h.call hs.booked hv.1 (Ne.symm ha.1) (Ne.symm hd.1)

theorem valid_append {calls more : List (Call Peer)} :
    ∀ {s : Served Peer}, s.Valid (calls ++ more) ↔ s.Valid calls ∧ (s.run calls).Valid more := by
  induction calls with
  | nil => exact fun {s} => (and_iff_right trivial).symm
  | cons c calls ih =>
    intro s
    rw [List.cons_append, Valid, Valid, ih, and_assoc]
    rfl

/-- **The books of the coordinator.** After any calls each id is in one place and has one owner, the
limits hold, an id that an inventory brings in is tracked until it is applied or its owner
disconnects; and if each batch was in order where it was asked for, a peer that answers next what
it was handed first is not turned down. -/
theorem bookkeeping (limits : SyncLimits) (calls more : List (Call Peer))
    (hvalid : (start limits).Valid (calls ++ more)) :
    let s := (start limits).run calls
    s.coordinator.Exclusive ∧
      (∀ id peer peer', s.coordinator.Owns peer id → s.coordinator.Owns peer' id → peer = peer') ∧
      s.coordinator.Within ∧
      (∀ peer inv known, (s.coordinator.installInventory peer inv known).1 = .ok () →
        ∀ id ∈ s.coordinator.additions inv known,
          (s.coordinator.installInventory peer inv known).2.Owns peer id) ∧
      (∀ peer id, s.coordinator.Owns peer id → Call.applied id ∉ more →
        Call.disconnect peer ∉ more → (s.run more).coordinator.Owns peer id) ∧
      ((start limits).Orderly calls → ∀ peer id rest, s.outstanding peer = id :: rest →
        (s.coordinator.receive peer id).1 = .ok ()) := by
  obtain ⟨hcalls, hmore⟩ := valid_append.mp hvalid
  have hstart : (start limits : Served Peer).Consistent := consistent_start limits
  have hs := hstart.run hcalls
  refine ⟨hs.booked.exclusive, fun _ _ _ h h' => hs.booked.exclusive.unique h h',
    hs.booked.within, fun _ _ _ h _ hi => ?_, fun _ _ h ha hd => ?_, fun ho _ _ _ h => ?_⟩
  · exact owns_of_installInventory_ok h hi
  · exact Owns.run hs hmore ha hd h
  · exact Sorted.receive hs (Sorted.run hstart (fun _ => .nil) hcalls ho) h

/-- A block at a height of a fork. -/
def blockOf (fork : UInt8) (number : Int) : SyncBlockId := ⟨⟨List.replicate 32 fork, by simp⟩, number⟩

/-- A peer answers a chain request with two new blocks. -/
def oneFork : List (Call Nat) :=
  [.issueChainRequest 0,
    .installInventoryForRequest 0 1 ⟨[blockOf 1 4, blockOf 1 5, blockOf 1 6], 0⟩ fun _ => false,
    .nextBatch 0 0]

theorem bookkeeping_oneFork :
    (((start .default).run oneFork).coordinator.receive 0 (blockOf 1 5)).1 = .ok () :=
  (bookkeeping .default oneFork [] (by
    exact ⟨trivial, ⟨⟨[blockOf 1 4]⟩, 6, rfl⟩, trivial, trivial⟩)).2.2.2.2.2
    ⟨trivial, trivial, by unfold Call.Orderly InOrder; decide, trivial⟩ 0 _ [blockOf 1 6]
    (by decide)

/-- A peer answers two chain requests with blocks of two forks, the lower one last. -/
def twoForks : List (Call Nat) :=
  [.issueChainRequest 0,
    .installInventoryForRequest 0 1 ⟨[blockOf 1 4, blockOf 1 5], 0⟩ fun _ => false,
    .issueChainRequest 0,
    .installInventoryForRequest 0 2 ⟨[blockOf 2 2, blockOf 2 3], 0⟩ fun _ => false,
    .nextBatch 0 0]

/-- The peer that delivers the first block it was handed is turned down. -/
theorem twoForks_out_of_order :
    (start .default).Valid twoForks ∧
      ((start .default).run twoForks).outstanding 0 = [blockOf 1 5, blockOf 2 3] ∧
      (((start .default).run twoForks).coordinator.receive 0 (blockOf 1 5)).1 =
        .error .outOfOrder := by
  refine ⟨⟨trivial, ⟨⟨[blockOf 1 4]⟩, 5, rfl⟩, trivial, ⟨⟨[blockOf 2 2]⟩, 3, rfl⟩, trivial, trivial⟩,
    ?_, ?_⟩
  · decide
  · rfl

end Served

end RustTron.Network.SyncCoordinator
