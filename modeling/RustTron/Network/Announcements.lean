import RustTron.Network.Gossip

/-!
# Announced items

An announced item that was accepted is owed until it is delivered. It waits to be asked for or is
asked for at some peer, as long as somebody provides it; three steps can forget it. The queue is
searched for an item that somebody can serve and what is passed over is dropped; an answer that comes
late closes its request and nothing else; and a peer that leaves may have more requests open than
the queue has room for.

## Main definitions

* `Tracked`: an item waits or is asked for
* `Announced`: the service with the items it owes
* `Call.Retains`: the condition under which a call forgets nothing

## Main results

* `Announced.nothingForgotten`: runs of calls that meet the condition forget nothing
-/

namespace RustTron.Network

theorem age_mono {now later : Int} (h : now ≤ later) (at_ : Int) : age now at_ ≤ age later at_ := by
  unfold age saturateI64
  omega

namespace GossipService

variable {Peer : Type} [LinearOrder Peer]

/-- The entry of a peer in the provider table has not expired. -/
def Unexpired (s : GossipService Peer) (now : Int) (key : InventoryKey) (peer : Peer) : Prop :=
  ∃ at_ ∈ (s.providersOf key).lookup peer, age now at_ < inventoryCacheTtlMs

instance (s : GossipService Peer) (now : Int) (key : InventoryKey) (peer : Peer) :
    Decidable (s.Unexpired now key peer) := by
  unfold Unexpired
  infer_instance

/-- Somebody provides a key. -/
def Provided (s : GossipService Peer) (now : Int) (key : InventoryKey) : Prop :=
  ∃ peer, s.Unexpired now key peer

/-- A key is asked for at some connected peer. -/
def Requested (s : GossipService Peer) (key : InventoryKey) : Prop :=
  ∃ peer ∈ s.peers.keys, (s.requestedAt peer key).isSome

/-- A key waits or is asked for. -/
def Tracked (s : GossipService Peer) (key : InventoryKey) : Prop :=
  key ∈ s.pending ∨ s.Requested key

instance (s : GossipService Peer) (key : InventoryKey) : Decidable (s.Requested key) := by
  unfold Requested
  infer_instance

instance (s : GossipService Peer) (key : InventoryKey) : Decidable (s.Tracked key) := by
  unfold Tracked
  infer_instance

section Access

variable {s : GossipService Peer} {key : InventoryKey} {now : Int}

/-- A key is asked for where a peer has an open request for it. -/
theorem requested_iff : s.Requested key ↔ ∃ peer, (s.requestedAt peer key).isSome := by
  refine ⟨fun ⟨peer, _, h⟩ => ⟨peer, h⟩, fun ⟨peer, h⟩ => ⟨peer, ?_, h⟩⟩
  obtain ⟨at_, hat⟩ := Option.isSome_iff_exists.mp h
  obtain ⟨state, hs, -⟩ := Option.bind_eq_some_iff.mp hat
  exact Finmap.mem_keys.mpr (Finmap.mem_iff.mpr ⟨state, hs⟩)

/-- What is still provided later is provided now. -/
theorem Provided.mono {later : Int} (hle : now ≤ later) (h : s.Provided later key) :
    s.Provided now key := by
  obtain ⟨peer, at_, hat, ha⟩ := h
  exact ⟨peer, at_, hat, (age_mono hle at_).trans_lt ha⟩

theorem lookup_requested_peerOrNew (peer : Peer) :
    (s.peerOrNew peer).requested.lookup key = s.requestedAt peer key := by
  unfold peerOrNew requestedAt
  cases s.peers.lookup peer <;> rfl

theorem isSome_requestedAt (peer : Peer) :
    (s.requestedAt peer key).isSome ↔ key ∈ (s.peerOrNew peer).requested.keys := by
  rw [← lookup_requested_peerOrNew, Finmap.lookup_isSome, Finmap.mem_keys]

theorem peerOrNew_putPeer (peer : Peer) (state : PeerGossip) :
    (s.putPeer peer state).peerOrNew peer = state := by
  unfold peerOrNew putPeer
  dsimp only
  rw [Finmap.lookup_insert]
  rfl

/-- The requests after one peer is replaced. -/
theorem requestedAt_putPeer (peer q : Peer) (state : PeerGossip) :
    (s.putPeer peer state).requestedAt q key =
      if q = peer then state.requested.lookup key else s.requestedAt q key := by
  unfold requestedAt putPeer
  dsimp only
  split
  · next h => rw [h, Finmap.lookup_insert, Option.bind_some]
  · next h => rw [Finmap.lookup_insert_of_ne _ h]

/-- A new state of a peer with the same requests. -/
theorem requestedAt_putPeer_of_eq {peer : Peer} {state : PeerGossip}
    (h : state.requested = (s.peerOrNew peer).requested) (q : Peer) :
    (s.putPeer peer state).requestedAt q key = s.requestedAt q key := by
  rw [requestedAt_putPeer]
  split
  · next hq => rw [h, lookup_requested_peerOrNew, hq]
  · rfl

/-- One request is closed. -/
theorem requestedAt_dropRequest (peer q : Peer) (dropped : InventoryKey) :
    (s.dropRequest peer dropped).requestedAt q key =
      if q = peer ∧ key = dropped then none else s.requestedAt q key := by
  rw [dropRequest, requestedAt_putPeer]
  by_cases hq : q = peer
  · by_cases hk : key = dropped
    · rw [if_pos hq, if_pos ⟨hq, hk⟩, hk]
      exact Finmap.lookup_erase _ _
    · rw [if_pos hq, if_neg fun h => hk h.2, hq, ← lookup_requested_peerOrNew]
      exact Finmap.lookup_erase_ne hk
  · rw [if_neg hq, if_neg fun h => hq h.1]

/-- One request is opened. -/
theorem requestedAt_addRequest (peer q : Peer) (added : InventoryKey) :
    (s.addRequest peer added now).requestedAt q key =
      if q = peer ∧ key = added then some now else s.requestedAt q key := by
  rw [addRequest, requestedAt_putPeer]
  by_cases hq : q = peer
  · by_cases hk : key = added
    · rw [if_pos hq, if_pos ⟨hq, hk⟩, hk]
      exact Finmap.lookup_insert _
    · rw [if_pos hq, if_neg fun h => hk h.2, hq, ← lookup_requested_peerOrNew]
      exact Finmap.lookup_insert_of_ne _ hk
  · rw [if_neg hq, if_neg fun h => hq h.1]

end Access

/-! ### What is taken out of the provider table -/

section Pruned

theorem eq_empty_of_card_keys {Value : Type} {m : FMap Peer Value} (h : m.keys.card = 0) :
    m = ∅ := by
  apply Finmap.ext_lookup
  intro peer
  rw [Finmap.lookup_empty, Finmap.lookup_eq_none, ← Finmap.mem_keys, Finset.card_eq_zero.mp h]
  exact Finset.notMem_empty peer

/-- The peers of each key through `f`; a key without peers is taken out. -/
theorem lookup_pruned {f : FMap Peer Int → FMap Peer Int} (hf : f ∅ = ∅)
    (providers : FMap InventoryKey (ProviderEntry Peer)) (key : InventoryKey) :
    (((((providers.mapValues fun _ entry => (⟨f entry.peers⟩ : ProviderEntry Peer)).retain
      fun _ entry => entry.peers.keys.card ≠ 0).lookup key).map ProviderEntry.peers).getD ∅) =
      f (((providers.lookup key).map ProviderEntry.peers).getD ∅) := by
  rw [FMap.lookup_retain, FMap.lookup_mapValues]
  cases providers.lookup key with
  | none => exact hf.symm
  | some entry =>
    rw [Option.map_some, Option.filter_some]
    by_cases hc : (f entry.peers).keys.card = 0
    · rw [if_neg fun h => absurd hc (of_decide_eq_true h)]
      exact (eq_empty_of_card_keys hc).symm
    · rw [if_pos (decide_eq_true hc)]
      rfl

omit [LinearOrder Peer] in
/-- A key stays in the table while a peer is left for it. -/
theorem mem_pruned {f : FMap Peer Int → FMap Peer Int} (hf : f ∅ = ∅)
    {providers : FMap InventoryKey (ProviderEntry Peer)} {key : InventoryKey} {peer : Peer}
    (h : peer ∈ f (((providers.lookup key).map ProviderEntry.peers).getD ∅)) :
    key ∈ (providers.mapValues fun _ entry => (⟨f entry.peers⟩ : ProviderEntry Peer)).retain
      fun _ entry => entry.peers.keys.card ≠ 0 := by
  cases he : providers.lookup key with
  | none =>
    rw [he] at h
    exact absurd (hf ▸ h : peer ∈ (∅ : FMap Peer Int)) Finmap.notMem_empty
  | some entry =>
    rw [he] at h
    refine FMap.mem_retain.mpr ⟨⟨f entry.peers⟩, ?_, ?_⟩
    · rw [FMap.lookup_mapValues, he]
      rfl
    · exact decide_eq_true (Finset.card_ne_zero_of_mem (Finmap.mem_keys.mpr h))

variable (s : GossipService Peer) (now : Int) (key : InventoryKey)

theorem retain_empty {Value : Type} (keep : Peer → Value → Bool) :
    FMap.retain keep (∅ : FMap Peer Value) = ∅ := by
  apply Finmap.ext_lookup
  intro peer
  rw [FMap.lookup_retain]
  rfl

theorem erase_empty {Value : Type} (peer : Peer) :
    Finmap.erase peer (∅ : FMap Peer Value) = ∅ := by
  apply Finmap.ext_lookup
  intro q
  by_cases hq : q = peer
  · rw [hq, Finmap.lookup_erase, Finmap.lookup_empty]
  · rw [Finmap.lookup_erase_ne hq]

/-- A purge keeps the providers that have not expired. -/
theorem providersOf_purge :
    (s.purge now).providersOf key =
      (s.providersOf key).retain fun _ at_ => age now at_ < inventoryCacheTtlMs :=
  lookup_pruned (retain_empty _) s.providers key

/-- A peer that leaves provides nothing. -/
theorem providersOf_leaveProviders (peer : Peer) :
    (s.leaveProviders peer).providersOf key = (s.providersOf key).erase peer :=
  lookup_pruned (erase_empty peer) s.providers key

variable {s now key}

theorem unexpired_purge {later : Int} {peer : Peer} (h : (s.purge now).Unexpired later key peer) :
    s.Unexpired later key peer := by
  obtain ⟨at_, hat, ha⟩ := h
  rw [providersOf_purge] at hat
  exact ⟨at_, (FMap.lookup_retain_eq_some.mp hat).1, ha⟩

theorem Provided.mem_purge (h : s.Provided now key) : key ∈ (s.purge now).providers := by
  obtain ⟨peer, at_, hat, ha⟩ := h
  have hk : peer ∈ (s.providersOf key).retain fun _ at_ => age now at_ < inventoryCacheTtlMs :=
    FMap.mem_retain.mpr ⟨at_, hat, decide_eq_true ha⟩
  exact mem_pruned (retain_empty _) hk

theorem requestedAt_purge (peer : Peer) :
    (s.purge now).requestedAt peer key = s.requestedAt peer key := by
  unfold requestedAt purge
  dsimp only
  rw [FMap.lookup_mapValues]
  cases s.peers.lookup peer <;> rfl

/-- What waits or is asked for still does, if somebody provides it. -/
theorem Tracked.purge (h : s.Tracked key) (hp : s.Provided now key) :
    (s.purge now).Tracked key := by
  rcases h with h | h
  · exact .inl (List.mem_filter.mpr ⟨h, decide_eq_true hp.mem_purge⟩)
  · refine .inr (requested_iff.mpr ?_)
    obtain ⟨peer, hpe⟩ := requested_iff.mp h
    exact ⟨peer, by rwa [requestedAt_purge]⟩

end Pruned

/-! ### What a call leaves alone -/

section Caches

variable {s : GossipService Peer} {key : InventoryKey} {now : Int}

omit [LinearOrder Peer] in
theorem contains_iff :
    s.contains key = true ↔ ∃ row ∈ s.cacheOf key.kind, row.1 = key.hash := by
  simp only [contains, List.any_eq_true, decide_eq_true_eq]

omit [LinearOrder Peer] in
/-- A service with fewer rows in its caches contains less. -/
theorem contains_eq_false_of_subset {t : GossipService Peer}
    (hs : t.cacheOf key.kind ⊆ s.cacheOf key.kind) (h : s.contains key = false) :
    t.contains key = false := by
  rw [Bool.eq_false_iff, ne_eq, contains_iff] at h ⊢
  rintro ⟨row, hr, hh⟩
  exact h ⟨row, hs hr, hh⟩

/-- A purge adds nothing to a cache. -/
theorem cacheOf_purge_subset (kind : InventoryType) :
    (s.purge now).cacheOf kind ⊆ s.cacheOf kind := by
  cases kind <;> exact List.filter_subset_self _

/-- An eviction adds nothing to a cache. -/
theorem evict_subset (hash : Hash32) (payloadBytes replacedBytes : Nat) (limits : Nat × Nat)
    (fuel : Nat) (rows : List (Hash32 × Cached)) (retained : Nat) :
    (evict hash payloadBytes replacedBytes limits fuel rows retained).2.1 ⊆ rows := by
  induction fuel generalizing rows retained with
  | zero => exact List.Subset.refl _
  | succ fuel ih =>
    unfold evict
    dsimp only
    split
    · split
      · exact List.Subset.refl _
      · exact List.Subset.trans (ih _ _) (List.filter_subset_self _)
    · exact List.Subset.refl _

omit [LinearOrder Peer] in
theorem cacheOf_putCache (kind k : InventoryType) (rows : List (Hash32 × Cached)) (bytes : Nat) :
    (s.putCache kind rows bytes).cacheOf k = if k = kind then rows else s.cacheOf k := by
  cases kind <;> cases k <;> rfl

/-- What `cache` leaves alone. -/
structure SameRequests (s t : GossipService Peer) : Prop where
  pending : t.pending = s.pending
  peers : t.peers = s.peers
  providers : t.providers = s.providers

omit [LinearOrder Peer] in
theorem sameRequests_putCache (kind : InventoryType) (rows : List (Hash32 × Cached)) (bytes : Nat) :
    SameRequests s (s.putCache kind rows bytes) := by
  cases kind <;> exact ⟨rfl, rfl, rfl⟩

/-- Caching a payload changes the caches alone. -/
theorem sameRequests_cache (payload : Payload) :
    SameRequests (s.purge now) (s.cache payload now).2 := by
  unfold cache
  dsimp only
  split
  · exact ⟨rfl, rfl, rfl⟩
  · split
    · exact ⟨rfl, rfl, rfl⟩
    · split
      · obtain ⟨hpe, hpee, hp⟩ := sameRequests_putCache (s := s.purge now) _ _ _
        exact ⟨hpe, hpee, hp⟩
      · exact sameRequests_putCache _ _ _

/-- The only key that `cache` may bring in is that of the payload, when it succeeds. -/
theorem contains_cache {payload : Payload} (h : s.contains key = false)
    (hke : (s.cache payload now).1 = .ok () → key ≠ payload.key) :
    (s.cache payload now).2.contains key = false := by
  have hp : (s.purge now).contains key = false :=
    contains_eq_false_of_subset (cacheOf_purge_subset _) h
  unfold cache at hke ⊢
  dsimp only at hke ⊢
  split
  · exact hp
  · split
    · exact hp
    · rename_i hl hli
      rw [if_neg hl, if_neg hli] at hke
      split
      · rename_i hro
        rw [if_pos hro] at hke
        have hne := hke rfl
        rw [Bool.eq_false_iff, ne_eq, contains_iff] at hp ⊢
        rintro ⟨row, hr, hh⟩
        change row ∈ (putCache _ _ _ _).cacheOf _ at hr
        rw [cacheOf_putCache] at hr
        split at hr
        · rename_i hk
          rcases List.mem_append.mp hr with hr | hr
          · refine hp ⟨row, ?_, hh⟩
            rw [hk]
            exact evict_subset _ _ _ _ _ _ _ (List.mem_filter.mp hr).1
          · rw [List.mem_singleton.mp hr] at hh
            refine hne ?_
            obtain ⟨hash, kind⟩ := key
            exact congrArg₂ InventoryKey.mk hh.symm hk
        · exact hp ⟨row, hr, hh⟩
      · refine contains_eq_false_of_subset (fun row hr => ?_) hp
        rw [cacheOf_putCache] at hr
        split at hr
        · rename_i hk
          rw [hk]
          exact evict_subset _ _ _ _ _ _ _ hr
        · exact hr

end Caches

section Announce

variable {s : GossipService Peer} {key : InventoryKey} {now : Int}

/-- What announcements leave alone, with a queue that only grows. -/
structure Grows (s t : GossipService Peer) : Prop where
  pending : s.pending ⊆ t.pending
  length : s.pending.length ≤ t.pending.length
  requested : ∀ peer key, t.requestedAt peer key = s.requestedAt peer key
  caches : t.cacheOf = s.cacheOf

theorem Grows.refl (s : GossipService Peer) : Grows s s :=
  ⟨List.Subset.refl _, le_rfl, fun _ _ => rfl, rfl⟩

theorem Grows.trans {t u : GossipService Peer} (h : Grows s t) (h' : Grows t u) : Grows s u :=
  ⟨List.Subset.trans h.pending h'.pending, h.length.trans h'.length,
    fun peer key => (h'.requested peer key).trans (h.requested peer key),
    h'.caches.trans h.caches⟩

/-- What is tracked stays tracked when the queue grows. -/
theorem Grows.tracked {t : GossipService Peer} (h : Grows s t) (hs : s.Tracked key) :
    t.Tracked key := by
  refine hs.imp (fun hm => h.pending hm) fun hr => ?_
  obtain ⟨peer, hp⟩ := requested_iff.mp hr
  exact requested_iff.mpr ⟨peer, by rwa [h.requested]⟩

theorem Grows.contains {t : GossipService Peer} (h : Grows s t) (key : InventoryKey) :
    t.contains key = s.contains key := by
  unfold GossipService.contains
  rw [h.caches]

theorem grows_putPeer {peer : Peer} {state : PeerGossip}
    (h : state.requested = (s.peerOrNew peer).requested) : Grows s (s.putPeer peer state) :=
  ⟨List.Subset.refl _, le_rfl, fun q _ => requestedAt_putPeer_of_eq h q, rfl⟩

theorem grows_addProvider (peer : Peer) (added : InventoryKey) :
    Grows s (s.addProvider peer now added) :=
  have h : Grows s (s.putPeer peer
      { s.peerOrNew peer with received := (s.peerOrNew peer).received.insert added now }) :=
    grows_putPeer rfl
  ⟨h.pending, h.length, h.requested, h.caches⟩

theorem grows_append (added : InventoryKey) :
    Grows s { s with pending := s.pending ++ [added] } :=
  ⟨List.subset_append_left _ _, by simp, fun _ _ => rfl, rfl⟩

theorem providersOf_addProvider (peer : Peer) (added : InventoryKey) :
    (s.addProvider peer now added).providersOf key =
      if key = added then (s.providersOf added).insert peer now else s.providersOf key := by
  unfold addProvider
  unfold providersOf
  dsimp only
  split
  · next h =>
    rw [h, Finmap.lookup_insert]
    rfl
  · next h => rw [Finmap.lookup_insert_of_ne _ h]

/-- A key that is provided after an announcement was before, or was announced. -/
theorem provided_of_addProvider {peer : Peer} {added : InventoryKey} {later : Int}
    (h : (s.addProvider peer now added).Provided later key) : key = added ∨ s.Provided later key := by
  by_cases hk : key = added
  · exact .inl hk
  · refine .inr ?_
    obtain ⟨q, at_, hat, ha⟩ := h
    rw [providersOf_addProvider, if_neg hk] at hat
    exact ⟨q, at_, hat, ha⟩

/-- Announcements only let the queue grow. -/
theorem grows_announce (peer : Peer) (keys : List InventoryKey) :
    ∀ s : GossipService Peer, Grows s (announce peer now keys s).2 := by
  induction keys with
  | nil => exact fun s => .refl s
  | cons added keys ih =>
    intro s
    unfold announce
    dsimp only
    split
    · exact ((grows_addProvider peer added).trans (grows_append added)).trans (ih _)
    · exact (grows_addProvider peer added).trans (ih _)

/-- A key that is provided after announcements was before, or is one of them. -/
theorem provided_of_announce {peer : Peer} {keys : List InventoryKey} {later : Int} :
    ∀ {s : GossipService Peer}, (announce peer now keys s).2.Provided later key →
      key ∈ keys ∨ s.Provided later key := by
  induction keys with
  | nil => exact fun h => .inr h
  | cons added keys ih =>
    intro s h
    unfold announce at h
    dsimp only at h
    have hr : key ∈ keys ∨ (s.addProvider peer now added).Provided later key := by
      split at h
      · exact (ih h).imp_right fun ⟨q, hq⟩ => ⟨q, hq⟩
      · exact ih h
    rcases hr with hr | hr
    · exact .inl (List.mem_cons_of_mem _ hr)
    · rcases provided_of_addProvider hr with rfl | hs
      · exact .inl List.mem_cons_self
      · exact .inr hs

/-- An announced key that is not cached waits, if the queue never filled up. -/
theorem mem_pending_announce {peer : Peer} {keys : List InventoryKey} (hm : key ∈ keys) :
    ∀ {s : GossipService Peer}, s.contains key = false →
      (announce peer now keys s).2.pending.length < pendingInventoryLimit →
        key ∈ (announce peer now keys s).2.pending := by
  induction keys with
  | nil => nomatch hm
  | cons added keys ih =>
    intro s hs hr
    unfold announce at hr ⊢
    dsimp only at hr ⊢
    have ha : Grows s (s.addProvider peer now added) := grows_addProvider peer added
    rcases List.mem_cons.mp hm with rfl | hm
    · split at hr
      · rename_i hn
        rw [if_pos hn]
        exact (grows_announce peer keys _).pending (List.mem_append_right _ (List.mem_singleton_self _))
      · rename_i hn
        rw [if_neg hn]
        -- It is neither cached nor is the queue full, so it waits already.
        have hg : Grows _ (announce peer now keys (s.addProvider peer now key)).2 :=
          grows_announce peer keys _
        refine hg.pending ?_
        by_contra hp
        refine hn ?_
        have hl := hg.length.trans_lt hr
        simp only [isNews, ha.contains, hs, hp, hl, Bool.not_false, not_false_eq_true,
          decide_true, Bool.and_self]
    · split at hr
      · rename_i hn
        rw [if_pos hn]
        exact ih hm (((ha.trans (grows_append added)).contains key).trans hs) hr
      · rename_i hn
        rw [if_neg hn]
        exact ih hm ((ha.contains key).trans hs) hr

/-- A key that was accepted was announced, was not cached, and waits. -/
theorem accepted_announce {peer : Peer} {keys : List InventoryKey} :
    ∀ {s : GossipService Peer}, key ∈ (announce peer now keys s).1 →
      s.contains key = false ∧ key ∈ (announce peer now keys s).2.pending := by
  induction keys with
  | nil => exact fun h => nomatch h
  | cons added keys ih =>
    intro s h
    unfold announce at h ⊢
    dsimp only at h ⊢
    have ha : Grows s (s.addProvider peer now added) := grows_addProvider peer added
    split at h
    · rename_i hn
      rw [if_pos hn]
      rcases List.mem_cons.mp h with rfl | h
      · refine ⟨?_, (grows_announce peer keys _).pending
          (List.mem_append_right _ (List.mem_singleton_self _))⟩
        rw [isNews, Bool.and_eq_true, Bool.and_eq_true, Bool.not_eq_true', ha.contains] at hn
        exact hn.1.1
      · obtain ⟨hc, hp⟩ := ih h
        exact ⟨((ha.trans (grows_append added)).contains key).symm.trans hc, hp⟩
    · rename_i hn
      rw [if_neg hn]
      obtain ⟨hc, hp⟩ := ih h
      exact ⟨(ha.contains key).symm.trans hc, hp⟩

/-- `receive_inventory` fails and notes nothing down, or announces some keys. -/
theorem receiveInventory_cases (s : GossipService Peer) (peer : Peer) (adv : Advertisement)
    (now : Int) :
    ∃ t, Grows (s.purge now) t ∧ t.providers = (s.purge now).providers ∧
      ((∃ e, s.receiveInventory peer adv now = (.error e, t)) ∨
        ∃ keys, s.receiveInventory peer adv now =
          (.ok (announce peer now keys t).1, (announce peer now keys t).2)) := by
  have hf : Grows (s.purge now) ((s.purge now).putPeer peer ((s.purge now).peerOrNew peer)) :=
    grows_putPeer rfl
  unfold receiveInventory
  dsimp only
  split
  · exact ⟨_, hf, rfl, .inl ⟨_, rfl⟩⟩
  split
  · exact ⟨_, hf, rfl, .inl ⟨_, rfl⟩⟩
  split
  · exact ⟨_, hf, rfl, .inl ⟨_, rfl⟩⟩
  have hr : (restartRate ((s.purge now).putPeer peer ((s.purge now).peerOrNew peer) |>.peerOrNew
      peer) adv.kind now).requested =
        ((s.purge now).putPeer peer ((s.purge now).peerOrNew peer) |>.peerOrNew peer).requested := by
    unfold restartRate
    split <;> rfl
  have hs := hf.trans (grows_putPeer hr)
  split
  · exact ⟨_, hs, rfl, .inl ⟨_, rfl⟩⟩
  split
  · exact ⟨_, hs, rfl, .inl ⟨_, rfl⟩⟩
  refine ⟨_, hs.trans (grows_putPeer ?_), rfl, .inr ⟨_, rfl⟩⟩
  change (restartRate _ adv.kind now).requested = _
  exact congrArg PeerGossip.requested (peerOrNew_putPeer peer _).symm

end Announce

/-! ### Requests -/

section Requests

variable {s : GossipService Peer} {key : InventoryKey} {now : Int}

/-- The keys that the search of the queue passes over. -/
def passedOver (s : GossipService Peer) : List InventoryKey :=
  s.pending.takeWhile fun key => (s.chooseProvider key).isNone

/-- The search of the queue leaves the provider table. -/
theorem providers_takePending (queue : List InventoryKey) :
    ∀ s : GossipService Peer, (takePending now queue s).2.providers = s.providers ∧
      (takePending now queue s).2.cacheOf = s.cacheOf := by
  induction queue with
  | nil => exact fun _ => ⟨rfl, rfl⟩
  | cons first rest ih =>
    intro s
    unfold takePending
    split
    · exact ih s
    · exact ⟨rfl, rfl⟩

/-- The search of the queue leaves the requests that are open. -/
theorem requested_takePending (queue : List InventoryKey) :
    ∀ {s : GossipService Peer}, s.Requested key → (takePending now queue s).2.Requested key := by
  induction queue with
  | nil => exact fun h => h
  | cons first rest ih =>
    intro s h
    unfold takePending
    split
    · exact ih h
    · obtain ⟨q, hq⟩ := requested_iff.mp h
      refine requested_iff.mpr ⟨q, ?_⟩
      dsimp only
      rw [requestedAt_addRequest]
      split
      · rfl
      · exact hq

/-- A key in the queue is passed over, or still waits, or is asked for. -/
theorem tracked_takePending {queue : List InventoryKey} :
    ∀ {s : GossipService Peer}, key ∈ queue →
      (key ∈ queue.takeWhile (fun key => (s.chooseProvider key).isNone) → s.Requested key) →
        (takePending now queue s).2.Tracked key := by
  induction queue with
  | nil => exact fun h => nomatch h
  | cons first rest ih =>
    intro s hm hp
    by_cases hr : s.Requested key
    · exact .inr (requested_takePending _ hr)
    have hn : key ∉ (first :: rest).takeWhile fun key => (s.chooseProvider key).isNone :=
      fun h => hr (hp h)
    unfold takePending
    split
    · rename_i hno
      rw [List.takeWhile_cons_of_pos (by rw [hno]; rfl), List.mem_cons, not_or] at hn
      rcases List.mem_cons.mp hm with rfl | hm
      · exact absurd rfl hn.1
      · exact ih hm fun h => absurd h hn.2
    · rename_i peer _
      rcases List.mem_cons.mp hm with rfl | hm
      · refine .inr (requested_iff.mpr ⟨peer, ?_⟩)
        dsimp only
        rw [requestedAt_addRequest, if_pos ⟨rfl, rfl⟩]
        rfl
      · exact .inl hm

/-- The request of one key is closed; other requests stay open. -/
theorem tracked_dropRequest {peer : Peer} {dropped : InventoryKey} (h : s.Tracked key)
    (ho : key = dropped → key ∈ s.pending ∨ ∃ q ≠ peer, (s.requestedAt q key).isSome) :
    (s.dropRequest peer dropped).Tracked key := by
  by_cases hk : key = dropped
  · refine (ho hk).imp (fun h => h) fun ⟨q, hq, hs⟩ => requested_iff.mpr ⟨q, ?_⟩
    rwa [requestedAt_dropRequest, if_neg fun h => hq h.1]
  · refine h.imp (fun h => h) fun h => ?_
    obtain ⟨q, hq⟩ := requested_iff.mp h
    refine requested_iff.mpr ⟨q, ?_⟩
    rwa [requestedAt_dropRequest, if_neg fun h => hk h.2]

/-! #### Stale requests -/

theorem providers_expireOne (entry : Peer × InventoryKey) :
    (s.expireOne entry).providers = s.providers ∧ (s.expireOne entry).cacheOf = s.cacheOf := by
  unfold expireOne
  dsimp only
  split <;> exact ⟨rfl, rfl⟩

theorem length_expireOne (entry : Peer × InventoryKey) :
    s.pending.length ≤ (s.expireOne entry).pending.length := by
  unfold expireOne
  dsimp only
  split
  · rw [List.length_append]
    exact Nat.le_add_right _ _
  · exact le_rfl

/-- Requests that expire take nothing out of the queue. -/
theorem length_expireAll (listing : List (Peer × InventoryKey)) :
    ∀ s : GossipService Peer, s.pending.length ≤ (listing.foldl expireOne s).pending.length := by
  induction listing with
  | nil => exact fun _ => le_rfl
  | cons entry listing ih => exact fun s => (length_expireOne entry).trans (ih _)

/-- A key whose request expired waits again if somebody provides it. -/
theorem tracked_expireOne {entry : Peer × InventoryKey} (h : s.Tracked key)
    (hp : key ∈ s.providers)
    (hr : (s.expireOne entry).pending.length < pendingInventoryLimit) :
    (s.expireOne entry).Tracked key := by
  have hl := (length_expireOne entry).trans_lt hr
  unfold expireOne
  dsimp only
  -- The key is requeued, or it waits already, or it is another one.
  by_cases hk : key = entry.2
  · subst hk
    split
    · exact .inl (List.mem_append_right _ (List.mem_singleton_self _))
    · rename_i hn
      refine .inl ?_
      by_contra hpe
      exact hn ⟨hp, hl, hpe⟩
  · have hd : (s.dropRequest entry.1 entry.2).Tracked key :=
      tracked_dropRequest h fun h => absurd h hk
    split
    · exact hd.imp (fun h => List.mem_append_left _ h) fun h => h
    · exact hd

theorem providers_expireAll (listing : List (Peer × InventoryKey)) :
    ∀ s : GossipService Peer, (listing.foldl expireOne s).providers = s.providers ∧
      (listing.foldl expireOne s).cacheOf = s.cacheOf := by
  induction listing with
  | nil => exact fun _ => ⟨rfl, rfl⟩
  | cons entry listing ih =>
    exact fun s => ⟨(ih _).1.trans (providers_expireOne entry).1,
      (ih _).2.trans (providers_expireOne entry).2⟩

/-- Expired requests forget nothing that is provided. -/
theorem tracked_expireAll {listing : List (Peer × InventoryKey)} :
    ∀ {s : GossipService Peer}, s.Tracked key → key ∈ s.providers →
      (listing.foldl expireOne s).pending.length < pendingInventoryLimit →
        (listing.foldl expireOne s).Tracked key := by
  induction listing with
  | nil => exact fun h _ _ => h
  | cons entry listing ih =>
    intro s h hp hr
    refine ih (tracked_expireOne h hp ?_) ?_ hr
    · exact (length_expireAll listing _).trans_lt hr
    · rwa [(providers_expireOne entry).1]

/-! #### A peer that leaves -/

/-- Somebody other than a peer announced a key. -/
def HasOther (s : GossipService Peer) (peer : Peer) (key : InventoryKey) : Prop :=
  ((s.providersOf key).keys.filter fun candidate => candidate ≠ peer).card ≠ 0

instance (s : GossipService Peer) (peer : Peer) (key : InventoryKey) :
    Decidable (s.HasOther peer key) := by
  unfold HasOther
  infer_instance

/-- The requests that `disconnect` puts back, if there is room. -/
def requeued (s : GossipService Peer) (peer : Peer) (listing : List InventoryKey) :
    List InventoryKey :=
  listing.filter fun key => s.HasOther peer key ∧ key ∉ s.pending

/-- A request of a peer that leaves is put back, or passed over. -/
theorem requeueFirst_cases (peer : Peer) (s : GossipService Peer) (first : InventoryKey) :
    (s.HasOther peer first ∧ first ∉ s.pending ∧ s.pending.length < pendingInventoryLimit ∧
      requeueFirst peer s first = { s with pending := first :: s.pending }) ∨
    (¬(s.HasOther peer first ∧ first ∉ s.pending ∧ s.pending.length < pendingInventoryLimit) ∧
      requeueFirst peer s first = s) := by
  unfold requeueFirst
  split
  · next h => exact .inl ⟨h.1, h.2.2, h.2.1, rfl⟩
  · next h => exact .inr ⟨fun h' => h ⟨h'.1, h'.2.2, h'.2.1⟩, rfl⟩

/-- What `requeueFirst` leaves alone. -/
theorem requeueAll_frame (peer : Peer) (listing : List InventoryKey) :
    ∀ s : GossipService Peer,
      let t := listing.foldl (requeueFirst peer) s
      t.providers = s.providers ∧ t.peers = s.peers ∧ t.cacheOf = s.cacheOf ∧
        s.pending ⊆ t.pending := by
  induction listing with
  | nil => exact fun _ => ⟨rfl, rfl, rfl, List.Subset.refl _⟩
  | cons first listing ih =>
    intro s
    obtain ⟨hp, hpee, hc, hpe⟩ := ih (requeueFirst peer s first)
    rcases requeueFirst_cases peer s first with ⟨_, _, _, heq⟩ | ⟨_, heq⟩
    · rw [heq] at hp hpee hc hpe
      rw [List.foldl_cons, heq]
      exact ⟨hp, hpee, hc, fun k hk => hpe (List.mem_cons_of_mem _ hk)⟩
    · rw [heq] at hp hpee hc hpe
      rw [List.foldl_cons, heq]
      exact ⟨hp, hpee, hc, hpe⟩

/-- With room for the requests of a peer, those that somebody else can serve wait again. -/
theorem mem_pending_requeueAll {peer : Peer} {listing : List InventoryKey} :
    ∀ {s : GossipService Peer},
      s.pending.length + (s.requeued peer listing).length ≤ pendingInventoryLimit →
        key ∈ listing → s.HasOther peer key →
          key ∈ (listing.foldl (requeueFirst peer) s).pending := by
  induction listing with
  | nil => exact fun _ h => nomatch h
  | cons first listing ih =>
    intro s hr hm ho
    rw [List.foldl_cons]
    rcases requeueFirst_cases peer s first with ⟨hf, hn, hl, heq⟩ | ⟨hno, heq⟩
    · rw [heq]
      rcases List.mem_cons.mp hm with rfl | hm
      · exact (requeueAll_frame peer listing _).2.2.2 List.mem_cons_self
      · refine ih ?_ hm ho
        rw [requeued, List.filter_cons_of_pos (by simp [hf, hn])] at hr
        refine le_trans ?_ hr
        -- The filter that forgets one more key keeps no more than before.
        have hle : (requeued { s with pending := first :: s.pending } peer listing).length ≤
            (s.requeued peer listing).length := by
          refine (List.monotone_filter_right listing fun k hk => ?_).length_le
          rw [decide_eq_true_iff] at hk ⊢
          exact ⟨hk.1, fun h => hk.2 (List.mem_cons_of_mem _ h)⟩
        rw [List.length_cons, List.length_cons]
        unfold requeued at hle ⊢
        omega
    · rw [heq]
      rcases List.mem_cons.mp hm with rfl | hm
      · refine (requeueAll_frame peer listing s).2.2.2 ?_
        by_contra hn
        rw [requeued, List.filter_cons_of_pos (by simp [ho, hn]), List.length_cons] at hr
        exact hno ⟨ho, hn, by omega⟩
      · refine ih ((Nat.add_le_add_left ?_ _).trans hr) hm ho
        exact ((List.sublist_cons_self first listing).filter _).length_le

end Requests

end GossipService

/-! ### Runs -/

section Runs

variable {Peer : Type} [LinearOrder Peer]

/-- The calls that announce, ask for and deliver items, with the iteration orders of the hash
maps. -/
inductive GossipCall (Peer : Type) where
  | addPeer (peer : Peer) (syncComplete : Bool)
  | setSyncComplete (peer : Peer) (value : Bool)
  | receiveInventory (peer : Peer) (adv : Advertisement) (now : Int)
  | scheduleFetch (now : Int)
  | receivePayload (peer : Peer) (payload : Payload) (now : Int)
  | disconnect (peer : Peer) (listing : List InventoryKey)
  | expireRequests (now : Int) (listing : List (Peer × InventoryKey))

/-- The service with the time of the last call and the items it owes: they were accepted from an
announcement and not delivered since. -/
structure Announced (Peer : Type) where
  service : GossipService Peer
  owed : List InventoryKey
  clock : Int

namespace Announced

/-- Nothing is announced yet. -/
def start (limits : GossipLimits) (clock : Int) : Announced Peer :=
  ⟨.withLimits limits, [], clock⟩

/-- One call. -/
def step (a : Announced Peer) : GossipCall Peer → Announced Peer
  | .addPeer peer syncComplete => { a with service := a.service.addPeer peer syncComplete }
  | .setSyncComplete peer value => { a with service := a.service.setSyncComplete peer value }
  | .receiveInventory peer adv now =>
    match a.service.receiveInventory peer adv now with
    | (.ok accepted, s) => ⟨s, accepted ++ a.owed, now⟩
    | (.error _, s) => ⟨s, a.owed, now⟩
  | .scheduleFetch now => ⟨(a.service.scheduleFetch now).2, a.owed, now⟩
  | .receivePayload peer payload now =>
    match a.service.receivePayload peer payload now with
    | (.ok (), s) => ⟨s, a.owed.filter fun key => key ≠ payload.key, now⟩
    | (.error _, s) => ⟨s, a.owed, now⟩
  | .disconnect peer listing => { a with service := a.service.disconnect peer listing }
  | .expireRequests now listing => ⟨a.service.expireRequests now listing, a.owed, now⟩

def run (a : Announced Peer) (calls : List (GossipCall Peer)) : Announced Peer := calls.foldl step a

/-- The time does not go back, and the iteration orders are orders of the entries. -/
def Possible (a : Announced Peer) : GossipCall Peer → Prop
  | .receiveInventory _ _ now => a.clock ≤ now
  | .scheduleFetch now => a.clock ≤ now
  | .receivePayload _ _ now => a.clock ≤ now
  | .disconnect peer listing => a.service.ListsRequests peer listing
  | .expireRequests now listing => a.clock ≤ now ∧ (a.service.purge now).ListsStale now listing
  | _ => True

/-- A call forgets nothing that is owed: what the search of the queue passes over is asked for
somewhere, an answer that comes too late is to a request that is not the only trace of a key, and
the requests of a peer that leaves find room in the queue. -/
def Retains (a : Announced Peer) : GossipCall Peer → Prop
  | .scheduleFetch now =>
    ∀ key ∈ (a.service.purge now).passedOver, key ∈ a.owed → (a.service.purge now).Requested key
  | .receivePayload peer payload now =>
    payload.bytes.length ≤ maxFrameSize → payload.key ∈ a.owed →
      a.service.Provided now payload.key →
        ∀ at_, a.service.requestedAt peer payload.key = some at_ → advRequestTimeoutMs < age now at_ →
          payload.key ∈ a.service.pending ∨
            ∃ other ≠ peer, (a.service.requestedAt other payload.key).isSome
  | .disconnect peer listing =>
    a.service.pending.length + (a.service.requeued peer listing).length ≤ pendingInventoryLimit
  | _ => True

/-- A possible call that leaves fewer keys waiting than the limit, and forgets nothing. -/
structure Allows (a : Announced Peer) (c : GossipCall Peer) : Prop where
  possible : a.Possible c
  room : (a.step c).service.pending.length < pendingInventoryLimit
  retains : a.Retains c

/-- Each call of a run is possible and leaves fewer keys waiting than the limit. -/
def PossibleAll : Announced Peer → List (GossipCall Peer) → Prop
  | _, [] => True
  | a, c :: calls =>
    (a.Possible c ∧ (a.step c).service.pending.length < pendingInventoryLimit) ∧
      (a.step c).PossibleAll calls

/-- Each call of a run forgets nothing. -/
def RetainsAll : Announced Peer → List (GossipCall Peer) → Prop
  | _, [] => True
  | a, c :: calls => a.Retains c ∧ (a.step c).RetainsAll calls

/-- What is owed and provided by a connected peer waits or is asked for. -/
def NothingForgotten (a : Announced Peer) : Prop :=
  ∀ key ∈ a.owed, ∀ peer ∈ a.service.peers.keys, a.service.Unexpired a.clock key peer →
    a.service.Tracked key

/-- What is owed and provided waits or is asked for, and what is owed is not cached. -/
structure Remembers (a : Announced Peer) : Prop where
  tracked : ∀ key ∈ a.owed, a.service.Provided a.clock key → a.service.Tracked key
  fresh : ∀ key ∈ a.owed, a.service.contains key = false

section Steps

variable {a : Announced Peer} {now : Int}

/-- After the time has passed, what is still provided is still tracked. -/
theorem Remembers.tracked_purge (ha : a.Remembers) (hn : a.clock ≤ now) {key : InventoryKey}
    (hk : key ∈ a.owed) (h : (a.service.purge now).Provided now key) :
    (a.service.purge now).Tracked key := by
  have hp : a.service.Provided now key := by
    obtain ⟨peer, hpe⟩ := h
    exact ⟨peer, GossipService.unexpired_purge hpe⟩
  exact (ha.tracked key hk (hp.mono hn)).purge hp

theorem Remembers.fresh_purge (ha : a.Remembers) {key : InventoryKey} (hk : key ∈ a.owed) :
    (a.service.purge now).contains key = false :=
  GossipService.contains_eq_false_of_subset (GossipService.cacheOf_purge_subset _) (ha.fresh key hk)

theorem Remembers.addPeer (ha : a.Remembers) (peer : Peer) (syncComplete : Bool) :
    Remembers { a with service := a.service.addPeer peer syncComplete } := by
  have hg : a.service.Grows (a.service.addPeer peer syncComplete) := by
    apply GossipService.grows_putPeer
    rfl
  exact ⟨fun key hk h => hg.tracked (ha.tracked key hk h),
    fun key hk => (hg.contains key).trans (ha.fresh key hk)⟩

/-- An announcement owes what it accepts, and that waits. -/
theorem Remembers.receiveInventory (ha : a.Remembers) {peer : Peer} {adv : Advertisement}
    (h : a.Allows (.receiveInventory peer adv now)) :
    (a.step (.receiveInventory peer adv now)).Remembers := by
  have hn : a.clock ≤ now := h.possible
  have hr := h.room
  unfold step at hr ⊢
  dsimp only at hr ⊢
  obtain ⟨t, hg, hpr, ⟨e, heq⟩ | ⟨keys, heq⟩⟩ :=
    GossipService.receiveInventory_cases a.service peer adv now
  · rw [heq]
    refine ⟨fun key hk hp => hg.tracked (ha.tracked_purge hn hk ?_), fun key hk =>
      (hg.contains key).trans (ha.fresh_purge hk)⟩
    unfold GossipService.Provided GossipService.Unexpired GossipService.providersOf at hp ⊢
    rwa [← hpr]
  · rw [heq] at hr ⊢
    dsimp only at hr ⊢
    have han : GossipService.Grows t (GossipService.announce peer now keys t).2 :=
      GossipService.grows_announce peer keys t
    refine ⟨fun key hk hp => ?_, fun key hk => ?_⟩
    · rcases List.mem_append.mp hk with hk | hk
      · exact .inl (GossipService.accepted_announce hk).2
      · rcases GossipService.provided_of_announce hp with hm | ho
        -- A key that is announced again waits, whether anybody still provided it or not.
        · refine .inl (GossipService.mem_pending_announce hm ?_ hr)
          exact (hg.contains key).trans (ha.fresh_purge hk)
        · refine han.tracked (hg.tracked (ha.tracked_purge hn hk ?_))
          unfold GossipService.Provided GossipService.Unexpired GossipService.providersOf at ho ⊢
          rwa [← hpr]
    · rw [han.contains]
      rcases List.mem_append.mp hk with hk | hk
      · exact (GossipService.accepted_announce hk).1
      · exact (hg.contains key).trans (ha.fresh_purge hk)

/-- What the search does not pass over is asked for or waits. -/
theorem Remembers.scheduleFetch (ha : a.Remembers) (h : a.Allows (.scheduleFetch now)) :
    (a.step (.scheduleFetch now)).Remembers := by
  have hn : a.clock ≤ now := h.possible
  have hre := h.retains
  obtain ⟨hpr, hc⟩ :=
    @GossipService.providers_takePending _ _ now (a.service.purge now).pending
      (a.service.purge now)
  unfold step GossipService.scheduleFetch
  refine ⟨fun key hk hp => ?_, fun key hk => ?_⟩
  · have ht : (a.service.purge now).Tracked key := by
      refine ha.tracked_purge hn hk ?_
      unfold GossipService.Provided GossipService.Unexpired GossipService.providersOf at hp ⊢
      rwa [hpr] at hp
    rcases ht with hpe | hr
    · exact GossipService.tracked_takePending hpe fun hpa => hre key hpa hk
    · exact .inr (GossipService.requested_takePending _ hr)
  · have hf : (a.service.purge now).contains key = false := ha.fresh_purge hk
    refine Eq.trans ?_ hf
    unfold GossipService.contains
    dsimp only
    rw [hc]

/-- A payload settles its own key, and closes no other request. -/
theorem Remembers.receivePayload (ha : a.Remembers) {peer : Peer} {payload : Payload}
    (h : a.Allows (.receivePayload peer payload now)) :
    (a.step (.receivePayload peer payload now)).Remembers := by
  have hn : a.clock ≤ now := h.possible
  have hr := h.retains
  have hu : Remembers ⟨a.service, a.owed, now⟩ :=
    ⟨fun key hk hp => ha.tracked key hk (hp.mono hn), ha.fresh⟩
  unfold step GossipService.receivePayload
  dsimp only
  by_cases hl : maxFrameSize < payload.bytes.length
  · rw [if_pos hl]
    exact hu
  rw [if_neg hl]
  cases hat : a.service.requestedAt peer payload.key with
  | none => exact hu
  | some at_ =>
    dsimp only
    by_cases hla : advRequestTimeoutMs < age now at_
    · rw [if_pos hla]
      refine ⟨fun key hk hp => ?_, ha.fresh⟩
      have hp : a.service.Provided now key := hp
      refine GossipService.tracked_dropRequest (hu.tracked key hk hp) ?_
      rintro rfl
      exact hr (not_lt.mp hl) hk hp at_ hat hla
    · rw [if_neg hla]
      obtain ⟨hpe, hpee, hpr⟩ :=
        @GossipService.sameRequests_cache _ _ a.service now payload
      have ht : ∀ key ∈ a.owed, (a.service.cache payload now).2.Provided now key →
          (a.service.cache payload now).2.Tracked key := by
        intro key hk hp
        have hpu := ha.tracked_purge hn hk (by
          unfold GossipService.Provided GossipService.Unexpired GossipService.providersOf
            at hp ⊢
          rwa [hpr] at hp)
        unfold GossipService.Tracked GossipService.Requested GossipService.requestedAt at hpu ⊢
        rwa [hpe, hpee]
      have hf : ∀ key ∈ a.owed,
          ((a.service.cache payload now).1 = .ok () → key ≠ payload.key) →
            (a.service.cache payload now).2.contains key = false :=
        fun key hk hne => GossipService.contains_cache (ha.fresh key hk) hne
      cases hc : a.service.cache payload now with
      | mk result t =>
        rw [hc] at ht hf
        cases result with
        | error e => exact ⟨ht, fun key hk => hf key hk fun h => nomatch h⟩
        | ok u =>
          refine ⟨fun key hk hp => ?_, fun key hk => ?_⟩
          · obtain ⟨hk, hne⟩ := List.mem_filter.mp hk
            refine GossipService.tracked_dropRequest (ht key hk hp) fun h => ?_
            exact absurd h (of_decide_eq_true hne)
          · obtain ⟨hk, hne⟩ := List.mem_filter.mp hk
            exact hf key hk fun _ => of_decide_eq_true hne

/-- Requests that expire are put back. -/
theorem Remembers.expireRequests (ha : a.Remembers) {listing : List (Peer × InventoryKey)}
    (h : a.Allows (.expireRequests now listing)) :
    (a.step (.expireRequests now listing)).Remembers := by
  have hn : a.clock ≤ now := h.possible.1
  have hr := h.room
  obtain ⟨hpr, hc⟩ :=
    GossipService.providers_expireAll listing (a.service.purge now)
  unfold step GossipService.expireRequests at hr ⊢
  refine ⟨fun key hk hp => ?_, fun key hk => ?_⟩
  · have hpu : (a.service.purge now).Provided now key := by
      unfold GossipService.Provided GossipService.Unexpired GossipService.providersOf at hp ⊢
      rwa [hpr] at hp
    refine GossipService.tracked_expireAll (ha.tracked_purge hn hk hpu) ?_ hr
    obtain ⟨peer, hpe⟩ := hpu
    exact GossipService.Provided.mem_purge ⟨peer, GossipService.unexpired_purge hpe⟩
  · have hf : (a.service.purge now).contains key = false := ha.fresh_purge hk
    refine Eq.trans ?_ hf
    unfold GossipService.contains
    dsimp only
    rw [hc]

/-- What is provided after a peer left was provided by somebody else. -/
theorem provided_of_leaveProviders {s : GossipService Peer} {peer : Peer} {key : InventoryKey}
    (h : (s.leaveProviders peer).Provided now key) :
    s.Provided now key ∧ s.HasOther peer key ∧ key ∈ (s.leaveProviders peer).providers := by
  obtain ⟨q, at_, hat, ha⟩ := h
  have hm : q ∈ (s.providersOf key).erase peer := by
    rw [← GossipService.providersOf_leaveProviders]
    exact Finmap.mem_iff.mpr ⟨at_, hat⟩
  have hq := Finmap.mem_erase.mp hm
  rw [GossipService.providersOf_leaveProviders, Option.mem_def, Finmap.lookup_erase_ne hq.1] at hat
  refine ⟨⟨q, at_, hat, ha⟩, ?_, ?_⟩
  · refine Finset.card_ne_zero_of_mem (a := q) (Finset.mem_filter.mpr ⟨?_, hq.1⟩)
    exact Finmap.mem_keys.mpr hq.2
  · exact GossipService.mem_pruned (GossipService.erase_empty peer) hm

/-- The requests of a peer that leaves are put back. -/
theorem Remembers.disconnect (ha : a.Remembers) {peer : Peer} {listing : List InventoryKey}
    (h : a.Allows (.disconnect peer listing)) :
    (a.step (.disconnect peer listing)).Remembers := by
  have hl : a.service.ListsRequests peer listing := h.possible
  have hro : a.service.pending.length + (a.service.requeued peer listing).length ≤
      pendingInventoryLimit := h.retains
  unfold step GossipService.disconnect
  dsimp only
  split
  · let left : GossipService Peer := { a.service with peers := a.service.peers.erase peer }
    obtain ⟨hpr, hpee, hc, hpe⟩ :=
      GossipService.requeueAll_frame peer listing left
    refine ⟨fun key hk hp => ?_, fun key hk => ?_⟩
    · obtain ⟨hb, ho, hm⟩ := provided_of_leaveProviders hp
      unfold GossipService.Provided GossipService.Unexpired GossipService.providersOf at hb
      unfold GossipService.HasOther GossipService.providersOf at ho
      rw [hpr] at hb ho
      rcases ha.tracked key hk hb with hw | hr
      · exact .inl (List.mem_filter.mpr ⟨hpe hw, decide_eq_true hm⟩)
      · obtain ⟨q, hq⟩ := GossipService.requested_iff.mp hr
        by_cases hqp : q = peer
        -- The peer that leaves was asked for the key, so the key is put back.
        · refine .inl (List.mem_filter.mpr ⟨?_, decide_eq_true hm⟩)
          refine GossipService.mem_pending_requeueAll (s := left) hro ?_ ho
          exact (hl.2 key).mpr (hqp ▸ hq)
        · refine .inr (GossipService.requested_iff.mpr ⟨q, ?_⟩)
          unfold GossipService.requestedAt at hq ⊢
          unfold GossipService.leaveProviders
          dsimp only
          rwa [hpee, Finmap.lookup_erase_ne hqp]
    · refine Eq.trans ?_ (ha.fresh key hk)
      exact congrArg (fun caches => (caches key.kind).any fun row => decide (row.1 = key.hash)) hc
  · refine ⟨fun key hk hp => ?_, ha.fresh⟩
    obtain ⟨hb, -, hm⟩ := provided_of_leaveProviders hp
    refine (ha.tracked key hk hb).imp (fun hw => ?_) fun hr => hr
    exact List.mem_filter.mpr ⟨hw, decide_eq_true hm⟩

/-- One call that retains what it finds. -/
theorem Remembers.step (ha : a.Remembers) {c : GossipCall Peer} (h : a.Allows c) :
    (a.step c).Remembers := by
  cases c with
  | addPeer peer syncComplete => exact ha.addPeer peer syncComplete
  | setSyncComplete peer value => exact ha.addPeer peer value
  | receiveInventory peer adv now => exact ha.receiveInventory h
  | scheduleFetch now => exact ha.scheduleFetch h
  | receivePayload peer payload now => exact ha.receivePayload h
  | disconnect peer listing => exact ha.disconnect h
  | expireRequests now listing => exact ha.expireRequests h

end Steps

/-- A run of such calls. -/
theorem Remembers.run {calls : List (GossipCall Peer)} :
    ∀ {a : Announced Peer}, a.Remembers → a.PossibleAll calls → a.RetainsAll calls →
      (a.run calls).Remembers := by
  induction calls with
  | nil => exact fun ha _ _ => ha
  | cons c calls ih =>
    exact fun ha h hr => ih (ha.step ⟨h.1.1, h.1.2, hr.1⟩) h.2 hr.2

/-- **No announced item is forgotten.** In every run of calls, at times that do not go back, with
fewer keys waiting than the limit, none of which forgets a key: a key that was accepted from an
announcement, was not delivered since, and still has an entry of a connected peer in the provider
table that has not expired, waits to be asked for or is asked for at a connected peer. -/
theorem nothingForgotten (limits : GossipLimits) (clock : Int) (calls : List (GossipCall Peer))
    (h : (start limits clock).PossibleAll calls) (hretains : (start limits clock).RetainsAll calls) :
    ((start limits clock).run calls).NothingForgotten := by
  have hstart : (start limits clock : Announced Peer).Remembers :=
    ⟨fun _ hkey => (nomatch hkey), fun _ hkey => (nomatch hkey)⟩
  intro key hkey peer _ hpeer
  exact (hstart.run h hretains).tracked key hkey ⟨peer, hpeer⟩

/-- The item that is announced in the runs below. -/
def item : Hash32 := ⟨List.replicate 32 1, by simp⟩

/-- An item is announced by two peers and asked for at one, which then leaves. -/
def asked : List (GossipCall Nat) :=
  [.addPeer 0 true, .addPeer 1 true, .receiveInventory 0 ⟨.transaction, [item]⟩ 0,
    .receiveInventory 1 ⟨.transaction, [item]⟩ 5, .scheduleFetch 10,
    .disconnect 0 [⟨item, .transaction⟩]]

theorem nothingForgotten_asked : ((start .default 0).run asked).NothingForgotten := by
  refine nothingForgotten .default 0 asked
    ⟨⟨trivial, ?_⟩, ⟨trivial, ?_⟩, ⟨le_rfl, ?_⟩, ⟨(by decide : (0 : Int) ≤ 5), ?_⟩,
      ⟨(by decide : (5 : Int) ≤ 10), ?_⟩, ⟨⟨List.nodup_singleton _, fun key => ?_⟩, ?_⟩, trivial⟩
    ⟨trivial, trivial, trivial, trivial, fun key hkey => ?_, ?_, trivial⟩
  case refine_6 =>
    have hkeys : ((((start .default 0).run (asked.take 5)).service.peerOrNew 0).requested.keys :
        Finset InventoryKey) = {⟨item, .transaction⟩} := by decide
    rw [List.mem_singleton, GossipService.isSome_requestedAt, ← Finset.mem_singleton, ← hkeys]
    rfl
  case refine_8 =>
    have hnone : (((start .default 0).run (asked.take 4)).service.purge 10).passedOver = [] := by
      decide
    exact absurd (hnone ▸ hkey) List.not_mem_nil
  case refine_9 =>
    have hroom : ((start .default 0).run (asked.take 5)).service.pending.length +
        (((start .default 0).run (asked.take 5)).service.requeued 0 [⟨item, .transaction⟩]).length ≤
          pendingInventoryLimit := by decide
    exact hroom
  all_goals decide

/-- A peer announces an item and is behind for a while, in which the queue is searched. -/
def briefly : List (GossipCall Nat) :=
  [.addPeer 0 true, .receiveInventory 0 ⟨.transaction, [item]⟩ 0, .setSyncComplete 0 false,
    .scheduleFetch 10, .setSyncComplete 0 true]

/-- Each call is possible and the queue nearly empty, yet the item is forgotten. -/
theorem not_nothingForgotten_briefly :
    (start .default 0).PossibleAll briefly ∧
      ¬((start .default 0).run briefly).NothingForgotten := by
  refine ⟨⟨⟨trivial, ?_⟩, ⟨le_rfl, ?_⟩, ⟨trivial, ?_⟩, ⟨(by decide : (0 : Int) ≤ 10), ?_⟩,
    ⟨trivial, ?_⟩, trivial⟩, ?_⟩
  case refine_6 =>
    unfold NothingForgotten
    decide
  all_goals decide

end Announced

end Runs

end RustTron.Network
