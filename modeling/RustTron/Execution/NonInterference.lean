import RustTron.Execution.Requests

/-!
# Broadcast transactions and blocks

The pool and the block path share one transaction cache. A transaction that was broadcast is in it,
and a block with that transaction is then refused as if it held a duplicate. Two runs of one block
are compared here: from a full node, and from the same node after an accepted broadcast.

## Main definitions

* `applies`: what `accept_network_block` commits in the step that applies a block
* `Shadows`: the order of the cache with the broadcast transaction, against that without
* `Twin`: two block managers inside the session of the same block

## Main results

* `broadcastRaw_accepted`: the block manager after an accepted broadcast
* `applyTransactions_follows`: the run with the broadcast follows that without it
* `applyTransactions_fails`: unless the transaction is still in the cache when its turn comes
-/

namespace RustTron.Execution

open State

variable {H ε : Type} {env : Environment H}

namespace TransactionCache

/-! ## The order with a broadcast transaction -/

section Shadows

variable {entry : Hash32 × Int} {maximum k : Nat} {dead : Prop} {xs ys : List (Hash32 × Int)}

/-- `ys` is what the order `xs` would be had `entry` come before the last `k` entries: it holds
`entry` until that is dead or crowded out. -/
def Shadows (entry : Hash32 × Int) (maximum k : Nat) (dead : Prop)
    (xs ys : List (Hash32 × Int)) : Prop :=
  (dead ∨ maximum ≤ k → ys <:+ xs) ∧
    (¬ dead → k < maximum →
      ∃ pre post, ys = pre ++ entry :: post ∧ pre ++ post <:+ xs ∧ post.length = k)

theorem keepLast_suffix_keepLast {α : Type} {maximum : Nat} {xs ys : List α} (h : ys <:+ xs) :
    keepLast maximum ys <:+ keepLast maximum xs := by
  refine List.suffix_of_suffix_length_le ((keepLast_suffix _ ys).trans h) (keepLast_suffix _ xs) ?_
  rw [length_keepLast, length_keepLast]
  exact min_le_min_right _ h.length_le

theorem Shadows.push (h : Shadows entry maximum k dead xs ys) (hys : ys.length ≤ maximum)
    (e : Hash32 × Int) :
    Shadows entry maximum (k + 1) dead (keepLast maximum (xs ++ [e])) (keepLast maximum (ys ++ [e])) := by
  refine ⟨fun hg => ?_, fun hl hk => ?_⟩
  · by_cases hb : dead ∨ maximum ≤ k
    · exact keepLast_suffix_keepLast (List.suffix_append_self_iff.mpr (h.1 hb))
    · -- the entry is the oldest of a full cache, and leaves it now
      rw [not_or, not_le] at hb
      obtain ⟨pre, post, rfl, hs, hp⟩ := h.2 hb.1 hb.2
      have hf : maximum = post.length + 1 := by
        have := hg.resolve_left hb.1
        omega
      have hpr : pre = [] := by
        rw [List.length_append, List.length_cons] at hys
        exact List.length_eq_zero_iff.mp (by omega)
      subst hpr
      have hke : keepLast maximum ([] ++ entry :: post ++ [e]) = post ++ [e] := by
        simp [keepLast, hf]
      rw [hke]
      refine List.suffix_of_suffix_length_le
        (List.suffix_append_self_iff.mpr hs) (keepLast_suffix _ _) ?_
      have := hs.length_le
      rw [length_keepLast]
      simp only [List.nil_append, List.length_append, List.length_singleton] at this ⊢
      omega
  · obtain ⟨pre, post, rfl, hs, hp⟩ := h.2 hl (by omega)
    set d := (pre ++ entry :: post ++ [e]).length - maximum with hd
    have hle : d ≤ pre.length := by
      simp only [List.length_append, List.length_cons, List.length_nil] at hd
      omega
    refine ⟨pre.drop d, post ++ [e], ?_, ?_, by simp [hp]⟩
    · rw [keepLast, ← hd, List.append_assoc, List.drop_append_of_le_length hle, List.cons_append]
    · have hb : pre.drop d ++ (post ++ [e]) <:+ xs ++ [e] := by
        rw [← List.append_assoc, List.suffix_append_self_iff, ← List.drop_append_of_le_length hle]
        exact (List.drop_suffix _ _).trans hs
      refine List.suffix_of_suffix_length_le hb (keepLast_suffix _ _) ?_
      have := hs.length_le
      rw [length_keepLast]
      simp only [List.length_append, List.length_cons, List.length_nil, List.length_drop] at this hd ⊢
      omega

theorem Shadows.not_mem (h : Shadows entry maximum k dead xs ys) {id : Hash32}
    (hid : id ∉ xs.map Prod.fst) (ho : id = entry.1 → dead ∨ maximum ≤ k) :
    id ∉ ys.map Prod.fst := by
  by_cases hg : dead ∨ maximum ≤ k
  · exact fun hm => hid (List.map_subset Prod.fst (h.1 hg).subset hm)
  · have hne : id ≠ entry.1 := fun heq => hg (ho heq)
    rw [not_or, not_le] at hg
    obtain ⟨pre, post, rfl, hs, -⟩ := h.2 hg.1 hg.2
    intro hm
    refine hid (List.map_subset Prod.fst hs.subset ?_)
    simp only [List.map_append, List.map_cons, List.mem_append, List.mem_cons] at hm ⊢
    rcases hm with hm | hm | hm
    · exact .inl hm
    · exact absurd hm hne
    · exact .inr hm

end Shadows

/-! ## The two caches -/

section Caches

variable {config : CacheConfig} {entry : Hash32 × Int} {number now : Int} {k : Nat}
  {c c' : TransactionCache} {id : Hash32}

/-- An entry is no longer alive at `now`. -/
def Dead (config : CacheConfig) (entry : Hash32 × Int) (now : Int) : Prop :=
  entry.2 + config.ttlMillis ≤ now

/-- `c'` is what the cache `c` would be had `entry` come before its last `k` entries, as a block
with this number sees it at `now`. -/
structure Shadowed (config : CacheConfig) (entry : Hash32 × Int) (number now : Int) (k : Nat)
    (c c' : TransactionCache) : Prop where
  left : c.Valid
  right : c'.Valid
  config_left : c.config = config
  config_right : c'.config = config
  time : c'.InTime now
  block : c'.InOrder number
  order : Shadows entry config.maximumEntries k (Dead config entry now)
    (live config.ttlMillis now c.order) (live config.ttlMillis now c'.order)

theorem Shadowed.expired (h : Shadowed config entry number now k c c') (ht : c.InTime now) :
    Shadowed config entry number now k (c.expired now) (c'.expired now) where
  left := h.left.expired ht
  right := h.right.expired h.time
  config_left := h.config_left
  config_right := h.config_right
  time := fun _ hp => (Option.some.inj hp).ge
  block := h.block
  order := by
    have := h.order
    simp only [TransactionCache.expired, withOrder, h.config_left, h.config_right, live_live]
    exact this

theorem Shadowed.absent (h : Shadowed config entry number now k c c') (hid : c.Absent id now)
    (ho : id = entry.1 → Dead config entry now ∨ config.maximumEntries ≤ k) :
    c'.Absent id now := by
  obtain ⟨-, hid⟩ := hid
  rw [h.config_left] at hid
  refine ⟨h.time, ?_⟩
  rw [h.config_right]
  exact h.order.not_mem hid ho

theorem live_inserted {ttl : Int} (ht : 0 < ttl) (maximum : Nat) (order : List (Hash32 × Int)) :
    live ttl now (keepLast maximum (live ttl now order ++ [(id, now)])) =
      keepLast maximum (live ttl now order ++ [(id, now)]) := by
  rw [live, List.filter_eq_self]
  intro e he
  rcases List.mem_append.mp ((keepLast_suffix _ _).subset he) with he | he
  · exact (List.mem_filter.mp he).2
  · rw [List.mem_singleton.mp he]
    simpa using ht

theorem Shadowed.inserted (h : Shadowed config entry number now k c c') (hid : c.Absent id now)
    (hi' : c'.Absent id now) :
    Shadowed config entry number now (k + 1) (c.inserted id number now) (c'.inserted id number now) where
  left := h.left.inserted hid.1 hid.2
  right := h.right.inserted hi'.1 hi'.2
  config_left := h.config_left
  config_right := h.config_right
  time := fun _ hp => (Option.some.inj hp).ge
  block := fun _ hp => (Option.some.inj hp).ge
  order := by
    have hl : (live config.ttlMillis now c'.order).length ≤ config.maximumEntries := by
      rw [← h.config_right]
      exact (live_sublist _ _ _).length_le.trans h.right.capacity
    have ht : 0 < config.ttlMillis := by
      rw [← h.config_left]
      exact h.left.ttl
    have := h.order.push hl (id, now)
    simp only [TransactionCache.inserted, withOrder, h.config_left, h.config_right,
      live_inserted ht]
    exact this

theorem shadows_inserted {ttl : Int} {maximum : Nat} {order : List (Hash32 × Int)}
    (hm : 0 < maximum) (hn : entry.2 ≤ now) :
    Shadows entry maximum 0 (entry.2 + ttl ≤ now) (live ttl now order)
      (live ttl now (keepLast maximum (live ttl entry.2 order ++ [entry]))) := by
  have hl : live ttl now (live ttl entry.2 order) = live ttl now order := by
    rw [live, live, live, List.filter_filter]
    refine List.filter_congr fun e _ => ?_
    simp only [Bool.and_eq_left_iff_imp, decide_eq_true_eq]
    omega
  obtain ⟨d, hk⟩ : ∃ d, keepLast maximum (live ttl entry.2 order ++ [entry]) =
      (live ttl entry.2 order).drop d ++ [entry] := by
    refine ⟨(live ttl entry.2 order ++ [entry]).length - maximum, ?_⟩
    rw [keepLast, List.drop_append_of_le_length]
    rw [List.length_append, List.length_singleton]
    omega
  have hsu : live ttl now ((live ttl entry.2 order).drop d) <:+ live ttl now order := by
    rw [← hl]
    exact (List.drop_suffix d _).filter _
  have hs : live ttl now ((live ttl entry.2 order).drop d ++ [entry]) =
      live ttl now ((live ttl entry.2 order).drop d) ++ live ttl now [entry] :=
    List.filter_append _ _
  rw [hk, hs]
  refine ⟨fun hg => ?_, fun hl _ => ?_⟩
  · have hd : live ttl now [entry] = [] := by
      have := hg.resolve_right (by omega)
      simp only [live, List.filter_eq_nil_iff, List.mem_singleton, decide_eq_true_eq, forall_eq]
      omega
    rwa [hd, List.append_nil]
  · have he : live ttl now [entry] = [entry] := by
      simp only [live, List.filter_eq_self, List.mem_singleton, decide_eq_true_eq, forall_eq]
      omega
    exact ⟨_, [], by rw [he], by rwa [List.append_nil], rfl⟩

theorem Shadowed.of_broadcast (h : c.Valid) {head : Int} (hid : c.Absent entry.1 entry.2)
    (hno : entry.2 ≤ now) (hn : head ≤ number) :
    Shadowed c.config entry number now 0 c (c.inserted entry.1 head entry.2) where
  left := h
  right := h.inserted hid.1 hid.2
  config_left := rfl
  config_right := rfl
  time := fun _ hp => (Option.some.inj hp).ge.trans hno
  block := fun _ hp => (Option.some.inj hp).ge.trans hn
  order := shadows_inserted h.maximum hno

end Caches

end TransactionCache

open TransactionCache (Shadowed)

/-! ## Two runs of one block -/

/-- Two managers inside the sessions `id` and `id'` of the same block, over `s` and `s'`: they have
written the same, and their caches are related by `C`. -/
structure Twin (s s' : Sessions) (id id' : Nat) (C : TransactionCache → TransactionCache → Prop)
    (b b' : BlockManager H) : Prop where
  sessions : ∃ values, b.sessions = s.withTop id values ∧ b'.sessions = s'.withTop id' values
  khaos : b'.khaos = b.khaos
  hooks : b'.hooks = b.hooks
  cache : C b.cache b'.cache

section Twins

variable {s s' : Sessions} {id id' : Nat} {C C' : TransactionCache → TransactionCache → Prop}
  {b b' : BlockManager H}

theorem Twin.mono (h : Twin s s' id id' C b b') (hc : C' b.cache b'.cache) :
    Twin s s' id id' C' b b' := ⟨h.sessions, h.khaos, h.hooks, hc⟩

theorem Twin.rows_eq (h : Twin s s' id id' C b b') (hi : s'.image = s.image) :
    Session.rows (some id') b'.sessions = Session.rows (some id) b.sessions := by
  obtain ⟨values, hb, hb'⟩ := h.sessions
  rw [hb, hb', Sessions.rows_withTop, Sessions.rows_withTop, hi]

theorem Twin.view_eq (h : Twin s s' id id' C b b') (hi : s'.image = s.image)
    (hs : Opened s id) (hs' : Opened s' id') :
    Session.view (some id') b'.sessions = Session.view (some id) b.sessions := by
  obtain ⟨values, hb, hb'⟩ := h.sessions
  rw [hb, hb', Sessions.view_withTop hs.tidy hs.fresh hs.taken,
    Sessions.view_withTop hs'.tidy hs'.fresh hs'.taken, hi]

theorem mutateAll_follows (f : SessionError → ε) (writes : Writes) :
    Prog.Follows (Twin (H := H) s s' id id' C) (onSessions f (Session.mutateAll (some id) writes))
      (onSessions f (Session.mutateAll (some id') writes)) fun _ => Twin s s' id id' C := by
  intro b b' h _ b₁ hru
  obtain ⟨values, hb, hb'⟩ := h.sessions
  have hl : Session.mutateAll (some id) writes b.sessions = _ :=
    (congrArg _ hb).trans (Sessions.mutateAll_withTop writes)
  have hr : Session.mutateAll (some id') writes b'.sessions = _ :=
    (congrArg _ hb').trans (Sessions.mutateAll_withTop writes)
  rw [onSessions_of_ok hl] at hru
  cases hru
  exact ⟨_, onSessions_of_ok hr, ⟨_, rfl, rfl⟩, h.khaos, h.hooks, h.cache⟩

theorem put_follows (f : SessionError → ε) (store : StoreKind) (key value : Bytes) :
    Prog.Follows (Twin (H := H) s s' id id' C) (onSessions f (Session.put (some id) store key value))
      (onSessions f (Session.put (some id') store key value)) fun _ => Twin s s' id id' C := by
  intro b b' h _ b₁ hru
  obtain ⟨values, hb, hb'⟩ := h.sessions
  have hl : Session.put (some id) store key value b.sessions = _ :=
    (congrArg _ hb).trans (Sessions.mutate_withTop ⟨store, key⟩ (.put value))
  have hr : Session.put (some id') store key value b'.sessions = _ :=
    (congrArg _ hb').trans (Sessions.mutate_withTop ⟨store, key⟩ (.put value))
  rw [onSessions_of_ok hl] at hru
  cases hru
  exact ⟨_, onSessions_of_ok hr, ⟨_, rfl, rfl⟩, h.khaos, h.hooks, h.cache⟩

theorem callHook_follows (hi : s'.image = s.image)
    (hook : H → Image → Except String Writes × H) :
    Prog.Follows (Twin s s' id id' C) (callHook (some id) hook) (callHook (some id') hook)
      fun _ => Twin s s' id id' C := by
  refine .get_bind fun b b' h => ?_
  rw [h.rows_eq hi, h.hooks]
  refine .bind (S := fun _ => Twin s s' id id' C)
    (.modify fun b₁ b₁' h₁ => ⟨h₁.sessions, h₁.khaos, rfl, h₁.cache⟩) fun _ => ?_
  exact .ofExcept_bind fun writes _ => mutateAll_follows _ writes

variable {config : CacheConfig} {entry : Hash32 × Int} {number now : Int} {k : Nat}

/-- The two caches, neither of which has the id. -/
def BothAbsent (config : CacheConfig) (entry : Hash32 × Int) (number now : Int) (k : Nat)
    (tx : Hash32) (c c' : TransactionCache) : Prop :=
  Shadowed config entry number now k c c' ∧ c.Absent tx now ∧ c'.Absent tx now

/-- An id that is not in the one cache is not in the other, unless it is that of the entry. -/
theorem containsRecent_follows {α : Type} {Q : α → BlockManager H → BlockManager H → Prop}
    {x y : Prog (BlockManager H) ε α} {e : ε} {z z' : PUnit → Prog (BlockManager H) ε α}
    (f : CacheError → ε) {tx : Hash32}
    (ho : tx = entry.1 → TransactionCache.Dead config entry now ∨ config.maximumEntries ≤ k)
    (hres : Prog.Follows (Twin s s' id id' (BothAbsent config entry number now k tx)) x y Q) :
    Prog.Follows (Twin s s' id id' (Shadowed config entry number now k))
      (onCache f (TransactionCache.containsRecent tx now) >>= fun found =>
        if found = true then throw e >>= z else x)
      (onCache f (TransactionCache.containsRecent tx now) >>= fun found =>
        if found = true then throw e >>= z' else y) Q := by
  intro b b' h a b₁ hr
  by_cases ht : b.cache.InTime now
  · have hl : TransactionCache.containsRecent tx now b.cache = _ :=
      TransactionCache.containsRecent_eq h.cache.left ht
    have hri : TransactionCache.containsRecent tx now b'.cache = _ :=
      TransactionCache.containsRecent_eq h.cache.right h.cache.time
    rw [onCache, Prog.bind_of_ok (Prog.zoom_of_ok hl)] at hr
    by_cases hf : tx ∈ (TransactionCache.live b.cache.config.ttlMillis now
        b.cache.order).map Prod.fst
    · rw [if_pos (by simpa using hf)] at hr
      cases hr
    · have ha' := h.cache.absent ⟨ht, hf⟩ ho
      have hs := h.cache.expired ht
      rw [if_neg (by simpa using hf)] at hr
      obtain ⟨b₁', hr', hQ⟩ := hres { b with cache := b.cache.expired now }
        { b' with cache := b'.cache.expired now }
        ⟨h.sessions, h.khaos, h.hooks, hs,
          TransactionCache.Absent.expired ⟨ht, hf⟩,
          TransactionCache.Absent.expired ha'⟩ a b₁ hr
      refine ⟨b₁', ?_, hQ⟩
      rw [onCache, Prog.bind_of_ok (Prog.zoom_of_ok hri), if_neg (by simpa using ha'.2)]
      exact hr'
  · obtain ⟨e', hre⟩ : ∃ e', TransactionCache.containsRecent tx now b.cache = (.error e', _) :=
      TransactionCache.containsRecent_of_not_inTime ht
    rw [onCache, Prog.bind_of_error (Prog.zoom_of_error hre)] at hr
    cases hr

/-- **One transaction** of the block, in both runs. -/
theorem processInSession_follows (hi : s'.image = s.image) (tx : RawWireTransaction)
    {context : ProcessContext} (hn : context.now = now)
    (ho : env.transactionId tx = entry.1 →
      TransactionCache.Dead config entry now ∨ config.maximumEntries ≤ k) :
    Prog.Follows (Twin s s' id id' (Shadowed config entry number now k))
      (processInSession env (some id) tx context) (processInSession env (some id') tx context)
      fun output => Twin s s' id id'
        (BothAbsent config entry number now k output.transactionId) := by
  subst hn
  refine .get_bind fun b b' h => ?_
  rw [h.rows_eq hi]
  refine .ofExcept_bind fun _ _ => ?_
  refine containsRecent_follows _ ho (.get_bind fun b b' h => ?_)
  rw [h.rows_eq hi]
  refine .ite (fun _ => .throw_bind) fun _ => .ofExcept_bind fun executed _ => ?_
  obtain ⟨writes, transaction, info⟩ := executed
  refine .bind (mutateAll_follows _ _) fun _ => .bind (put_follows _ _ _ _) fun _ => ?_
  exact .pure fun _ _ h => h

theorem insert_follows (f : CacheError → ε) (tx : Hash32) :
    Prog.Follows (Twin (H := H) s s' id id' (BothAbsent config entry number now k tx))
      (onCache f (TransactionCache.insert tx number now))
      (onCache f (TransactionCache.insert tx number now))
      fun _ => Twin s s' id id' (Shadowed config entry number now (k + 1)) := by
  intro b b' h _ b₁ hru
  obtain ⟨hs, hl, hr⟩ := h.cache
  by_cases hb : b.cache.InOrder number
  · have hi := TransactionCache.insert_eq hs.left hl.1 hb hl.2
    have hi' := TransactionCache.insert_eq hs.right hr.1 hs.block hr.2
    rw [onCache, Prog.zoom_of_ok hi] at hru
    cases hru
    exact ⟨_, Prog.zoom_of_ok hi', h.sessions, h.khaos, h.hooks,
      hs.inserted hl hr⟩
  · obtain ⟨e, hre⟩ : ∃ e, TransactionCache.insert tx number now b.cache = (.error e, _) :=
      TransactionCache.insert_of_not_inOrder hb
    rw [onCache, Prog.zoom_of_error hre] at hru
    cases hru

theorem Twin.processedTransaction_eq (h : Twin s s' id id' C b b') (hi : s'.image = s.image)
    (tx : RawWireTransaction) (context : ProcessContext) :
    processedTransaction env (some id') tx context b' =
      processedTransaction env (some id) tx context b := by
  rw [processedTransaction, processedTransaction, h.rows_eq hi]

/-- **The transactions of the block**, in both runs: the index is also the number of entries that
came after the broadcast. -/
theorem applyTransactions_follows (hi : s'.image = s.image) {raw : RawHeader}
    (hn : raw.number = number) (index : Nat)
    (txs : List (Bytes × Transaction × Option RawWireTransaction))
    (ho : ∀ i e tx, txs[i]? = some e → decodedTransaction env e.1 e.2.2 = .ok tx →
      env.transactionId tx = entry.1 →
        TransactionCache.Dead config entry now ∨ config.maximumEntries ≤ index + i) :
    Prog.Follows (Twin s s' id id' (Shadowed config entry number now index))
      (applyTransactions env (some id) raw now index txs)
      (applyTransactions env (some id') raw now index txs)
      fun _ => Twin s s' id id' (Shadowed config entry number now (index + txs.length)) := by
  induction txs generalizing index with
  | nil => exact .pure fun _ _ h => h
  | cons e rest ih =>
    obtain ⟨bytes, message, decoded⟩ := e
    refine .ofExcept_bind fun tx htx => .get_bind fun b b' h => ?_
    rw [h.processedTransaction_eq hi]
    refine .bind (.mapError (processInSession_follows hi tx rfl (ho 0 _ tx rfl htx)))
      fun output => .ite (fun _ => .throw_bind) fun _ => ?_
    subst hn
    refine .bind (insert_follows _ _) fun _ => .bind (put_follows _ _ _ _) fun _ => ?_
    refine .bind (ih (index + 1) fun i e tx he htx ht => ?_) fun result => ?_
    · have := ho (i + 1) e tx he htx ht
      rwa [Nat.add_comm i 1, ← Nat.add_assoc] at this
    · obtain ⟨outputs, left⟩ := result
      rw [List.length_cons, Nat.add_comm rest.length, ← Nat.add_assoc]
      exact .pure fun _ _ h => h

theorem applyIn_follows (hi : s'.image = s.image) (hs : Opened s id) (hs' : Opened s' id')
    (block : RawBlock) {raw : RawHeader} (hn : raw.number = number)
    (ho : ∀ i e tx, block.entries[i]? = some e → decodedTransaction env e.1 e.2.2 = .ok tx →
      env.transactionId tx = entry.1 →
        TransactionCache.Dead config entry now ∨ config.maximumEntries ≤ i) :
    Prog.Follows (Twin s s' id id' (Shadowed config entry number now 0))
      (applyIn env (some id) block now raw) (applyIn env (some id') block now raw)
      fun _ => Twin s s' id id' fun c c' => c.Valid ∧ c'.Valid := by
  refine .bind (applyTransactions_follows hi hn 0 block.entries fun i e tx he htx ht => ?_)
    fun result => ?_
  · rw [Nat.zero_add]
    exact ho i e tx he htx ht
  have hd {α : Type} {a : α} : Prog.Follows (ε := BlockApplyError)
      (Twin (H := H) s s' id id' (Shadowed config entry number now (0 + block.entries.length)))
      (pure a) (pure a : BlockM H α) fun _ => Twin s s' id id' fun c c' => c.Valid ∧ c'.Valid :=
    .pure fun _ _ h => h.mono ⟨h.cache.left, h.cache.right⟩
  refine .ite (fun _ => .throw_bind) fun _ => .ite (fun _ => .get_bind fun b b' h => ?_) fun _ => hd
  rw [h.view_eq hi hs hs']
  exact .ofExcept_bind fun root _ => .ite (fun _ => .throw_bind) fun _ => hd

/-- **The body of the block**, in both runs. -/
theorem blockBody_follows (hi : s'.image = s.image) (hs : Opened s id) (hs' : Opened s' id')
    (block : RawBlock) (bid : BlockId) {raw : RawHeader} (hn : raw.number = number)
    (ho : ∀ i e tx, block.entries[i]? = some e → decodedTransaction env e.1 e.2.2 = .ok tx →
      env.transactionId tx = entry.1 →
        TransactionCache.Dead config entry now ∨ config.maximumEntries ≤ i) :
    Prog.Follows (Twin s s' id id' (Shadowed config entry number now 0))
      (blockBody env (some id) block bid now raw) (blockBody env (some id') block bid now raw)
      fun _ => Twin s s' id id' fun c c' => c.Valid ∧ c'.Valid := by
  refine .bind (applyIn_follows hi hs hs' block hn ho) fun result => ?_
  obtain ⟨outputs, left⟩ := result
  refine .bind (callHook_follows hi _) fun _ => .bind (callHook_follows hi _) fun _ =>
    .bind (callHook_follows hi _) fun _ => .bind (callHook_follows hi _) fun _ =>
    .bind (callHook_follows hi _) fun _ => ?_
  exact .bind (mutateAll_follows _ _) fun _ => .bind (callHook_follows hi _) fun _ =>
    .pure fun _ _ h => h

end Twins

/-! ## Blocks that are refused -/

section Refused

variable {s : Sessions} {id k : Nat} {kh : KhaosDatabase ManagedBlock} {config : CacheConfig}
  {entry : Hash32 × Int} {now : Int}

theorem processInSession_refused {session : Session} {tx : RawWireTransaction}
    {context : ProcessContext} {b : BlockManager H}
    (h : match TransactionCache.containsRecent (env.transactionId tx) context.now b.cache with
      | (.ok found, _) => found = true
      | (.error _, _) => True) (output : ProcessOutput) (b' : BlockManager H) :
    processInSession env session tx context b ≠ (.ok output, b') := by
  intro hr
  rw [processInSession, Prog.bind_of_ok (Prog.get_run b)] at hr
  rcases ha : (env.admitTransaction tx (session.rows b.sessions) context).1 with e | _ <;>
    rw [ha] at hr
  · cases hr
  rw [Prog.bind_of_ok (Prog.ofExcept_ok_run _ _ b)] at hr
  dsimp only at hr
  rcases hf : TransactionCache.containsRecent (env.transactionId tx) context.now b.cache with
    ⟨e | found, c⟩ <;> rw [hf] at h
  · rw [onCache, Prog.bind_of_error (Prog.zoom_of_error hf)] at hr
    cases hr
  · rw [onCache, Prog.bind_of_ok (Prog.zoom_of_ok hf), if_pos h] at hr
    cases hr

theorem applyTransactions_cons_refused {session : Session} {raw : RawHeader} {index : Nat}
    {first : Bytes × Transaction × Option RawWireTransaction}
    {rest : List (Bytes × Transaction × Option RawWireTransaction)} {b : BlockManager H}
    (h : ∀ tx, decodedTransaction env first.1 first.2.2 = .ok tx →
      match TransactionCache.containsRecent (env.transactionId tx) now b.cache with
      | (.ok found, _) => found = true
      | (.error _, _) => True)
    (result : List ProcessOutput × List RawWireTransaction) (b' : BlockManager H) :
    applyTransactions env session raw now index (first :: rest) b ≠ (.ok result, b') := by
  intro hr
  obtain ⟨bytes, message, decoded⟩ := first
  rw [applyTransactions] at hr
  rcases htx : decodedTransaction env bytes decoded with e | tx <;> rw [htx] at hr
  · cases hr
  rw [Prog.bind_of_ok (Prog.ofExcept_ok_run _ tx b), Prog.bind_of_ok (Prog.get_run b),
    Prog.bind_run] at hr
  rcases hp : processInSession env session tx
    (.at .block raw now (message.ret.head?.map (·.contractRet))) b with ⟨e | output, b₁⟩
  · rw [Prog.mapError_of_error hp] at hr
    cases hr
  · exact processInSession_refused (h tx htx) output b₁ hp

/-- The entry is alive at `now`, with `k` entries after it. -/
structure TransactionCache.Present (config : CacheConfig) (entry : Hash32 × Int) (now : Int) (k : Nat)
    (c : TransactionCache) : Prop where
  valid : c.Valid
  config_eq : c.config = config
  time : c.InTime now
  order : ∃ xs, TransactionCache.Shadows entry config.maximumEntries k False xs
    (TransactionCache.live config.ttlMillis now c.order)

open TransactionCache (Present)

theorem TransactionCache.Present.mem {c : TransactionCache} (h : Present config entry now k c)
    (hk : k < config.maximumEntries) :
    entry.1 ∈ (TransactionCache.live c.config.ttlMillis now c.order).map Prod.fst := by
  obtain ⟨xs, hs⟩ := h.order
  obtain ⟨pre, post, hl, -, -⟩ := hs.2 not_false hk
  rw [h.config_eq, hl]
  simp

theorem TransactionCache.Present.inserted {c : TransactionCache} {tx : Hash32} {number : Int}
    (h : Present config entry now k c) (htx : c.Absent tx now) :
    Present config entry now (k + 1) (c.inserted tx number now) where
  valid := h.valid.inserted htx.1 htx.2
  config_eq := h.config_eq
  time := fun _ hp => (Option.some.inj hp).ge
  order := by
    obtain ⟨xs, hs⟩ := h.order
    have hl : (live config.ttlMillis now c.order).length ≤ config.maximumEntries := by
      rw [← h.config_eq]
      exact (live_sublist _ _ _).length_le.trans h.valid.capacity
    have ht : 0 < config.ttlMillis := by
      rw [← h.config_eq]
      exact h.valid.ttl
    have := hs.push hl (tx, now)
    simp only [TransactionCache.inserted, withOrder, h.config_eq, live_inserted ht]
    exact ⟨_, this⟩

theorem containsRecent_present {c : TransactionCache} (hc : Present config entry now k c)
    (tx : Hash32) :
    match TransactionCache.containsRecent tx now c with
    | (.ok found, c') => if found then True else Present config entry now k c' ∧ c'.Absent tx now
    | (.error _, _) => True := by
  rw [TransactionCache.containsRecent_eq hc.valid hc.time]
  by_cases hf : tx ∈ (TransactionCache.live c.config.ttlMillis now c.order).map Prod.fst
  · rw [decide_eq_true hf]
    trivial
  · rw [decide_eq_false hf]
    refine ⟨⟨hc.valid.expired hc.time, hc.config_eq, fun _ hp => (Option.some.inj hp).ge, ?_⟩,
      TransactionCache.Absent.expired ⟨hc.time, hf⟩⟩
    obtain ⟨xs, hs⟩ := hc.order
    refine ⟨xs, ?_⟩
    simp only [TransactionCache.expired, TransactionCache.withOrder, hc.config_eq,
      TransactionCache.live_live]
    exact hs

theorem processInSession_present (tx : RawWireTransaction) {context : ProcessContext}
    (hn : context.now = now) :
    Prog.Triple (InBody s id kh (Present config entry now k))
      (processInSession env (some id) tx context)
      (fun output => InBody s id kh fun c => Present config entry now k c ∧
        c.Absent output.transactionId now) fun _ => True := by
  subst hn
  refine Prog.Triple.conseq (processInSession_triple (E := fun _ => True)
    (fun c hc => containsRecent_present hc (env.transactionId tx)) (fun _ _ => trivial)
    fun _ _ => trivial) (fun _ h => h) (fun output b h => ?_) fun _ _ => trivial
  rw [h.1]
  exact h.2

theorem onCache_insert_present (f : CacheError → ε) (tx : Hash32) (number : Int) :
    Prog.Triple (InBody (H := H) s id kh fun c => Present config entry now k c ∧ c.Absent tx now)
      (onCache f (TransactionCache.insert tx number now))
      (fun _ => InBody s id kh (Present config entry now (k + 1))) fun _ => True := by
  intro b hb
  obtain ⟨hp, ha⟩ := hb.cache
  by_cases hbl : b.cache.InOrder number
  · have hi := TransactionCache.insert_eq hp.valid ha.1 hbl ha.2
    rw [onCache, Prog.zoom_of_ok hi]
    exact ⟨hb.sessions, hp.inserted ha, hb.khaos⟩
  · obtain ⟨e, hr⟩ : ∃ e, TransactionCache.insert tx number now b.cache = (.error e, _) :=
      TransactionCache.insert_of_not_inOrder hbl
    rw [onCache, Prog.zoom_of_error hr]
    trivial

/-- **A block with a transaction that is still in the cache** when its turn comes is refused. -/
theorem applyTransactions_fails {raw : RawHeader} {index i : Nat}
    {txs : List (Bytes × Transaction × Option RawWireTransaction)}
    {e : Bytes × Transaction × Option RawWireTransaction} {tx : RawWireTransaction}
    (he : txs[i]? = some e) (htx : decodedTransaction env e.1 e.2.2 = .ok tx)
    (ht : env.transactionId tx = entry.1) (hro : index + i < config.maximumEntries) :
    Prog.Triple (InBody s id kh (Present config entry now index))
      (applyTransactions env (some id) raw now index txs) (fun _ _ => False) fun _ => True := by
  induction txs generalizing index i with
  | nil => simp at he
  | cons first rest ih =>
    obtain ⟨bytes, message, decoded⟩ := first
    cases i with
    | zero =>
      cases he
      intro b hb
      have hf : TransactionCache.containsRecent entry.1 now b.cache = _ :=
        TransactionCache.containsRecent_eq hb.cache.valid hb.cache.time
      rcases hr : applyTransactions env (some id) raw now index ((bytes, message, decoded) :: rest) b
        with ⟨e | result, b'⟩
      · trivial
      · refine applyTransactions_cons_refused (fun tx' ht' => ?_) result b' hr
        obtain rfl : tx = tx' := Except.ok.inj (htx.symm.trans ht')
        rw [ht, hf]
        exact decide_eq_true (hb.cache.mem (by omega))
    | succ i =>
      refine .bind (R := fun _ => InBody s id kh (Present config entry now index))
        (.ofExcept (fun _ _ _ hb => hb) fun _ _ => trivial) fun tx' => ?_
      refine .bind (R := fun _ => InBody s id kh (Present config entry now index))
        (.get fun _ hb => hb) fun before => ?_
      refine .bind (.mapError (processInSession_present tx' rfl)) fun output => ?_
      refine .ite (fun _ => .bind (R := fun _ _ => False) (.throw fun _ _ => trivial)
        fun _ _ h => h.elim) fun _ => ?_
      refine .bind (onCache_insert_present _ output.transactionId raw.number) fun _ => ?_
      refine .bind (R := fun _ => InBody s id kh (Present config entry now (index + 1))) ?_ fun _ => ?_
      · exact Prog.Triple.conseq (onSessions_put_keeps _ _ _ _) (fun _ h => h) (fun _ _ h => h)
          fun _ _ => trivial
      · refine .bind (ih he (by omega)) fun _ _ h => h.elim

end Refused

/-! ## The whole block -/

section Whole

variable {b b₂ : BlockManager H} {block : RawBlock} {bid : BlockId} {now : Int}

/-- The manager inside the session of a new block. -/
def BlockManager.inSession (b : BlockManager H) : BlockManager H :=
  { b with sessions := b.sessions.bump.withTop b.sessions.nextId ∅ }

theorem buildSessionEnabled_inSession (hq : b.sessions.Quiescent) (f : SessionError → ε) :
    onSessions f Sessions.buildSessionEnabled b = (.ok (some b.sessions.nextId), b.inSession) :=
  buildSessionEnabled_run hq f

theorem applyBlock_parts (hq : b.sessions.Quiescent) (hc : b.cache.Valid)
    (h : BlockManager.applyBlock env block now b = (.ok bid, b₂)) :
    ∃ raw left b₁, b.checkBlock env block now false = .ok (bid, raw) ∧
      blockBody env (some b.sessions.nextId) block bid now raw b.inSession = (.ok left, b₁) ∧
      BlockManager.finishBlock b.cache (some b.sessions.nextId) left bid now raw false b₁ =
        (.ok (), b₂) := by
  rw [BlockManager.applyBlock, BlockManager.applyBlockMode, Prog.bind_of_ok (Prog.get_run b)] at h
  rcases hch : b.checkBlock env block now false with e | ⟨bid', raw⟩ <;> rw [hch] at h
  · cases h
  rw [Prog.bind_of_ok (Prog.ofExcept_ok_run _ (bid', raw) b)] at h
  dsimp only at h
  rw [Prog.bind_of_ok (buildSessionEnabled_inSession hq _)] at h
  have hs : Opened b.sessions.bump b.sessions.nextId := .of_bump hq.toTidy
  have hk : Prog.Keeps (InBody b.sessions.bump b.sessions.nextId b.khaos _)
      (blockBody env (some b.sessions.nextId) block bid' now raw) :=
    blockBody_keeps block bid' now raw
  have hb := hk.state (s := b.inSession) ⟨⟨_, rfl⟩, hc, rfl⟩
  rcases hr : blockBody env (some b.sessions.nextId) block bid' now raw b.inSession with
    ⟨e | left, b₁⟩ <;> rw [hr] at hb <;>
    rw [Prog.bind_of_ok (Prog.attempt_of_eq hr)] at h <;> dsimp only at h
  · obtain ⟨values, hb₁⟩ := hb.sessions
    rw [Prog.bind_of_error (abandonBlock_run hs hb₁ b.cache e)] at h
    cases h
  · rcases hf : BlockManager.finishBlock b.cache (some b.sessions.nextId) left bid' now raw false
      b₁ with ⟨e | _, b₂'⟩
    · rw [Prog.bind_of_error hf] at h
      cases h
    · rw [Prog.bind_of_ok hf] at h
      cases h
      exact ⟨raw, left, b₁, rfl, hr, hf⟩

theorem applyBlock_of_parts {raw : RawHeader} {left : RawBlock} {b₁ : BlockManager H}
    (hq : b.sessions.Quiescent) (hc : b.checkBlock env block now false = .ok (bid, raw))
    (hb : blockBody env (some b.sessions.nextId) block bid now raw b.inSession = (.ok left, b₁))
    (hf : BlockManager.finishBlock b.cache (some b.sessions.nextId) left bid now raw false b₁ =
      (.ok (), b₂)) :
    BlockManager.applyBlock env block now b = (.ok bid, b₂) := by
  rw [BlockManager.applyBlock, BlockManager.applyBlockMode, Prog.bind_of_ok (Prog.get_run b), hc,
    Prog.bind_of_ok (Prog.ofExcept_ok_run _ (bid, raw) b)]
  dsimp only
  rw [Prog.bind_of_ok (buildSessionEnabled_inSession hq _),
    Prog.bind_of_ok (Prog.attempt_of_eq hb)]
  dsimp only
  rw [Prog.bind_of_ok hf]
  rfl

theorem finishBlock_run {s : Sessions} {id : Nat} {values : Overlay} {cache : TransactionCache}
    {left : RawBlock} {raw : RawHeader} {parent : Hash32} {khaos : KhaosDatabase ManagedBlock}
    (hs : Opened s id) (hb : b.sessions = s.withTop id values) (hn : 0 ≤ raw.number)
    (hpa : Hash32.ofBytes? raw.parentHash = some parent)
    (hp : KhaosDatabase.push (khaosData bid parent raw left now) b.khaos = (.ok (), khaos))
    (hf : ¬ s.Clashes ⟨raw.number.toNat, bid⟩) :
    BlockManager.finishBlock cache (some id) left bid now raw false b =
      (.ok (), { b with
        sessions := s.commitTop id values ⟨raw.number.toNat, bid⟩
        khaos := khaos }) := by
  have hl : BlockManager.linkBlock cache (some id) left bid now raw b =
      (.ok (), { b with khaos := khaos }) := by
    rw [khaosData] at hp
    simp only [BlockManager.linkBlock, hpa, Prog.bind_run, Prog.attempt, onKhaos, Prog.zoom, hp,
      Prog.pure_run]
  have hc : BlockManager.commitBlock cache (some id) bid raw false { b with khaos := khaos } = _ :=
    commitBlock_run (b := { b with khaos := khaos }) hs hb hf
  rw [BlockManager.finishBlock, if_neg (not_lt.mpr hn)]
  simp only [Bool.not_false, if_true]
  rw [Prog.bind_of_ok hl, hc]
  rfl

theorem readView_commitTop {s : Sessions} {id : Nat} (hs : s.Quiescent) (hid : id < s.nextId)
    (values : Overlay) (point : CursorPoint) :
    (s.commitTop id values point).readView = FMap.overlay s.image values := by
  rw [(hs.commitTop hid point).readView_eq, Sessions.commitTop_image]

/-- The manager after a broadcast: a session id is taken, and the cache is another. -/
def BlockManager.broadcasted (b : BlockManager H) (cache : TransactionCache) : BlockManager H :=
  { b with sessions := b.sessions.bump, cache := cache }

variable {config : CacheConfig} {entry : Hash32 × Int} {raw : RawHeader} {cache : TransactionCache}

/-- **A block that is applied without the broadcast** is applied with it, where no transaction of
the block finds the entry in the cache. -/
theorem applyBlock_follows (hq : b.sessions.Quiescent) (hr : block.rawHeader = some raw)
    (hsh : Shadowed config entry raw.number now 0 b.cache cache)
    (ho : ∀ i e tx, block.entries[i]? = some e → decodedTransaction env e.1 e.2.2 = .ok tx →
      env.transactionId tx = entry.1 →
        TransactionCache.Dead config entry now ∨ config.maximumEntries ≤ i)
    (h : BlockManager.applyBlock env block now b = (.ok bid, b₂)) :
    ∃ b₂', BlockManager.applyBlock env block now (b.broadcasted cache) = (.ok bid, b₂') ∧
      b₂'.sessions.readView = b₂.sessions.readView ∧
      b₂'.sessions.checkpointPoints = b₂.sessions.checkpointPoints := by
  obtain ⟨raw', left, b₁, hc, hb, hf⟩ := applyBlock_parts hq hsh.left h
  obtain rfl : raw = raw' := Option.some.inj (hr.symm.trans (checkBlock_eq_ok hc).header)
  have hs : Opened b.sessions.bump b.sessions.nextId := .of_bump hq.toTidy
  have hs' : Opened b.sessions.bump.bump b.sessions.bump.nextId := .of_bump hq.bump.toTidy
  have hi : b.sessions.bump.bump.image = b.sessions.bump.image := rfl
  have hn : raw.number = raw.number := rfl
  have hfo := blockBody_follows hi hs hs' block bid hn ho
  obtain ⟨b₁', hb', ht⟩ := hfo b.inSession (b.broadcasted cache).inSession
    ⟨⟨∅, rfl, rfl⟩, rfl, rfl, hsh⟩ left b₁ hb
  obtain ⟨values, hb₁, hb₁'⟩ := ht.sessions
  have hsp := finishBlock_spec hs hb₁ ht.cache.1 hsh.left left bid now raw false nofun
  rw [hf] at hsp
  obtain ⟨parent, hp, hpu⟩ := hsp.khaos
  rw [finishBlock_run hs hb₁ hsp.number hp hpu hsp.fits] at hf
  have hp' := hpu
  rw [← ht.khaos] at hp'
  have hf' : BlockManager.finishBlock cache (some b.sessions.bump.nextId) left bid now raw false
      b₁' = _ := finishBlock_run hs' hb₁' hsp.number hp hp' hsp.fits
  refine ⟨_, applyBlock_of_parts hq.bump hc hb' hf', ?_⟩
  have hse : b₂.sessions = _ := (congrArg (fun r => r.2.sessions) hf).symm
  rw [hse]
  exact ⟨(readView_commitTop hq.bump.bump hs'.taken _ _).trans
    (readView_commitTop hq.bump hs.taken _ _).symm, rfl⟩

theorem applyTransactions_of_applyBlock (hq : b.sessions.Quiescent) (hc : b.cache.Valid)
    (h : BlockManager.applyBlock env block now b = (.ok bid, b₂)) :
    ∃ raw result b₁, applyTransactions env (some b.sessions.nextId) raw now 0 block.entries b.inSession =
      (.ok result, b₁) := by
  obtain ⟨raw, left, b₁, -, hb, -⟩ := applyBlock_parts hq hc h
  rw [blockBody, Prog.bind_run] at hb
  rcases ha : applyIn env (some b.sessions.nextId) block now raw b.inSession with ⟨e | r, b'⟩ <;>
    rw [ha] at hb
  · cases hb
  rw [applyIn, Prog.bind_run] at ha
  rcases ht : applyTransactions env (some b.sessions.nextId) raw now 0 block.entries b.inSession with
    ⟨e | result, b₁⟩
  · rw [RawBlock.entries] at ht
    rw [ht] at ha
    cases ha
  · exact ⟨raw, result, b₁, ht⟩

/-- **A block that finds the entry in the cache**, or comes before it was received, is refused. -/
theorem applyBlock_refused (hq : b.sessions.Quiescent) (hc : cache.Valid) {i : Nat}
    {e : Bytes × Transaction × Option RawWireTransaction} {tx : RawWireTransaction}
    (he : block.entries[i]? = some e) (htx : decodedTransaction env e.1 e.2.2 = .ok tx)
    (hti : env.transactionId tx = entry.1)
    (hca : ¬ cache.InTime now ∨
      TransactionCache.Present config entry now 0 cache ∧ i < config.maximumEntries)
    (bid : BlockId) (b₂ : BlockManager H) :
    BlockManager.applyBlock env block now (b.broadcasted cache) ≠ (.ok bid, b₂) := by
  intro h
  obtain ⟨raw, result, b₁, hru⟩ := applyTransactions_of_applyBlock hq.bump hc h
  rcases hca with ht | ⟨hp, hro⟩
  · cases hen : block.entries with
    | nil => simp [hen] at he
    | cons first rest =>
      rw [hen] at hru
      refine applyTransactions_cons_refused (fun tx' _ => ?_) result b₁ hru
      obtain ⟨e', hr⟩ : ∃ e', TransactionCache.containsRecent (env.transactionId tx') now
          (b.broadcasted cache).inSession.cache = (.error e', _) :=
        TransactionCache.containsRecent_of_not_inTime ht
      rw [hr]
      trivial
  · have hb : InBody b.sessions.bump.bump b.sessions.bump.nextId b.khaos
        (TransactionCache.Present config entry now 0) (b.broadcasted cache).inSession :=
      ⟨⟨∅, rfl⟩, hp, rfl⟩
    have hr' : 0 + i < config.maximumEntries := by omega
    exact (applyTransactions_fails he htx hti hr').of_run hb hru

end Whole

/-! ## Accepted broadcasts -/

section Broadcast

open ChainManager

variable {s : Sessions} {id : Nat} {k : KhaosDatabase ManagedBlock} {before : TransactionCache}

theorem containsRecent_exact (hc : before.Valid) (tx : Hash32) (now : Int) :
    match TransactionCache.containsRecent tx now before with
    | (.ok found, c') => if found then True else c' = before.expired now ∧ before.Absent tx now
    | (.error _, _) => True := by
  by_cases ht : before.InTime now
  · rw [TransactionCache.containsRecent_eq hc ht]
    by_cases hf : tx ∈ (TransactionCache.live before.config.ttlMillis now before.order).map Prod.fst
    · rw [decide_eq_true hf]
      trivial
    · rw [decide_eq_false hf]
      exact ⟨rfl, ht, hf⟩
  · obtain ⟨e, hr⟩ : ∃ e, TransactionCache.containsRecent tx now before = (.error e, _) :=
      TransactionCache.containsRecent_of_not_inTime ht
    rw [hr]
    trivial

theorem TransactionCache.inserted_expired (tx : Hash32) (number now : Int) :
    (before.expired now).inserted tx number now = before.inserted tx number now := by
  simp only [TransactionCache.expired, inserted, withOrder, live_live]

/-- **An executed broadcast** leaves the cache with one more entry, which it did not have. -/
theorem processPending_exact (env : Environment H) (hc : before.Valid) (tx : RawWireTransaction)
    (context : ProcessContext) :
    Prog.Triple (InBody s id k (· = before)) (processPending env (some id) tx context)
      (fun _ => InBody s id k fun c => before.Absent (env.transactionId tx) context.now ∧
        c = before.inserted (env.transactionId tx) context.blockNumber context.now)
      fun _ => True := by
  refine .bind (R := fun _ => InBody s id k (· = before)) (.get fun _ hb => hb) fun b₀ => ?_
  refine .bind (.attempt (R := fun _ => InBody s id k fun c =>
    before.Absent (env.transactionId tx) context.now ∧
      c = before.inserted (env.transactionId tx) context.blockNumber context.now)
    (E := fun _ => True) ?_) fun result => ?_
  · refine .bind (Prog.Triple.conseq (processInSession_triple (E := fun _ => True)
      (C := (· = before)) (D := fun c => c = before.expired context.now ∧
        before.Absent (env.transactionId tx) context.now)
      (fun c hc' => by subst hc'; exact containsRecent_exact hc _ _) (fun _ _ => trivial)
      fun _ _ => trivial) (fun _ h => h) (fun _ _ h => h) fun _ _ => trivial) fun output => ?_
    refine .bind (R := fun _ => InBody s id k fun c =>
      before.Absent (env.transactionId tx) context.now ∧
        c = before.inserted (env.transactionId tx) context.blockNumber context.now) ?_ fun _ => ?_
    · rintro b ⟨ho, hb⟩
      obtain ⟨hca, ha⟩ := hb.cache
      have hv : b.cache.Valid := by
        rw [hca]
        exact hc.expired ha.1
      have ha' : b.cache.Absent (env.transactionId tx) context.now := by
        rw [hca]
        exact ha.expired
      rw [ho, onCache]
      by_cases hbl : b.cache.InOrder context.blockNumber
      · rw [Prog.zoom_of_ok
          (TransactionCache.insert_eq hv ha'.1 hbl ha'.2), hca,
          TransactionCache.inserted_expired]
        exact ⟨hb.sessions, ⟨ha, rfl⟩, hb.khaos⟩
      · obtain ⟨e, hr⟩ : ∃ e, TransactionCache.insert (env.transactionId tx)
            context.blockNumber context.now b.cache = (.error e, _) :=
          TransactionCache.insert_of_not_inOrder hbl
        rw [Prog.zoom_of_error hr]
        trivial
    · refine .bind (Prog.Triple.conseq (onSessions_put_keeps _ _ _ _) (fun _ h => h) (fun _ _ h => h)
        fun _ _ => trivial) fun _ => .pure fun _ h => h
  · cases result with
    | ok output => exact .pure fun _ h => h
    | error e => exact .bind (R := fun _ _ => True) (.modify fun _ _ => trivial) fun _ => .throw fun _ _ => trivial

theorem processPending_hooks (env : Environment H) (hooks : H) (session : Session)
    (tx : RawWireTransaction) (context : ProcessContext) :
    Prog.Keeps (fun b => b.hooks = hooks) (processPending env session tx context) := by
  have hs {α ε : Type} (f : SessionError → ε) (x : SessionM α) :
      Prog.Keeps (fun b : BlockManager H => b.hooks = hooks) (onSessions f x) := .zoom fun _ h => h
  have hc {α ε : Type} (f : CacheError → ε) (x : Prog TransactionCache CacheError α) :
      Prog.Keeps (fun b : BlockManager H => b.hooks = hooks) (onCache f x) := .zoom fun _ h => h
  have hp : Prog.Keeps (fun b => b.hooks = hooks) (processInSession env session tx context) := by
    refine .bind .get fun _ => .bind .ofExcept fun _ => .bind (hc _ _) fun _ => ?_
    refine .ite (fun _ => .throw_bind) fun _ => .bind .get fun _ => ?_
    refine .ite (fun _ => .throw_bind) fun _ => .bind .ofExcept fun _ => ?_
    exact .bind (hs _ _) fun _ => .bind (hs _ _) fun _ => .pure
  refine .bind .get fun _ => .bind (.attempt (.bind hp fun _ =>
    .bind (hc _ _) fun _ => .bind (hs _ _) fun _ => .pure)) fun result => ?_
  cases result with
  | ok output => exact .pure
  | error e => exact .bind (.modify fun _ h => h) fun _ => .throw

variable {c c' : ChainManager H} {bytes : Bytes} {received : Int} {smart : Bool} {tid : Hash32}

theorem suspended_of_open {pool : PendingPool} {outer : Nat} {q : Sessions} {values : Overlay}
    (hp : c.pending = some pool) (hse : pool.session = some outer) (hq : q.Quiescent)
    (ho : Opened q outer)
    (hs : c.blocks.sessions = (q.reserve outer).withTop outer values) :
    suspended c = { c.blocks with sessions := q } := by
  have hr : PendingPool.suspendForFork ⟨c.blocks, pool, []⟩ = _ :=
    suspendForFork_run hq ho hs hse
  rw [suspended, suspend, Prog.bind_of_ok (Prog.get_run c), if_pos (by rw [hp]; rfl),
    Prog.bind_run, onFull]
  simp only [hp, hr]
  rfl

/-- An admission that is accepted: its transaction has run in a child of the session of the pool. -/
theorem admitItem_accepted {node node' : FullNode H} {item : PendingTransaction} {now : Int}
    {f : SessionError → ε} {execute : Session → Prog (BlockManager H) ε Unit} (hn : NodeOk node)
    (hexe : ∀ s child k, Prog.Keeps (InBody s child k TransactionCache.Valid)
      (execute (some child)))
    (h : PendingPool.admitItem item now f execute node = (.ok (.accepted tid), node')) :
    ∃ q outer values writes b', q.Quiescent ∧ Opened q outer ∧ node.pool.session = some outer ∧
      node.blocks.sessions = (q.reserve outer).withTop outer values ∧ tid = item.id ∧
      execute (some q.nextId) { node.blocks with
        sessions := ((q.bump.reserve outer).withTop outer values).withTop q.nextId ∅ } =
          (.ok (), b') ∧
      b'.sessions = ((q.bump.reserve outer).withTop outer values).withTop q.nextId writes ∧
      node'.blocks = { b' with
        sessions := (q.bump.reserve outer).withTop outer (writes ∪ values) } ∧
      node'.pool.session = some outer := by
  rw [PendingPool.admitItem, Prog.bind_of_ok (Prog.get_run node)] at h
  cases hr : node.pool.refusal item now with
  | some reason =>
    rw [hr] at h
    cases h
  | none =>
    obtain ⟨hso, hh⟩ := hn
    cases hs : node.pool.session with
    | none => simp [PendingPool.refusal, hs] at hr
    | some outer =>
      rw [hs] at hh
      obtain ⟨q, values, hq, ho, hse⟩ := hh
      have hc : ChildOpen q.bump outer q.nextId := .of_bump hq ho
      have hbu : Sessions.buildChild (some outer) node.blocks.sessions = _ :=
        (congrArg _ hse).trans (buildChild_eq hq)
      rw [hr, hs] at h
      dsimp only at h
      rw [Prog.bind_of_ok (onBlocks_of_onNodeSessions f (onNodeSessions_of_ok hbu))] at h
      have hb := (hexe ((q.bump.reserve outer).withTop outer values) q.nextId
        node.blocks.khaos).state (s := { node.blocks with
          sessions := ((q.bump.reserve outer).withTop outer values).withTop q.nextId ∅ })
        ⟨⟨∅, rfl⟩, hso.1, rfl⟩
      generalize hi : ({ node.blocks with
        sessions := ((q.bump.reserve outer).withTop outer values).withTop q.nextId ∅ } :
          BlockManager H) = inside at h hb
      rcases hru : execute (some q.nextId) inside with ⟨e | _, b'⟩ <;> rw [hru] at hb <;>
        obtain ⟨writes, hw⟩ := hb.sessions
      · -- the transaction fails, and is not accepted
        have hd : Session.discard (some q.nextId) b'.sessions = _ :=
          (congrArg _ hw).trans (discard_eq hc values writes)
        have he : onBlocks (fun e : ε => e) (execute (some q.nextId))
          { node with blocks := inside } = (.error e, { node with blocks := b' }) :=
            Prog.zoom_of_error hru
        rw [Prog.bind_of_ok (Prog.attempt_of_eq he)] at h
        dsimp only at h
        rw [Prog.bind_of_ok (onBlocks_of_onNodeSessions f (onNodeSessions_of_ok hd))] at h
        cases h
      · have hm : Session.merge (some q.nextId) b'.sessions = _ :=
          (congrArg _ hw).trans (merge_eq hc values writes)
        have he : onBlocks (fun e : ε => e) (execute (some q.nextId))
          { node with blocks := inside } = (.ok (), { node with blocks := b' }) :=
            Prog.zoom_of_ok hru
        rw [Prog.bind_of_ok (Prog.attempt_of_eq he)] at h
        dsimp only at h
        rw [Prog.bind_of_ok (Prog.attempt_of_eq (onNodeSessions_of_ok hm))] at h
        cases h
        subst hi
        exact ⟨q, outer, values, writes, b', hq, ho, rfl, hse, rfl, hru, hw, rfl,
          (enqueue_session _ item).trans hs⟩

/-- The execution of a broadcast transaction in a child of the session of the pool. -/
def executeBroadcast (env : Environment H) (tx : RawWireTransaction) (header : RawHeader)
    (received : Int) (session : Session) : Prog (BlockManager H) ChainManagerError Unit := do
  let _ ← Prog.mapError .process (processPending env session tx (.at .network header received none))

theorem executeBroadcast_exact {b b' : BlockManager H} {tx : RawWireTransaction} {header : RawHeader}
    (hc : b.cache.Valid) (hs : b.sessions = s.withTop id ∅)
    (h : executeBroadcast env tx header received (some id) b = (.ok (), b')) :
    b.cache.Absent (env.transactionId tx) received ∧
      b'.cache = b.cache.inserted (env.transactionId tx) header.number received ∧
      b'.khaos = b.khaos ∧ b'.hooks = b.hooks := by
  rw [executeBroadcast, Prog.bind_run] at h
  rcases hr : Prog.mapError ChainManagerError.process (processPending env (some id) tx
    (.at .network header received none)) b with ⟨e | output, b₁⟩ <;> rw [hr] at h <;> cases h
  have hst : InBody s id b.khaos (· = b.cache) b := ⟨⟨∅, hs⟩, rfl, rfl⟩
  have he := (processPending_exact env hc tx _).mapError.of_run hst hr
  have hh := (processPending_hooks env b.hooks (some id) tx _).mapError.of_run rfl hr
  exact ⟨he.cache.1, he.cache.2, he.khaos, hh⟩

theorem broadcastRaw_parts {result : BroadcastResult} {pool : PendingPool}
    (hp : c.pending = some pool)
    (h : broadcastRaw env bytes received smart c = (.ok result, c')) :
    ∃ tx head header node', c.blocks.khaos.getHead = some head ∧
      head.value.raw.rawHeader = some header ∧
      PendingPool.admitItem ⟨env.transactionId tx, tx, received, tx.message.shielded, smart⟩ received
        ChainManagerError.ofSession (executeBroadcast env tx header received) ⟨c.blocks, pool, []⟩ =
          (.ok result, node') ∧
      c' = { c with blocks := node'.blocks, pending := some node'.pool } := by
  rw [broadcastRaw] at h
  rcases hd : env.decodeTransaction bytes with e | tx <;> rw [hd] at h
  · cases h
  rw [Prog.bind_of_ok (Prog.ofExcept_ok_run _ tx c)] at h
  dsimp only at h
  rw [Prog.bind_of_ok (Prog.get_run c)] at h
  cases hhe : c.blocks.khaos.getHead with
  | none =>
    rw [hhe] at h
    cases h
  | some head =>
    rw [hhe] at h
    dsimp only at h
    cases hh : head.value.raw.rawHeader with
    | none =>
      rw [hh] at h
      cases h
    | some header =>
      rw [hh] at h
      dsimp only at h
      rw [Prog.bind_run, onFull] at h
      simp only [hp] at h
      rcases hr : PendingPool.admitItem
        ⟨env.transactionId tx, tx, received, tx.message.shielded, smart⟩ received
        ChainManagerError.ofSession (executeBroadcast env tx header received) ⟨c.blocks, pool, []⟩ with
        ⟨e | result', node'⟩ <;> have ha := hr <;> unfold executeBroadcast at hr <;>
        rw [hr] at h <;> cases h
      exact ⟨tx, head, header, node', rfl, hh, ha, rfl⟩

/-- **An accepted broadcast**: once the pool is suspended, what is left of it is the session id that
it took and an entry of the cache. -/
theorem broadcastRaw_accepted (hc : FullOk c)
    (h : broadcastRaw env bytes received smart c = (.ok (.accepted tid), c')) :
    ∃ head header, c.blocks.khaos.getHead = some head ∧ head.value.raw.rawHeader = some header ∧
      (suspended c).sessions.Quiescent ∧ (suspended c).cache = c.blocks.cache ∧
      (suspended c).khaos = c.blocks.khaos ∧ c.blocks.cache.Absent tid received ∧
      suspended c' =
        (suspended c).broadcasted (c.blocks.cache.inserted tid header.number received) := by
  obtain ⟨pool, hp, hn⟩ := hc
  obtain ⟨tx, head, header, node', hhe, hh, had, rfl⟩ := broadcastRaw_parts hp h
  have hk (s : Sessions) (child : Nat) (k : KhaosDatabase ManagedBlock) :
      Prog.Keeps (InBody s child k TransactionCache.Valid)
        (executeBroadcast env tx header received (some child)) :=
    .bind (.mapError (processPending_keeps _ _)) fun _ => .pure
  obtain ⟨q, outer, values, writes, b', hq, ho, hse, hs, rfl, he, hw,
    hbl, hs'⟩ := admitItem_accepted hn hk had
  have hv : c.blocks.cache.Valid := hn.cache
  generalize hi : ({ c.blocks with
    sessions := ((q.bump.reserve outer).withTop outer values).withTop q.nextId ∅ } :
      BlockManager H) = inside at he
  have hc₀ : inside.cache = c.blocks.cache := by rw [← hi]
  have hk₀ : inside.khaos = c.blocks.khaos := by rw [← hi]
  have hh₀ : inside.hooks = c.blocks.hooks := by rw [← hi]
  have hs₀ : inside.sessions =
      ((q.bump.reserve outer).withTop outer values).withTop q.nextId ∅ := by rw [← hi]
  rw [← hc₀] at hv
  obtain ⟨ha, hca, hkh, hho⟩ := executeBroadcast_exact hv hs₀ he
  rw [hc₀] at ha hca
  have hb := suspended_of_open hp hse hq ho hs
  have haf := suspended_of_open (c := { c with blocks := node'.blocks, pending := some node'.pool })
    rfl hs' hq.bump ⟨hq.toTidy.bump, ho.fresh, Nat.lt_succ_of_lt ho.taken⟩
    (congrArg BlockManager.sessions hbl)
  refine ⟨head, header, hhe, hh, ?_, ?_, ?_, ha, ?_⟩
  · rw [hb]
    exact hq
  · rw [hb]
  · rw [hb]
  · rw [hb, haf, hbl]
    simp only [BlockManager.broadcasted, BlockManager.mk.injEq]
    exact ⟨trivial, hca, hkh.trans hk₀, hho.trans hh₀⟩

/-- What `accept_network_block` commits in the step that applies a block, before the pool is opened
again: the id of the block, the state and the checkpoints. -/
def applies (env : Environment H) (c : ChainManager H) (bytes : Bytes) (now : Int) :
    Option (BlockId × Image × List CursorPoint) :=
  match RawBlock.decode env bytes with
  | .error _ => none
  | .ok block =>
    match BlockManager.applyBlock env block now (suspended c) with
    | (.error _, _) => none
    | (.ok id, b) => some (id, b.sessions.readView, b.sessions.checkpointPoints)

/-- The bytes are those of a transaction with this id. -/
def hasId (env : Environment H) (tid : Hash32) (bytes : Bytes) : Bool :=
  match env.decodeTransaction bytes with
  | .ok tx => env.transactionId tx = tid
  | .error _ => false

/-- The index of the first transaction with this id in a block. -/
def RawBlock.indexOf (env : Environment H) (block : RawBlock) (tid : Hash32) : Option Nat :=
  block.transactionBytes.findIdx? (hasId env tid)

theorem applies_eq_some {now : Int} {result : BlockId × Image × List CursorPoint}
    (h : applies env c bytes now = some result) :
    ∃ block b₂, RawBlock.decode env bytes = .ok block ∧
      BlockManager.applyBlock env block now (suspended c) = (.ok result.1, b₂) ∧
      result.2 = (b₂.sessions.readView, b₂.sessions.checkpointPoints) := by
  unfold applies at h
  rcases hd : RawBlock.decode env bytes with e | block <;> rw [hd] at h
  · cases h
  dsimp only at h
  rcases ha : BlockManager.applyBlock env block now (suspended c) with ⟨e | id, b₂⟩ <;>
    rw [ha] at h <;> cases h
  exact ⟨block, b₂, rfl, ha, rfl⟩

theorem decode_transactions {block : RawBlock} (h : RawBlock.decode env bytes = .ok block) :
    block.transactions = List.replicate block.transactionBytes.length none := by
  unfold RawBlock.decode at h
  split at h
  · cases h
  · split at h <;> cases h
    rfl

theorem entries_of_decode {block : RawBlock} (hd : RawBlock.decode env bytes = .ok block)
    {i : Nat} {e : Bytes × Transaction × Option RawWireTransaction} (he : block.entries[i]? = some e) :
    block.transactionBytes[i]? = some e.1 ∧ e.2.2 = none := by
  rw [RawBlock.entries, List.getElem?_zip_eq_some, List.getElem?_zip_eq_some,
    decode_transactions hd] at he
  obtain ⟨hb, -, hn⟩ := he
  exact ⟨hb, (List.eq_of_mem_replicate (List.mem_of_getElem? hn))⟩

theorem exists_entry {block : RawBlock} (hd : RawBlock.decode env bytes = .ok block)
    (hw : block.messageTransactions.map (·.encoded) = block.transactionBytes) {i : Nat}
    (hi : i < block.transactionBytes.length) : ∃ e, block.entries[i]? = some e := by
  have hm : block.messageTransactions.length = block.transactionBytes.length := by
    rw [← hw, List.length_map]
  have hl : i < block.entries.length := by
    rw [RawBlock.entries, List.length_zip, List.length_zip, hm, decode_transactions hd,
      List.length_replicate]
    omega
  exact ⟨_, List.getElem?_eq_getElem hl⟩

theorem hasId_iff {txBytes : Bytes} :
    hasId env tid txBytes = true ↔
      ∃ tx, decodedTransaction env txBytes none = .ok tx ∧ env.transactionId tx = tid := by
  unfold hasId decodedTransaction
  cases env.decodeTransaction txBytes <;> simp

theorem indexOf_le {block : RawBlock} {index i : Nat} {tx : RawWireTransaction}
    {e : Bytes × Transaction × Option RawWireTransaction}
    (hd : RawBlock.decode env bytes = .ok block) (hc : block.indexOf env tid = some index)
    (he : block.entries[i]? = some e) (htx : decodedTransaction env e.1 e.2.2 = .ok tx)
    (ht : env.transactionId tx = tid) : index ≤ i := by
  obtain ⟨hb, hn⟩ := entries_of_decode hd he
  rw [hn] at htx
  by_contra hlt
  obtain ⟨hin, -, hbe⟩ := List.findIdx?_eq_some_iff_getElem.mp hc
  have hi : i < block.transactionBytes.length := by omega
  rw [List.getElem?_eq_getElem hi] at hb
  have hid := hasId_iff.mpr ⟨tx, htx, ht⟩
  rw [← Option.some.inj hb] at hid
  exact hbe i (by omega) hid

theorem headNumber_le {b : BlockManager H} {block : RawBlock} {bid : BlockId} {raw header : RawHeader}
    {head : KhaosBlockData ManagedBlock} (hn : b.khaos.All Numbered)
    (hc : Checked env b block false bid raw) (hh : b.khaos.getHead = some head)
    (hhe : head.value.raw.rawHeader = some header) : header.number ≤ raw.number := by
  obtain ⟨he', hh', -, hne, -⟩ := hc.head
  obtain rfl : head = he' := Option.some.inj (hh.symm.trans hh')
  obtain ⟨node, hno, rfl⟩ := Option.map_eq_some_iff.mp hh
  have hnu := hn.head node hno header hhe
  have hne := (toI64_eq_some_iff.mp hne).2
  omega

/-- The broadcast is still in the cache when its transaction comes up in the block, or the block
comes before it was received. -/
theorem refused_of_not {now : Int} {index : Nat} {header : RawHeader} {number : Int}
    {cache : TransactionCache} (hv : cache.Valid) (ha : cache.Absent tid received)
    (hnu : header.number ≤ number)
    (h : ¬ (received + cache.config.ttlMillis ≤ now ∨
      (received ≤ now ∧ cache.config.maximumEntries ≤ index))) :
    ¬ (cache.inserted tid header.number received).InTime now ∨
      TransactionCache.Present cache.config (tid, received) now 0
        (cache.inserted tid header.number received) ∧ index < cache.config.maximumEntries := by
  rw [not_or, not_and, not_le, not_le] at h
  by_cases hn : received ≤ now
  · have hs : Shadowed cache.config (tid, received) number now 0 cache _ :=
      .of_broadcast hv ha hn hnu
    have hal : ¬ TransactionCache.Dead cache.config (tid, received) now := not_le.mpr h.1
    have hsh : TransactionCache.Shadows (tid, received) cache.config.maximumEntries 0 False _ _ :=
      ⟨fun hg => hs.order.1 (hg.imp_left False.elim),
        fun _ hk => hs.order.2 hal hk⟩
    exact .inr ⟨⟨hs.right, rfl, hs.time, _, hsh⟩, h.2 hn⟩
  · exact .inl fun ht => hn (ht received rfl)

/-- **Non-interference, exactly**: a block that contains a transaction is applied after an accepted
broadcast of that transaction as it is without it, if and only if by then the broadcast has expired
from the cache or is crowded out of it by the transactions before it in the block. -/
theorem applies_after_broadcast_iff {now : Int} {txBytes : Bytes} {block : RawBlock} {index : Nat}
    {result : BlockId × Image × List CursorPoint} (hreachable : Reachable env (FullStart env) c)
    (hbroadcast : broadcastRaw env txBytes received smart c = (.ok (.accepted tid), c'))
    (hdecode : RawBlock.decode env bytes = .ok block)
    (hcontains : block.indexOf env tid = some index)
    (happlies : applies env c bytes now = some result) :
    applies env c' bytes now = some result ↔
      received + c.blocks.cache.config.ttlMillis ≤ now ∨
        (received ≤ now ∧ c.blocks.cache.config.maximumEntries ≤ index) := by
  have hok := Reachable.fullOk hreachable
  obtain ⟨head, header, hhead, hheader, hq, hcache, hkhaos, habsent, hafter⟩ :=
    broadcastRaw_accepted hok hbroadcast
  obtain ⟨pool, hpool, hnode⟩ := hok
  have hvalid : c.blocks.cache.Valid := hnode.cache
  obtain ⟨block', b₂, hdecode', happly, hresult⟩ := applies_eq_some happlies
  obtain rfl : block = block' := Except.ok.inj (hdecode.symm.trans hdecode')
  obtain ⟨raw, -, -, hcheck, -⟩ := applyBlock_parts hq (by rwa [hcache]) happly
  have hchecked := checkBlock_eq_ok hcheck
  have hnumber : header.number ≤ raw.number := by
    refine headNumber_le ?_ hchecked (by rwa [hkhaos]) hheader
    rw [hkhaos]
    exact hnode.numbered
  constructor
  · -- the broadcast is not gone: the block is refused
    intro happlies'
    by_contra hcondition
    obtain ⟨block', b₂', hdecode'', happly', -⟩ := applies_eq_some happlies'
    obtain rfl : block = block' := Except.ok.inj (hdecode.symm.trans hdecode'')
    obtain ⟨hindex, hid, -⟩ := List.findIdx?_eq_some_iff_getElem.mp hcontains
    obtain ⟨e, he⟩ := exists_entry hdecode hchecked.wire hindex
    obtain ⟨hbytes, hnone⟩ := entries_of_decode hdecode he
    rw [List.getElem?_eq_getElem hindex] at hbytes
    obtain ⟨tx, htx, htid⟩ := hasId_iff.mp hid
    rw [Option.some.inj hbytes, ← hnone] at htx
    rw [hafter] at happly'
    exact applyBlock_refused hq (hvalid.inserted habsent.1 habsent.2) he htx htid
      (refused_of_not hvalid habsent hnumber hcondition) _ _ happly'
  · -- the broadcast is gone when the transaction comes up
    intro hcondition
    have hnow : received ≤ now := by
      have := hvalid.ttl
      rcases hcondition with h | h <;> omega
    have hshadowed : Shadowed c.blocks.cache.config (tid, received) raw.number now 0
        (suspended c).cache (c.blocks.cache.inserted tid header.number received) := by
      rw [hcache]
      exact .of_broadcast hvalid habsent hnow hnumber
    have hother (i : Nat) (e : Bytes × Transaction × Option RawWireTransaction)
        (tx : RawWireTransaction) (he : block.entries[i]? = some e)
        (htx : decodedTransaction env e.1 e.2.2 = .ok tx) (htid : env.transactionId tx = tid) :
        TransactionCache.Dead c.blocks.cache.config (tid, received) now ∨
          c.blocks.cache.config.maximumEntries ≤ i :=
      hcondition.imp_right fun h => h.2.trans (indexOf_le hdecode hcontains he htx htid)
    obtain ⟨b₂', happly', hview, hpoints⟩ :=
      applyBlock_follows hq hchecked.header hshadowed hother happly
    rw [applies, hdecode]
    dsimp only
    rw [hafter, happly']
    dsimp only
    rw [hview, hpoints]
    exact congrArg some (Prod.ext rfl hresult.symm)

end Broadcast

namespace Sample

open ChainManager

/-- The full node after the broadcast of a transaction. -/
def broadcasted : ChainManager Unit := (broadcastRaw network [5] 1 false full).2

theorem broadcast_accepted : broadcastRaw network [5] 1 false full =
    (.ok (.accepted (digest [5])), broadcasted) := by
  have h : (broadcastRaw network [5] 1 false full).1.toOption = some (.accepted (digest [5])) := by
    decide
  rw [broadcasted]
  rcases hr : broadcastRaw network [5] 1 false full with ⟨e | result, c⟩ <;> rw [hr] at h
  · cases h
  · cases h
    rfl

/-- A first block that holds the transaction. -/
def carrier : RawBlock :=
  { Sample.block 1 2 0 [5] with fullBytes := [1, 2, 0, 5], transactions := [none] }

theorem carrier_decoded : RawBlock.decode network [1, 2, 0, 5] = .ok carrier := rfl

theorem carrier_indexOf : carrier.indexOf network (digest [5]) = some 0 := by decide

end Sample

/-- An hour after the broadcast the block is applied as it is without it. -/
theorem carrier_applies_once_expired :
    ∃ result, applies Sample.network Sample.full [1, 2, 0, 5] 3600001 = some result ∧
      applies Sample.network Sample.broadcasted [1, 2, 0, 5] 3600001 = some result := by
  have hsome : (applies Sample.network Sample.full [1, 2, 0, 5] 3600001).isSome = true := by
    decide +kernel
  obtain ⟨result, hresult⟩ := Option.isSome_iff_exists.mp hsome
  exact ⟨result, hresult, (applies_after_broadcast_iff (.start Sample.full_start)
    Sample.broadcast_accepted Sample.carrier_decoded Sample.carrier_indexOf hresult).mpr
    (.inl (by decide))⟩

/-- A millisecond after the broadcast of its transaction a block is refused that is applied
without it. -/
theorem broadcast_refuses_carrier :
    ChainManager.Reachable Sample.network (FullStart Sample.network) Sample.full ∧
      ChainManager.broadcastRaw Sample.network [5] 1 false Sample.full =
        (.ok (.accepted (Sample.digest [5])), Sample.broadcasted) ∧
      RawBlock.decode Sample.network [1, 2, 0, 5] = .ok Sample.carrier ∧
      ExtendsHead Sample.full Sample.carrier ∧
      Sample.carrier.indexOf Sample.network (Sample.digest [5]) = some 0 ∧
      (applies Sample.network Sample.full [1, 2, 0, 5] 2).isSome = true ∧
      (applies Sample.network Sample.broadcasted [1, 2, 0, 5] 2).isSome = false :=
  ⟨.start Sample.full_start, Sample.broadcast_accepted, Sample.carrier_decoded,
    ⟨_, _, rfl, rfl, by decide +kernel⟩, Sample.carrier_indexOf, by decide +kernel,
    by decide⟩

end RustTron.Execution
