import RustTron.Execution.Block

/-!
# What applying a block does

A block runs in one layer over the committed stack. Whatever it does there, the committed layers,
Khaos and the rest of the manager stay as they are until the layer is committed or revoked.

## Main definitions

* `InBody s id k b`: `b` is inside the session `id` of a block over the stack `s`

## Main results

* `processInSession_spec`: a processed transaction was in neither the cache nor the state
* `blockBody_keeps`: the body of a block stays inside its session
* `applyBlockMode_spec`: a block that is applied adds one committed layer and its checkpoint; one
  that fails leaves the stack as it was, but for the session id it took
-/

namespace RustTron.Execution

open State

variable {H ε : Type} {env : Environment H}

/-! ## Inside the session of a block -/

/-- The manager is inside the session `id` over the stack `s`, its cache is one of `C`, and Khaos
is `k`. -/
structure InBody (s : Sessions) (id : Nat) (k : KhaosDatabase ManagedBlock)
    (C : TransactionCache → Prop) (b : BlockManager H) : Prop where
  sessions : ∃ values, b.sessions = s.withTop id values
  cache : C b.cache
  khaos : b.khaos = k

/-- `id` is in the cache at `now` under no live entry. -/
def TransactionCache.Absent (c : TransactionCache) (id : Hash32) (now : Int) : Prop :=
  c.InTime now ∧ id ∉ (TransactionCache.live c.config.ttlMillis now c.order).map Prod.fst

section Body

variable {s : Sessions} {id : Nat} {k : KhaosDatabase ManagedBlock} {C : TransactionCache → Prop}

theorem onSessions_mutateAll_keeps (f : SessionError → ε) (writes : Writes) :
    Prog.Keeps (InBody (H := H) s id k C) (onSessions f (Session.mutateAll (some id) writes)) := by
  intro b hb
  obtain ⟨values, hs⟩ := hb.sessions
  have hr : Session.mutateAll (some id) writes b.sessions =
      (.ok (), s.withTop id (Sessions.writeAll values writes)) := by
    rw [hs]
    exact Sessions.mutateAll_withTop writes
  rw [onSessions, Prog.zoom_of_ok hr]
  exact ⟨⟨_, rfl⟩, hb.cache, hb.khaos⟩

theorem onSessions_put_keeps (f : SessionError → ε) (store : StoreKind) (key value : Bytes) :
    Prog.Keeps (InBody (H := H) s id k C)
      (onSessions f (Session.put (some id) store key value)) := by
  intro b hb
  obtain ⟨values, hs⟩ := hb.sessions
  have hr : Session.put (some id) store key value b.sessions =
      (.ok (), s.withTop id (values.insert ⟨store, key⟩ (.put value))) := by
    rw [hs]
    exact Sessions.mutate_withTop _ _
  rw [onSessions, Prog.zoom_of_ok hr]
  exact ⟨⟨_, rfl⟩, hb.cache, hb.khaos⟩

theorem callHook_keeps (hook : H → Image → Except String Writes × H) :
    Prog.Keeps (InBody (H := H) s id k C) (callHook (some id) hook) := by
  refine .bind .get fun b => .bind (.modify fun b hb => ⟨hb.sessions, hb.cache, hb.khaos⟩)
    fun _ => .bind .ofExcept fun writes => ?_
  exact onSessions_mutateAll_keeps _ writes

/-- The cache with its dead entries gone has the same live ones. -/
theorem TransactionCache.live_live (ttl now : Int) (order : List (Hash32 × Int)) :
    live ttl now (live ttl now order) = live ttl now order := by
  simp [live]

/-- **A processed transaction** stays inside the session it runs in. `C` is what is known of the
cache before, `D` once the id was not found in it, and `E` after a failure. -/
theorem processInSession_triple {C D E : TransactionCache → Prop} {tx : RawWireTransaction}
    {context : ProcessContext}
    (hr : ∀ c, C c →
      match TransactionCache.containsRecent (env.transactionId tx) context.now c with
      | (.ok found, c') => if found then E c' else D c'
      | (.error _, c') => E c')
    (hC : ∀ c, C c → E c) (hD : ∀ c, D c → E c) :
    Prog.Triple (InBody s id k C) (processInSession env (some id) tx context)
      (fun output b => output.transactionId = env.transactionId tx ∧ InBody s id k D b)
      (InBody s id k E) := by
  have weaken {C' : TransactionCache → Prop} (hC' : ∀ c, C' c → E c) {α ε : Type}
      {x : Prog (BlockManager H) ε α} (hx : Prog.Keeps (InBody s id k C') x) :
      Prog.Triple (InBody s id k C') x (fun _ => InBody s id k C') (InBody s id k E) :=
    .conseq hx (fun _ h => h) (fun _ _ h => h) fun _ h => ⟨h.sessions, hC' _ h.cache, h.khaos⟩
  refine .bind (weaken hC .get) fun _ => .bind (weaken hC .ofExcept) fun _ => ?_
  refine .bind (R := fun found => InBody s id k fun c => if found then E c else D c) ?_
    fun found => ?_
  · intro b hb
    have hf := hr b.cache hb.cache
    rw [onCache, Prog.zoom]
    rcases hru : TransactionCache.containsRecent (env.transactionId tx) context.now b.cache with
      ⟨e | found, c⟩ <;> rw [hru] at hf
    · exact ⟨hb.sessions, hf, hb.khaos⟩
    · exact ⟨hb.sessions, hf, hb.khaos⟩
  refine .ite (fun hf => .bind (R := fun _ _ => False) (.throw fun b hb => ?_)
    fun _ _ h => h.elim) fun hf => ?_
  · exact ⟨hb.sessions, by have := hb.cache; rwa [if_pos hf] at this, hb.khaos⟩
  -- from he on the cache no longer changes
  refine .conseq (show Prog.Triple (InBody s id k D) _ _ _ from ?_)
    (fun b hb => ⟨hb.sessions, by have := hb.cache; rwa [if_neg hf] at this, hb.khaos⟩)
    (fun _ _ h => h) fun _ h => h
  refine .bind (weaken hD .get) fun b => ?_
  refine .ite (fun _ => .bind (R := fun _ _ => False)
    (.throw fun b hb => ⟨hb.sessions, hD _ hb.cache, hb.khaos⟩) fun _ _ h => h.elim) fun _ => ?_
  refine .bind (weaken hD .ofExcept) fun executed => ?_
  refine .bind (weaken hD (onSessions_mutateAll_keeps _ _)) fun _ => ?_
  exact .bind (weaken hD (onSessions_put_keeps _ _ _ _)) fun _ => .pure fun b hb => ⟨rfl, hb⟩

theorem TransactionCache.Absent.expired {c : TransactionCache} {tx : Hash32} {now : Int}
    (h : c.Absent tx now) : (c.expired now).Absent tx now := by
  refine ⟨fun _ hp => (Option.some.inj hp).ge, ?_⟩
  have := h.2
  simp only [TransactionCache.expired, withOrder, live_live]
  exact this

theorem containsRecent_spec {c : TransactionCache} (hc : c.Valid) (tx : Hash32) (now : Int) :
    match TransactionCache.containsRecent tx now c with
    | (.ok found, c') => if found then c'.Valid else c'.Valid ∧ c'.Absent tx now
    | (.error _, c') => c'.Valid := by
  by_cases ht : c.InTime now
  · rw [TransactionCache.containsRecent_eq hc ht]
    by_cases hf : tx ∈ (TransactionCache.live c.config.ttlMillis now c.order).map Prod.fst
    · rw [decide_eq_true hf]
      exact hc.expired ht
    · rw [decide_eq_false hf]
      exact ⟨hc.expired ht, TransactionCache.Absent.expired ⟨ht, hf⟩⟩
  · obtain ⟨e, hr⟩ : ∃ e, TransactionCache.containsRecent tx now c = (.error e, c) :=
      TransactionCache.containsRecent_of_not_inTime ht
    rw [hr]
    exact hc

/-- **A processed transaction** was not among the live entries of the cache. -/
theorem processInSession_spec (tx : RawWireTransaction) (context : ProcessContext) :
    Prog.Triple (InBody s id k TransactionCache.Valid)
      (processInSession env (some id) tx context)
      (fun output => InBody s id k fun c => c.Valid ∧
        c.Absent output.transactionId context.now)
      (InBody s id k TransactionCache.Valid) := by
  refine .conseq (processInSession_triple
    (fun c hc => containsRecent_spec hc (env.transactionId tx) context.now) (fun _ h => h)
    fun _ h => h.1) (fun _ h => h) (fun output b h => ?_) fun _ h => h
  rw [h.1]
  exact h.2

theorem onCache_insert_spec (f : CacheError → ε) (tx : Hash32) (block now : Int) :
    Prog.Triple (InBody (H := H) s id k fun c => c.Valid ∧ c.Absent tx now)
      (onCache f (TransactionCache.insert tx block now))
      (fun _ => InBody s id k TransactionCache.Valid)
      (InBody s id k TransactionCache.Valid) := by
  intro b hb
  obtain ⟨hv, ht, ha⟩ := hb.cache
  by_cases hbl : b.cache.InOrder block
  · rw [onCache, Prog.zoom_of_ok (TransactionCache.insert_eq hv ht hbl ha)]
    exact ⟨hb.sessions, hv.inserted ht ha, hb.khaos⟩
  · obtain ⟨e, hr⟩ := TransactionCache.insert_of_not_inOrder hbl
    rw [onCache, Prog.zoom_of_error hr]
    exact ⟨hb.sessions, hv, hb.khaos⟩

theorem processPending_keeps (tx : RawWireTransaction) (context : ProcessContext) :
    Prog.Keeps (InBody s id k TransactionCache.Valid)
      (processPending env (some id) tx context) := by
  refine Prog.Triple.bind
    (R := fun before b => before.cache.Valid ∧ InBody s id k TransactionCache.Valid b)
    (.get fun b hb => ⟨hb.cache, hb⟩) fun before b hb => ?_
  obtain ⟨hbe, hb⟩ := hb
  revert b
  refine Prog.Keeps.bind (.attempt ?_) fun result => ?_
  · refine Prog.Triple.bind (processInSession_spec tx context) fun output => ?_
    refine Prog.Triple.bind (onCache_insert_spec _ output.transactionId _ context.now) fun _ => ?_
    exact Prog.Keeps.bind (onSessions_put_keeps _ _ _ _) fun _ => .pure
  · cases result with
    | ok output => exact .pure
    | error error =>
      exact .bind (.modify fun b hb => ⟨hb.sessions, hbe, hb.khaos⟩) fun _ => .throw

theorem applyTransactions_keeps (raw : RawHeader) (now : Int) (index : Nat)
    (txs : List (Bytes × Transaction × Option RawWireTransaction)) :
    Prog.Keeps (InBody s id k TransactionCache.Valid)
      (applyTransactions env (some id) raw now index txs) := by
  induction txs generalizing index with
  | nil => exact .pure
  | cons entry rest ih =>
    obtain ⟨bytes, message, decoded⟩ := entry
    refine Prog.Keeps.bind .ofExcept fun tx => .bind .get fun before => ?_
    refine Prog.Triple.bind (.mapError (processInSession_spec tx _)) fun output => ?_
    refine .ite (fun _ => .bind (R := fun _ _ => False) (.throw fun b hb => ?_)
      fun _ _ h => h.elim) fun _ => ?_
    · exact ⟨hb.sessions, hb.cache.1, hb.khaos⟩
    refine .bind (onCache_insert_spec _ output.transactionId raw.number now) fun _ => ?_
    exact Prog.Keeps.bind (onSessions_put_keeps _ _ _ _) fun _ => .bind (ih _) fun _ => .pure

theorem applyIn_keeps (block : RawBlock) (now : Int) (raw : RawHeader) :
    Prog.Keeps (InBody s id k TransactionCache.Valid)
      (applyIn env (some id) block now raw) := by
  refine .bind (applyTransactions_keeps raw now 0 _) fun result => ?_
  refine .ite (fun _ => .bind .throw fun _ => ?_) fun _ => ?_
  all_goals
    refine .ite (fun _ => .bind .get fun _ => .bind .ofExcept fun _ => ?_) fun _ => .pure
    exact .ite (fun _ => .bind .throw fun _ => .pure) fun _ => .pure

/-- The transactions of a block, as `apply_in` goes through them. -/
def RawBlock.entries (block : RawBlock) : List (Bytes × Transaction × Option RawWireTransaction) :=
  block.transactionBytes.zip (block.messageTransactions.zip block.transactions)

theorem applyTransactions_decoded (session : Session) (raw : RawHeader) (now : Int) (index : Nat)
    (txs : List (Bytes × Transaction × Option RawWireTransaction)) :
    Prog.Returns (applyTransactions env session raw now index txs)
      fun _ => ∀ entry ∈ txs, ∃ tx, decodedTransaction env entry.1 entry.2.2 = .ok tx := by
  induction txs generalizing index with
  | nil => exact .pure nofun
  | cons entry rest ih =>
    refine .bind (.ofExcept fun tx htx => htx) fun tx htx => ?_
    refine .bind_any fun b => .bind_any fun output => .ite (fun _ => ?_) fun _ => ?_
    · exact .bind (R := fun _ => False) .throw fun _ h => h.elim
    · refine .bind_any fun _ => .bind_any fun _ => .bind (ih (index + 1)) fun _ hr => .pure ?_
      rintro entry' (_ | ⟨_, hm⟩)
      · exact ⟨tx, htx⟩
      · exact hr entry' hm

/-- The block that `apply_in` leaves, and what it has decoded. -/
def LeftBy (env : Environment H) (block left : RawBlock) : Prop :=
  (∃ transactions, left = { block with transactions := transactions }) ∧
    ∀ entry ∈ block.entries, ∃ tx, decodedTransaction env entry.1 entry.2.2 = .ok tx

theorem applyIn_left (session : Session) (block : RawBlock) (now : Int) (raw : RawHeader) :
    Prog.Returns (applyIn env session block now raw) fun r => LeftBy env block r.2 := by
  refine .bind (applyTransactions_decoded session raw now 0 _) fun result hd => ?_
  have hl {outputs : List ProcessOutput} {transactions : List (Option RawWireTransaction)} :
      LeftBy env block
        (outputs, ({ block with transactions := transactions } : RawBlock)).2 :=
    ⟨⟨_, rfl⟩, hd⟩
  refine .ite (fun _ => .bind (R := fun _ => False) .throw fun _ h => h.elim) fun _ => ?_
  refine .ite (fun _ => .bind_any fun _ => .bind_any fun _ => ?_) fun _ => .pure hl
  exact .ite (fun _ => .bind (R := fun _ => False) .throw fun _ h => h.elim) fun _ => .pure hl

theorem blockBody_left (session : Session) (block : RawBlock) (id : BlockId) (now : Int)
    (raw : RawHeader) :
    Prog.Returns (blockBody env session block id now raw) (LeftBy env block) := by
  refine .bind (applyIn_left session block now raw) fun result hl => ?_
  exact .bind_any fun _ => .bind_any fun _ => .bind_any fun _ => .bind_any fun _ =>
    .bind_any fun _ => .bind_any fun _ => .bind_any fun _ => .pure hl

theorem blockBody_keeps (block : RawBlock) (blockId : BlockId) (now : Int) (raw : RawHeader) :
    Prog.Keeps (InBody s id k TransactionCache.Valid)
      (blockBody env (some id) block blockId now raw) := by
  refine .bind (applyIn_keeps block now raw) fun result => ?_
  refine .bind (callHook_keeps _) fun _ => .bind (callHook_keeps _) fun _ =>
    .bind (callHook_keeps _) fun _ => .bind (callHook_keeps _) fun _ =>
    .bind (callHook_keeps _) fun _ => ?_
  exact .bind (onSessions_mutateAll_keeps _ _) fun _ => .bind (callHook_keeps _) fun _ => .pure

end Body

/-! ## The checks -/

/-- What a block that passes the checks of `apply_block_mode` is known to be. -/
structure Checked (env : Environment H) (b : BlockManager H) (block : RawBlock) (retained : Bool)
    (id : BlockId) (raw : RawHeader) : Prop where
  header : block.rawHeader = some raw
  id_eq : id = BlockId.new raw.number (env.digest block.rawHeaderBytes)
  wire : block.messageTransactions.map (·.encoded) = block.transactionBytes
  contained : retained = true → b.khaos.containBlockInMiniStore id = true
  new : retained = false → b.khaos.containBlock id = false ∧
    b.sessions.readView.lookup ⟨.block, id.bytes⟩ = none
  head : ∃ head, b.khaos.getHead = some head ∧ raw.parentHash = head.id.bytes ∧
    checkedAdd head.number 1 = some raw.number ∧
    (retained = false → (b.khaos.linked.getByHash head.id).isSome = true)

theorem guard_eq_ok {α : Type} {c : Prop} [Decidable c] {e : ε} {x : Except ε α} {a : α} :
    (if c then Except.error e else x) = .ok a ↔ ¬ c ∧ x = .ok a := by
  split <;> simp_all

theorem checkHeader_eq_ok {b : BlockManager H} {block : RawBlock} {header : BlockHeader}
    {raw : RawHeader} {now : Int} {head : KhaosBlockData ManagedBlock}
    (h : b.checkHeader env block header raw now = .ok head) :
    b.khaos.getHead = some head ∧ raw.parentHash = head.id.bytes ∧
      checkedAdd head.number 1 = some raw.number := by
  simp only [BlockManager.checkHeader, bind, Except.bind, throw, throwThe, MonadExceptOf.throw,
    pure, Except.pure] at h
  repeat' split at h
  all_goals simp_all

theorem checkBlock_eq_ok {b : BlockManager H} {block : RawBlock} {now : Int} {retained : Bool}
    {id : BlockId} {raw : RawHeader} (h : b.checkBlock env block now retained = .ok (id, raw)) :
    Checked env b block retained id raw := by
  simp only [BlockManager.checkBlock, bind, Except.bind, throw, throwThe, MonadExceptOf.throw,
    pure, Except.pure] at h
  rcases hh : block.blockHeader with _ | header <;> simp only [hh] at h
  · cases h
  rcases hr : header.rawData with _ | raw' <;> simp only [hr] at h
  · cases h
  have hhea : block.rawHeader = some raw' := by simp [RawBlock.rawHeader, hh, hr]
  rcases hk : b.checkHeader env block header raw' now with e | head
  · cases retained <;> simp only [hk, guard_eq_ok, Bool.false_eq_true, if_false, if_true,
      reduceCtorEq, and_false] at h
  have hhe := checkHeader_eq_ok hk
  cases retained with
  | true =>
    simp only [hk, guard_eq_ok, if_true, Bool.not_true, Bool.false_eq_true, if_false] at h
    obtain ⟨-, hw, hc, -, -, -, -, heq⟩ := h
    cases heq
    exact ⟨hhea, rfl, not_not.mp hw, fun _ => by simpa using hc, nofun, head,
      hhe.1, hhe.2.1, hhe.2.2, nofun⟩
  | false =>
    simp only [hk, guard_eq_ok, if_true, Bool.not_false, Bool.false_eq_true, if_false] at h
    obtain ⟨-, hw, hn, -, -, -, -, heq⟩ := h
    split at heq
    · cases heq
    rename_i hre
    have hl : (b.khaos.linked.getByHash head.id).isSome = true := by
      rw [KhaosDatabase.checkLinkedResource] at hre
      split at hre
      · cases hre
      · simp_all
    cases heq
    exact ⟨hhea, rfl, not_not.mp hw, nofun, fun _ => by simpa using hn, head,
      hhe.1, hhe.2.1, hhe.2.2, fun _ => hl⟩

/-! ## The whole block -/

/-- The block as Khaos holds it. -/
def khaosData (id : BlockId) (parent : Hash32) (raw : RawHeader) (block : RawBlock) (now : Int) :
    KhaosBlockData ManagedBlock :=
  ⟨id, parent, raw.number, ⟨block, id, now⟩⟩

/-- What is left of Khaos after the block `bid` with the header `raw` failed. -/
inductive KhaosAfterFailure (db : KhaosDatabase ManagedBlock) (block : RawBlock) (bid : BlockId)
    (raw : RawHeader) (retained : Bool) : KhaosDatabase ManagedBlock → Prop
  | untouched : KhaosAfterFailure db block bid raw retained db
  | refused {parent : Hash32} {now : Int} {e : KhaosError}
      {db' : KhaosDatabase ManagedBlock} (hretained : retained = false)
      (hparent : Hash32.ofBytes? raw.parentHash = some parent)
      (hpush : KhaosDatabase.push (khaosData bid parent raw block now) db = (.error e, db')) :
      KhaosAfterFailure db block bid raw retained db'
  | removed {parent : Hash32} {now : Int} {db' : KhaosDatabase ManagedBlock}
      (hretained : retained = false) (hparent : Hash32.ofBytes? raw.parentHash = some parent)
      (hpush : KhaosDatabase.push (khaosData bid parent raw block now) db = (.ok (), db')) :
      KhaosAfterFailure db block bid raw retained (KhaosDatabase.removeBlk bid db').2

/-- The state in which a block failed after its session was opened over `s`. -/
structure FailedOver (s : Sessions) (k : KhaosDatabase ManagedBlock) (block : RawBlock)
    (bid : BlockId) (raw : RawHeader) (retained : Bool) (b' : BlockManager H) : Prop where
  sessions : b'.sessions = s
  cache : b'.cache.Valid
  khaos : KhaosAfterFailure k block bid raw retained b'.khaos

/-- The state after a block was applied in its session `id` over `s`. -/
structure Committed (s : Sessions) (id : Nat) (k : KhaosDatabase ManagedBlock) (block : RawBlock)
    (now : Int) (retained : Bool) (bid : BlockId) (raw : RawHeader) (b' : BlockManager H) :
    Prop where
  number : 0 ≤ raw.number
  fits : ¬ s.Clashes ⟨raw.number.toNat, bid⟩
  sessions : ∃ values, b'.sessions = s.commitTop id values ⟨raw.number.toNat, bid⟩
  cache : b'.cache.Valid
  khaos : if retained then KhaosDatabase.setHead bid k = (.ok (), b'.khaos)
    else ∃ parent, Hash32.ofBytes? raw.parentHash = some parent ∧
      KhaosDatabase.push (khaosData bid parent raw block now) k = (.ok (), b'.khaos)

/-- `b'` is `b` with one more block applied: a committed layer, its checkpoint, and the head of
Khaos. -/
structure Applied (env : Environment H) (b b' : BlockManager H) (block : RawBlock) (now : Int)
    (retained : Bool) (id : BlockId) (raw : RawHeader) : Prop where
  checked : Checked env b block retained id raw
  decoded : ∀ entry ∈ block.entries, ∃ tx, decodedTransaction env entry.1 entry.2.2 = .ok tx
  committed : ∃ transactions, Committed b.sessions.bump b.sessions.nextId b.khaos
    { block with transactions := transactions } now retained id raw b'

/-- `b'` is `b` after a block that failed: its session is gone again. -/
structure Failed (env : Environment H) (b b' : BlockManager H) (block : RawBlock)
    (retained : Bool) : Prop where
  sessions : b'.sessions = b.sessions ∨ b'.sessions = b.sessions.bump
  cache : b'.cache.Valid
  khaos : b'.khaos = b.khaos ∨ ∃ left bid raw, Checked env b block retained bid raw ∧
    left.rawHeader = some raw ∧ 0 ≤ raw.number ∧
    KhaosAfterFailure b.khaos left bid raw retained b'.khaos

section Apply

variable {s : Sessions} {id : Nat} {values : Overlay} {b : BlockManager H}

theorem onSessions_of_ok {α : Type} {f : SessionError → ε} {x : SessionM α} {a : α} {t : Sessions}
    (h : x b.sessions = (.ok a, t)) : onSessions f x b = (.ok a, { b with sessions := t }) :=
  Prog.zoom_of_ok h

theorem onSessions_of_error {α : Type} {f : SessionError → ε} {x : SessionM α} {e : SessionError}
    {t : Sessions} (h : x b.sessions = (.error e, t)) :
    onSessions f x b = (.error (f e), { b with sessions := t }) :=
  Prog.zoom_of_error h

/-- A session of the manager, over the tidy stack `s`. -/
structure Opened (s : Sessions) (id : Nat) : Prop where
  tidy : s.Tidy
  fresh : ∀ l ∈ s.layers, l.id ≠ id
  taken : id < s.nextId

theorem Opened.of_bump (h : s.Tidy) : Opened s.bump s.nextId where
  tidy := h.bump
  fresh := h.ne_nextId
  taken := Nat.lt_succ_self _

theorem abandonBlock_run (hs : Opened s id) (hb : b.sessions = s.withTop id values)
    (cache : TransactionCache) (error : BlockApplyError) :
    BlockManager.abandonBlock cache (some id) error b =
      (.error error, { b with sessions := s, cache := cache }) := by
  have hr : Session.revoke (some id) b.sessions = (.ok (), s) := by
    rw [hb]
    exact Sessions.revoke_withTop hs.tidy hs.fresh
  simp only [BlockManager.abandonBlock, Prog.bind_run, Prog.modify_run, Prog.attempt, onSessions,
    Prog.zoom, hr, Prog.throw_run]

theorem dropSession_run (hs : Opened s id) (hb : b.sessions = s.withTop id values)
    (f : SessionError → ε) :
    onSessions f (Session.drop (some id)) b = (.ok (), { b with sessions := s }) := by
  refine onSessions_of_ok ?_
  rw [hb]
  exact Sessions.drop_withTop hs.tidy hs.fresh

theorem linkBlock_spec (hs : Opened s id) (hb : b.sessions = s.withTop id values)
    (cache : TransactionCache) (block : RawBlock) (bid : BlockId) (now : Int) (raw : RawHeader) :
    match BlockManager.linkBlock cache (some id) block bid now raw b with
    | (.ok (), b') => ∃ parent k, Hash32.ofBytes? raw.parentHash = some parent ∧
        KhaosDatabase.push (khaosData bid parent raw block now) b.khaos = (.ok (), k) ∧
        b' = { b with khaos := k }
    | (.error _, b') => b'.sessions = s ∧ (b'.cache = b.cache ∨ b'.cache = cache) ∧
        KhaosAfterFailure b.khaos block bid raw false b'.khaos := by
  unfold BlockManager.linkBlock
  cases hpa : Hash32.ofBytes? raw.parentHash with
  | none =>
    have hd := dropSession_run hs hb fun e => BlockApplyError.state e.toText
    simp only [Prog.bind_run, hd, Prog.throw_run]
    exact ⟨trivial, .inl trivial, .untouched⟩
  | some parent =>
    rcases hp : KhaosDatabase.push (khaosData bid parent raw block now) b.khaos with ⟨e | _, k⟩
    · have ha := abandonBlock_run (b := { b with khaos := k }) hs hb cache (.graph e.toText)
      have hk : KhaosAfterFailure b.khaos block bid raw false k := .refused rfl hpa hp
      rw [khaosData] at hp
      simp only [Prog.bind_run, Prog.attempt, onKhaos, Prog.zoom, hp, ha]
      exact ⟨trivial, .inr trivial, hk⟩
    · have hk := hp
      rw [khaosData] at hp
      simp only [Prog.bind_run, Prog.attempt, onKhaos, Prog.zoom, hp, Prog.pure_run]
      exact ⟨parent, k, rfl, hk, rfl⟩

theorem commitBlock_run (hs : Opened s id) (hb : b.sessions = s.withTop id values)
    {cache : TransactionCache} {bid : BlockId} {raw : RawHeader} {retained : Bool}
    (hf : ¬ s.Clashes ⟨raw.number.toNat, bid⟩) :
    BlockManager.commitBlock cache (some id) bid raw retained b =
      (if retained then onKhaos (fun e => .graph e.toText) (KhaosDatabase.setHead bid)
        else pure ()) { b with sessions := s.commitTop id values ⟨raw.number.toNat, bid⟩ } := by
  have hc : Session.commitWithCheckpoint (some id) ⟨raw.number.toNat, bid⟩ b.sessions =
      (.ok (), s.commitTop id values ⟨raw.number.toNat, bid⟩) := by
    rw [hb]
    exact Sessions.commitWithCheckpoint_withTop hs.tidy hs.fresh hf hs.taken
  simp only [BlockManager.commitBlock, Prog.bind_run, Prog.attempt, onSessions, Prog.zoom, hc]

theorem commitBlock_clash (hs : Opened s id) (hb : b.sessions = s.withTop id values)
    (cache : TransactionCache) {bid : BlockId} {raw : RawHeader} (retained : Bool)
    (hcl : s.Clashes ⟨raw.number.toNat, bid⟩) :
    ∃ e, BlockManager.commitBlock cache (some id) bid raw retained b =
      (.error e, { b with
        sessions := s
        cache := cache
        khaos := if retained then b.khaos else (KhaosDatabase.removeBlk bid b.khaos).2 }) := by
  have hc : Session.commitWithCheckpoint (some id) ⟨raw.number.toNat, bid⟩ b.sessions =
      (.error .invalidSession, b.sessions) := by
    rw [hb]
    exact Sessions.commitWithCheckpoint_clash hs.fresh hcl
  have hd := dropSession_run (b := { b with
    cache := cache
    khaos := if retained then b.khaos else (KhaosDatabase.removeBlk bid b.khaos).2 }) hs hb
    fun e => BlockApplyError.state e.toText
  simp only [BlockManager.commitBlock, Prog.bind_run, Prog.attempt, onSessions, Prog.zoom, hc,
    Prog.modify_run, Prog.throw_run] at hd ⊢
  rw [hd]
  exact ⟨_, rfl⟩

theorem commitBlock_spec (hs : Opened s id) (hb : b.sessions = s.withTop id values)
    {cache : TransactionCache} (hca : b.cache.Valid) (hbe : cache.Valid) (bid : BlockId)
    (raw : RawHeader) :
    match BlockManager.commitBlock cache (some id) bid raw false b with
    | (.ok (), b') => ¬ s.Clashes ⟨raw.number.toNat, bid⟩ ∧
        b'.sessions = s.commitTop id values ⟨raw.number.toNat, bid⟩ ∧ b'.cache.Valid ∧
        b'.khaos = b.khaos
    | (.error _, b') => b'.sessions = s ∧ b'.cache.Valid ∧
        b'.khaos = (KhaosDatabase.removeBlk bid b.khaos).2 := by
  by_cases hc : s.Clashes ⟨raw.number.toNat, bid⟩
  · obtain ⟨e, hr⟩ := commitBlock_clash hs hb cache false hc
    rw [hr]
    exact ⟨rfl, hbe, rfl⟩
  · rw [commitBlock_run hs hb hc]
    exact ⟨hc, rfl, hca, rfl⟩

theorem commitBlock_retained_spec (hs : Opened s id) (hb : b.sessions = s.withTop id values)
    {cache : TransactionCache} (hca : b.cache.Valid) (hbe : cache.Valid) (block : RawBlock)
    (bid : BlockId) (raw : RawHeader) (hr : b.khaos.containBlockInMiniStore bid = true) :
    match BlockManager.commitBlock cache (some id) bid raw true b with
    | (.ok (), b') => ¬ s.Clashes ⟨raw.number.toNat, bid⟩ ∧
        b'.sessions = s.commitTop id values ⟨raw.number.toNat, bid⟩ ∧ b'.cache.Valid ∧
        KhaosDatabase.setHead bid b.khaos = (.ok (), b'.khaos)
    | (.error _, b') => FailedOver s b.khaos block bid raw true b' := by
  by_cases hc : s.Clashes ⟨raw.number.toNat, bid⟩
  · obtain ⟨e, hru⟩ := commitBlock_clash hs hb cache true hc
    rw [hru]
    exact ⟨rfl, hbe, .untouched⟩
  · obtain ⟨node, hn⟩ := Option.isSome_iff_exists.mp hr
    have hh : KhaosDatabase.setHead bid b.khaos = (.ok (), { b.khaos with head := some node }) := by
      simp only [KhaosDatabase.setHead, hn]
    rw [commitBlock_run hs hb hc]
    simp only [if_true, onKhaos, Prog.zoom, hh]
    exact ⟨hc, trivial, hca, trivial⟩

theorem finishBlock_spec (hs : Opened s id) (hb : b.sessions = s.withTop id values)
    {cache : TransactionCache} (hc : b.cache.Valid) (hbe : cache.Valid) (block : RawBlock)
    (bid : BlockId) (now : Int) (raw : RawHeader) (retained : Bool)
    (hr : retained = true → b.khaos.containBlockInMiniStore bid = true) :
    match BlockManager.finishBlock cache (some id) block bid now raw retained b with
    | (.ok (), b') => Committed s id b.khaos block now retained bid raw b'
    | (.error _, b') => FailedOver s b.khaos block bid raw retained b' ∧
        (0 ≤ raw.number ∨ b'.khaos = b.khaos) := by
  unfold BlockManager.finishBlock
  by_cases hn : raw.number < 0
  · have hd := dropSession_run hs hb fun e => BlockApplyError.state e.toText
    rw [if_pos hn]
    simp only [Prog.bind_run, hd, Prog.throw_run]
    exact ⟨⟨rfl, hc, .untouched⟩, .inr trivial⟩
  rw [if_neg hn]
  cases retained with
  | true =>
    have hsp := commitBlock_retained_spec hs hb hc hbe block bid raw (hr rfl)
    simp only [Bool.not_true, Bool.false_eq_true, if_false]
    rcases hru : BlockManager.commitBlock cache (some id) bid raw true b with ⟨e | _, b'⟩ <;>
      rw [hru] at hsp
    · exact ⟨hsp, .inl (not_lt.mp hn)⟩
    · exact ⟨not_lt.mp hn, hsp.1, ⟨_, hsp.2.1⟩, hsp.2.2.1, hsp.2.2.2⟩
  | false =>
    have hl := linkBlock_spec hs hb cache block bid now raw
    simp only [Bool.not_false, if_true, Prog.bind_run]
    rcases hru : BlockManager.linkBlock cache (some id) block bid now raw b with ⟨e | _, b₁⟩ <;>
      rw [hru] at hl
    · refine ⟨⟨hl.1, ?_, hl.2.2⟩, .inl (not_lt.mp hn)⟩
      rcases hl.2.1 with h | h <;> rw [h] <;> assumption
    obtain ⟨parent, k, hp, hpu, rfl⟩ := hl
    have hsp := commitBlock_spec (b := { b with khaos := k }) hs hb hc hbe bid raw
    rcases hco : BlockManager.commitBlock cache (some id) bid raw false
      { b with khaos := k } with ⟨e | _, b'⟩ <;> rw [hco] at hsp <;> simp only [hco]
    · refine ⟨⟨hsp.1, hsp.2.1, ?_⟩, .inl (not_lt.mp hn)⟩
      rw [hsp.2.2]
      exact .removed rfl hp hpu
    · refine ⟨not_lt.mp hn, hsp.1, ⟨_, hsp.2.1⟩, hsp.2.2.1, parent, hp, ?_⟩
      rw [hsp.2.2.2]
      exact hpu

theorem buildSessionEnabled_run (h : b.sessions.Quiescent) (f : SessionError → ε) :
    onSessions f Sessions.buildSessionEnabled b = (.ok (some b.sessions.nextId),
      { b with sessions := b.sessions.bump.withTop b.sessions.nextId ∅ }) :=
  onSessions_of_ok (Sessions.buildRoot_eq h.enabled h.active true)

/-- **Applying a block** to a quiescent manager adds one committed layer and its checkpoint, or
fails and leaves the stack as it was. -/
theorem applyBlockMode_spec (env : Environment H) (hq : b.sessions.Quiescent)
    (hc : b.cache.Valid) (block : RawBlock) (now : Int) (retained : Bool) :
    match BlockManager.applyBlockMode env block now retained b with
    | (.ok bid, b') => ∃ raw, Applied env b b' block now retained bid raw
    | (.error _, b') => Failed env b b' block retained := by
  unfold BlockManager.applyBlockMode
  rw [Prog.bind_of_ok (Prog.get_run b)]
  rcases hche : b.checkBlock env block now retained with e | ⟨bid, raw⟩
  · exact ⟨.inl rfl, hc, .inl rfl⟩
  have hch := checkBlock_eq_ok hche
  rw [Prog.bind_of_ok (Prog.ofExcept_ok_run _ (bid, raw) b)]
  dsimp only
  rw [Prog.bind_of_ok (buildSessionEnabled_run hq _)]
  have hs : Opened b.sessions.bump b.sessions.nextId := .of_bump hq.toTidy
  have hk : Prog.Keeps (InBody b.sessions.bump b.sessions.nextId b.khaos _)
      (blockBody env (some b.sessions.nextId) block bid now raw) :=
    blockBody_keeps block bid now raw
  have hb := hk.state (s := { b with
    sessions := b.sessions.bump.withTop b.sessions.nextId ∅ }) ⟨⟨_, rfl⟩, hc, rfl⟩
  rcases hr : blockBody env (some b.sessions.nextId) block bid now raw
    { b with sessions := b.sessions.bump.withTop b.sessions.nextId ∅ } with ⟨e | left, b₁⟩ <;>
    rw [hr] at hb <;> obtain ⟨⟨values, hb₁⟩, hc₁, hk₁⟩ := hb <;>
    rw [Prog.bind_of_ok (Prog.attempt_of_eq hr)] <;> dsimp only at hb₁ hc₁ hk₁ ⊢
  · rw [Prog.bind_of_error (abandonBlock_run hs hb₁ b.cache e)]
    exact ⟨.inr rfl, hc, .inl hk₁⟩
  · obtain ⟨⟨transactions, rfl⟩, hd⟩ := blockBody_left _ _ _ _ _ _ _ _ hr
    have hfi := finishBlock_spec hs hb₁ hc₁ hc { block with transactions := transactions } bid
      now raw retained (by rw [hk₁]; exact hch.contained)
    rcases hfin : BlockManager.finishBlock b.cache (some b.sessions.nextId)
      { block with transactions := transactions } bid now raw retained b₁ with ⟨e | _, b'⟩ <;>
      rw [hfin, hk₁] at hfi
    · obtain ⟨hf, hn⟩ := hfi
      rw [Prog.bind_of_error hfin]
      refine ⟨.inr hf.sessions, hf.cache, ?_⟩
      rcases hn with hn | hsa
      · exact .inr ⟨{ block with transactions := transactions }, bid, raw, hch,
          hch.header, hn, hf.khaos⟩
      · exact .inl hsa
    · rw [Prog.bind_of_ok hfin]
      exact ⟨raw, hch, hd, transactions, hfi⟩

theorem applied_of_applyBlock {b' : BlockManager H} {block : RawBlock} {now : Int} {bid : BlockId}
    (hq : b.sessions.Quiescent) (hc : b.cache.Valid)
    (h : BlockManager.applyBlock env block now b = (.ok bid, b')) :
    ∃ raw, Applied env b b' block now false bid raw := by
  have hs := applyBlockMode_spec env hq hc block now false
  rwa [← BlockManager.applyBlock, h] at hs

end Apply

end RustTron.Execution
