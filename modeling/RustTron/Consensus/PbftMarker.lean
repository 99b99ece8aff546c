import RustTron.Consensus.PbftNode
import RustTron.Consensus.Certificates

/-!
# The PBFT marker

The sidecar votes on what its context expects, and the runtime expects whatever comes in: nothing
compares a proposal with the chain of the node. So the commits of a node are for its own blocks as
long as no PREPREPARE for another one opens a round, and the marker has a checkpoint as long as no
rewind drops a block with a round or the marker, and no restart goes back behind the marker.

## Main definitions

* `ProposalIdentity.Names`, `CommitData.Names`: what a proposal and a commit are for
* `PbftNode.Opens`: a PREPREPARE that opens a round
* `NodeStep.Permitted`: the steps that keep to the chain
* `PbftNode.Inv`, `PbftNode.Reachable`: the invariant, and the runs

## Main results

* `PbftNode.Inv.run`: what one step keeps
* `PbftNode.Reachable.marker_known`: commits and the marker, over every run of permitted steps
* `not_marker_known_ahead`: a run in which the marker is ahead of the chain
-/

namespace RustTron.Consensus.Pbft

open State

variable {Key : Type}

/-! ## Proposals and blocks -/

/-- The proposal is for this block. -/
def ProposalIdentity.Names (p : ProposalIdentity) (point : CursorPoint) : Prop :=
  p.viewN.toInt = point.block ∧ p.data = point.identity.bytes

/-- A proposal for a block is for one of the chain. -/
def ProposalIdentity.OnChain (chain : List CursorPoint) (p : ProposalIdentity) : Prop :=
  p.dataType = .block → ∃ point ∈ chain, p.Names point

/-- The commit is for this block. -/
def CommitData.Names (data : CommitData) (point : CursorPoint) : Prop :=
  data.number.toInt = point.block ∧
    data.raw = Raw.bytes ⟨.commit, .block, data.number, data.epoch, point.identity.bytes⟩

/-- The number of the proposals for a block. -/
def blockNo (number : Nat) : Bytes := decimal number ++ 0x5f :: decimal 0

theorem ProposalIdentity.Names.no_eq {p : ProposalIdentity} {point : CursorPoint}
    (h : p.Names point) (hk : p.dataType = .block) : p.no = blockNo point.block := by
  rw [ProposalIdentity.no, Raw.no, ProposalIdentity.raw]
  dsimp only
  rw [h.1, hk]
  rfl

theorem CommitData.names_of_certified {crypto : Crypto Key} {V : Bytes → SignedMessage → Prop}
    {need : Nat} {data : CommitData} {identity : ProposalIdentity}
    {votes : List (Bytes × SignedMessage)} {chain : List CursorPoint}
    (h : CertifiedBy crypto V need data identity votes) (hc : identity.OnChain chain)
    (hk : data.dataType = .block) : ∃ point ∈ chain, data.Names point := by
  have hb : identity.dataType = .block := h.kind ▸ hk
  obtain ⟨point, hm, hn, hd⟩ := hc hb
  refine ⟨point, hm, ?_, ?_⟩
  · rw [h.number]
    exact hn
  · rw [h.bytes, h.number, h.epoch, ← hd, ProposalIdentity.raw, hb]

/-! ## The sidecar -/

/-- Every vote will do. -/
def anyVote (_ : Bytes) (_ : SignedMessage) : Prop := True

/-- **A message of the network**: where it opens a round, its proposal must be allowed. -/
theorem yields_handle {crypto : Crypto Key} {R : ProposalIdentity → Prop}
    (context : PbftContext Key) (m : SignedMessage) {s : PbftSidecar}
    (hs : s.Sound crypto anyVote R)
    (ho : ∀ w, m.recoverWitness crypto = .ok w → w ∈ context.committee m.raw.epoch →
      m.raw.msgType = .preprepare → m.raw.no ∉ (PbftSidecar.expire context.nowMillis s).rounds →
      m.raw.no ∉ (PbftSidecar.expire context.nowMillis s).completed → R m.raw.identity) :
    ∃ s₁, Yields crypto anyVote R context s₁ (returned (PbftSidecar.handle crypto m context s).1)
      (PbftSidecar.handle crypto m context s).2 := by
  have hs' := hs.expire context.nowMillis
  have hsig : Signs crypto anyVote R context := fun _ _ _ _ => trivial
  rcases handle_cases crypto m context s with ⟨e, hr⟩ | ⟨w, hsi, hm, hr⟩
  · rw [hr]
    exact ⟨_, .refl hs'⟩
  · rw [hr]
    rcases dispatch_cases crypto m (some w) context (PbftSidecar.expire context.nowMillis s) with
      hn | ⟨-, hk, -⟩ | ⟨w', hw', hk, hp⟩ | ⟨w', hw', hk, hp⟩
    · rw [hn]
      exact ⟨_, .refl hs'⟩
    · have hw : ∀ w', some w = some w' →
          m.recoverWitness crypto = .ok w' ∧ anyVote w' m := by
        intro w' hw'
        cases hw'
        exact ⟨hsi, trivial⟩
      obtain ⟨s₁, -, -, hy⟩ := yields_dispatch hsig hs' hw
        fun _ _ hro hc _ => ho w hsi hm hk hro hc
      exact ⟨s₁, hy.mono fun _ _ _ => trivial⟩
    · rw [hp]
      exact ⟨_, (emits_prepare hsig ⟨hk, Option.some.inj hw' ▸ hsi, trivial⟩).run hs'⟩
    · rw [hp]
      exact ⟨_, (emits_commit ⟨hk, Option.some.inj hw' ▸ hsi, trivial⟩).run hs'⟩

/-! ## The marker row -/

/-- A marker row holds the number of a block of the chain. -/
def Marked (chain : List CursorPoint) (rows : Image) : Prop :=
  ∀ bytes, rows.lookup CursorSet.pbftMarker = some bytes →
    ∃ point ∈ chain, fromBe64 bytes = some (point.block : Int)

/-- The sessions `t` differ from `s` in the rows of the root, and have no smaller marker. -/
structure Persisted (chain : List CursorPoint) (s t : Sessions) : Prop where
  same : ∃ rows faults, t = { s with root := { s.root with rows := rows, faults := faults } }
  marked : Marked chain s.root.rows → Marked chain t.root.rows
  latest : latestPbftBlock s.root.rows ≤ latestPbftBlock t.root.rows

theorem Persisted.refl (chain : List CursorPoint) (s : Sessions) : Persisted chain s s :=
  ⟨⟨s.root.rows, s.root.faults, rfl⟩, id, le_rfl⟩

theorem Persisted.trans {chain : List CursorPoint} {s t u : Sessions} (h : Persisted chain s t)
    (h' : Persisted chain t u) : Persisted chain s u := by
  obtain ⟨rows, faults, rfl⟩ := h.same
  obtain ⟨rows', faults', rfl⟩ := h'.same
  exact ⟨⟨rows', faults', rfl⟩, fun hs => h'.marked (h.marked hs), h.latest.trans h'.latest⟩

theorem lookup_withCommit (key value : Bytes) (advanced : Option Int) (rows : Image) :
    (withCommit key value advanced rows).lookup CursorSet.pbftMarker =
      (advanced.map be64).or (rows.lookup CursorSet.pbftMarker) := by
  cases advanced with
  | some cursor => exact Finmap.lookup_insert _
  | none =>
    apply Finmap.lookup_insert_of_ne
    intro heq
    cases congrArg RowKey.store heq

/-- **What is persisted**: the marker is raised to a number of the chain, or left alone. -/
theorem persisted_persistAtomic {chain : List CursorPoint} (key value : Bytes)
    {candidate : Option Int} (hc : ∀ number ∈ candidate, InI64 number ∧
      ∃ point ∈ chain, number = point.block) (s : Sessions) :
    Persisted chain s (persistAtomic key value candidate s).2 := by
  rw [persistAtomic, Prog.bind_of_ok (Prog.get_run s)]
  generalize ha : candidate.filter
    (fun candidate => latestPbftBlock s.root.rows < candidate) = advanced
  rcases CheckpointStack.commitBatch_cases
      (fun root => { root with rows := withCommit key value advanced root.rows }) s with
    ⟨faults, hb⟩ | ⟨e, faults, hb⟩
  · rw [Prog.bind_of_ok hb]
    have hl := lookup_withCommit key value advanced s.root.rows
    refine ⟨⟨_, faults, rfl⟩, ?_, ?_⟩
    · intro hm bytes hby
      rw [Prog.pure_run, hl] at hby
      cases advanced with
      | none => exact hm bytes hby
      | some cursor =>
        obtain ⟨hin, point, hp, rfl⟩ :=
          hc cursor (Option.filter_eq_some_iff.mp ha).1
        cases hby
        exact ⟨point, hp, fromBe64_be64 hin⟩
    · rw [Prog.pure_run, latestPbftBlock, latestPbftBlock, hl]
      cases advanced with
      | none => exact le_rfl
      | some cursor =>
        obtain ⟨hme, hlt⟩ := Option.filter_eq_some_iff.mp ha
        rw [Option.map_some, Option.some_or, Option.bind_some,
          fromBe64_be64 (hc cursor hme).1]
        exact (of_decide_eq_true hlt).le
  · rw [Prog.bind_of_error hb]
    exact ⟨⟨s.root.rows, faults, rfl⟩, id, le_rfl⟩

theorem inI64_toInt (x : Int64) : InI64 x.toInt :=
  ⟨x.le_toInt, x.toInt_le⟩

theorem persisted_persistEffects {chain : List CursorPoint} {effects : List Effect}
    (hc : ∀ data ∈ commitsOf effects, data.dataType = .block →
      ∃ point ∈ chain, data.Names point) (s : Sessions) :
    Persisted chain s (persistEffects effects s).2 := by
  induction effects generalizing s with
  | nil => exact .refl chain s
  | cons effect rest ih =>
    cases effect with
    | forward bytes => exact ih hc s
    | commit commit =>
      have hf : Persisted chain s (persistCommit commit s).2 := by
        apply persisted_persistAtomic
        intro number hn
        split at hn
        · rename_i hk
          cases hn
          obtain ⟨point, hp, hna⟩ := hc commit List.mem_cons_self hk
          exact ⟨inI64_toInt _, point, hp, hna.1⟩
        · cases hn
      have hr := ih fun data hd => hc data (List.mem_cons_of_mem commit hd)
      rw [persistEffects, Prog.bind_run]
      rcases hru : persistCommit commit s with ⟨e | advanced, t⟩ <;> rw [hru] at hf
      · exact hf
      · exact hf.trans (hr t)

/-! ## Runs of a node -/

namespace PbftNode

/-- The marker row holds the number. -/
def Marks (node : PbftNode) (number : Nat) : Prop :=
  (node.rows.lookup CursorSet.pbftMarker).bind fromBe64 = some (number : Int)

/-- The payload is a PREPREPARE of a witness, and opens a round for its number. -/
structure Opens (host : WireHost Key) (node : PbftNode) (payload : Bytes) (nowMillis head : Int)
    (m : SignedMessage) : Prop where
  decoded : host.decode payload = .ok m
  kind : m.raw.msgType = .preprepare
  current : m.raw.stale head (nextMaintenance node.sessions.readView) = false
  unseen : host.digest payload ∉ node.handler.seen
  member : ∃ w witnesses, m.recoverWitness host.crypto = .ok w ∧
    currentWitnesses node.sessions.readView = .ok witnesses ∧ w ∈ witnesses
  unopened : m.raw.no ∉ (PbftSidecar.expire nowMillis node.handler.sidecar).rounds
  uncompleted : m.raw.no ∉ (PbftSidecar.expire nowMillis node.handler.sidecar).completed

end PbftNode

/-- The steps that keep to the chain: a round is opened for a block of it, a rewind drops neither a
block that has a round nor that of the marker, and a restart loads a publication with the block of
the marker. -/
def NodeStep.Permitted (host : WireHost Key) (node : PbftNode) : NodeStep → Prop
  | deliver payload nowMillis head => ∀ m, node.Opens host payload nowMillis head m →
    m.raw.identity.OnChain node.chain
  | rewind identity => ∀ point, node.chain.getLast? = some point → point.identity = identity →
    ¬ node.Marks point.block ∧ blockNo point.block ∉ node.handler.sidecar.rounds
  | restart => ∀ number, node.Marks number → ∃ p ∈ node.sessions.root.publication,
    ∃ entry ∈ p.history, entry.point.block = number
  | _ => True

namespace PbftNode

variable {host : WireHost Key} {limits : CheckpointLimits} {node node' : PbftNode}

/-- What permitted steps keep. -/
structure Inv (host : WireHost Key) (limits : CheckpointLimits) (node : PbftNode) : Prop where
  durable : ∃ saved, DurableRun.Inv limits ⟨node.sessions, saved, false⟩
  marked : Marked node.chain node.rows
  sound : node.handler.sidecar.Sound host.crypto anyVote (ProposalIdentity.OnChain node.chain)

theorem runtimeContext_eq_ok {sessions : Sessions} {nowMillis : Int} {payload : Bytes}
    {context : PbftContext Key} (h : runtimeContext host sessions nowMillis payload = .ok context) :
    context.nowMillis = nowMillis ∧
      ∀ epoch, currentWitnesses sessions.readView = .ok (context.committee epoch) := by
  unfold runtimeContext at h
  cases hd : host.decode payload with
  | error e =>
    rw [hd] at h
    cases h
  | ok m =>
    cases hc : currentWitnesses sessions.readView with
    | error e =>
      rw [hd, hc] at h
      cases h
    | ok witnesses =>
      cases hs : m.recoverWitness host.crypto with
      | error e =>
        rw [hd, hc] at h
        simp only [Except.mapError, bind, Except.bind, hs] at h
        cases h
      | ok w =>
        rw [hd, hc] at h
        simp only [Except.mapError, bind, Except.bind, hs, pure, Except.pure] at h
        cases h
        refine ⟨rfl, fun epoch => ?_⟩
        rw [PbftContext.committee, ite_self]

/-- **A payload**: where it opens a round for a block of the chain, if it opens any, its commits are
for blocks of the chain. -/
theorem Inv.receive (h : node.Inv host limits) {payload : Bytes} {nowMillis head : Int}
    (ho : ∀ m, node.Opens host payload nowMillis head m → m.raw.identity.OnChain node.chain) :
    (node.receive host payload nowMillis head).2.sidecar.Sound host.crypto anyVote
        (ProposalIdentity.OnChain node.chain) ∧
      ∀ data ∈ (NodeStep.deliver payload nowMillis head).commits host node,
        data.dataType = .block → ∃ point ∈ node.chain, data.Names point := by
  rw [NodeStep.commits, PbftNode.receive]
  cases hcon : runtimeContext host node.sessions nowMillis payload with
  | error e => exact ⟨h.sound, fun _ hd => by cases hd⟩
  | ok context =>
    obtain ⟨hn, hc⟩ := runtimeContext_eq_ok hcon
    dsimp only
    unfold PbftHandler.handleWire
    cases hde : host.decode payload with
    | error e => exact ⟨h.sound, fun _ hd => by cases hd⟩
    | ok m =>
      dsimp only
      by_cases hs : m.raw.stale head (nextMaintenance node.sessions.readView) = true
      · rw [if_pos hs]
        exact ⟨h.sound, fun _ hd => by cases hd⟩
      by_cases hse : host.digest payload ∈ node.handler.seen
      · rw [if_neg hs, if_pos hse]
        exact ⟨h.sound, fun _ hd => by cases hd⟩
      obtain ⟨s₁, hy⟩ := yields_handle context m h.sound
        fun w hsi hm hk hr hco => ho m {
          decoded := hde
          kind := hk
          current := Bool.eq_false_iff.mpr hs
          unseen := hse
          member := ⟨w, _, hsi, hc m.raw.epoch, hm⟩
          unopened := hn ▸ hr
          uncompleted := hn ▸ hco }
      rw [if_neg hs, if_neg hse]
      rcases hru : PbftSidecar.handle host.crypto m context node.handler.sidecar with
        ⟨e | effects, sidecar⟩ <;> rw [hru] at hy
      · exact ⟨hy.sound, fun _ hd => by cases hd⟩
      · refine ⟨hy.sound, fun data hd hk => ?_⟩
        obtain ⟨-, -, identity, votes, hch, hce⟩ := hy.commits data hd
        exact CommitData.names_of_certified hce hch hk

theorem durable_withRows {s : Sessions} (h : ∃ saved, DurableRun.Inv limits ⟨s, saved, false⟩)
    (rows : Image) (faults : List Bool) : ∃ saved, DurableRun.Inv limits
      ⟨{ s with root := { s.root with rows := rows, faults := faults } }, saved, false⟩ := by
  obtain ⟨saved, h⟩ := h
  exact ⟨FMap.overAll rows s.root.publishedLayers,
    ⟨h.idle.settled, h.idle.distinct, h.idle.fresh, h.idle.active⟩, h.chained, h.holds.staged,
    h.holds.current, rfl⟩

theorem Inv.deliver (h : node.Inv host limits) {payload : Bytes} {nowMillis head : Int}
    (ho : ∀ m, node.Opens host payload nowMillis head m → m.raw.identity.OnChain node.chain) :
    (node.deliver host payload nowMillis head).Inv host limits ∧
      latestPbftBlock node.rows ≤
        latestPbftBlock (node.deliver host payload nowMillis head).rows := by
  obtain ⟨hs, hc⟩ := h.receive ho
  rw [NodeStep.commits] at hc
  rw [PbftNode.deliver]
  rcases hr : node.receive host payload nowMillis head with ⟨e | effects, handler⟩ <;>
    rw [hr] at hs hc
  · exact ⟨⟨h.durable, h.marked, hs⟩, le_rfl⟩
  · have hp := persisted_persistEffects hc node.sessions
    obtain ⟨rows, faults, hsa⟩ := hp.same
    have hch : (persistEffects effects node.sessions).2.checkpointPoints = node.chain := by
      rw [hsa]
      rfl
    refine ⟨⟨?_, ?_, ?_⟩, hp.latest⟩
    · apply hsa.symm.subst (motive := fun sessions => ∃ saved, DurableRun.Inv limits
        ⟨sessions, saved, false⟩)
      exact durable_withRows h.durable rows faults
    · apply hch.symm.subst (motive := fun points => Marked points _)
      exact hp.marked h.marked
    · apply hch.symm.subst
        (motive := fun points => PbftSidecar.Sound _ _ (ProposalIdentity.OnChain points) _)
      exact hs

theorem Inv.grown (h : node.Inv host limits) {sessions : Sessions}
    (hd : ∃ saved, DurableRun.Inv limits ⟨sessions, saved, false⟩)
    (hr : sessions.root.rows = node.rows) (hc : node.chain ⊆ sessions.checkpointPoints) :
    Inv host limits { node with sessions := sessions } where
  durable := hd
  marked := by
    intro bytes hb
    obtain ⟨point, hp, hn⟩ := h.marked bytes (hr ▸ hb)
    exact ⟨point, hc hp, hn⟩
  sound := h.sound.mono (fun _ _ => id) fun no _ identity _ ho hk =>
    (ho hk).imp fun _ hp => ⟨hc hp.1, hp.2⟩

theorem record_rows (point : CursorPoint) (s : Sessions) :
    (Sessions.recordCheckpoint point s).2.root = s.root := by
  unfold Sessions.recordCheckpoint
  repeat' split
  all_goals rfl

theorem apply_rows {s : Sessions} (h : s.Idle) (temporarilyEnable : Bool) (work : Work)
    (point : CursorPoint) : (blockSession temporarilyEnable work point s).2.root = s.root := by
  rcases blockSession_spec h temporarilyEnable work point with
    ⟨n, enabled, -, hr⟩ | ⟨top, n, -, -, -, hr⟩
  · rw [hr]
  · rw [hr]
    rfl

theorem publish_rows (limits : CheckpointLimits) (s : Sessions) :
    (CheckpointStack.persist limits s).2.root.rows = s.root.rows := by
  obtain ⟨root, heq, hr⟩ := CheckpointStack.persist_same limits s
  rw [heq]
  exact hr

theorem Inv.record (h : node.Inv host limits) (point : CursorPoint) :
    Inv host limits
      { node with sessions := (Sessions.recordCheckpoint point node.sessions).2 } := by
  obtain ⟨saved, hd⟩ := h.durable
  unfold Sessions.recordCheckpoint
  split
  · exact h
  split
  · exact h
  rename_i hi
  split
  · exact h
  rename_i hb
  refine h.grown ⟨saved, ?_, ?_, hd.holds⟩ rfl ?_
  · exact ⟨hd.idle.settled, hd.idle.distinct, hd.idle.fresh, hd.idle.active⟩
  · rw [Sessions.checkpoint_history, List.map_append]
    exact Sessions.chained_concat hd.chained (not_or.mpr ⟨hi, hb⟩) _
  · rw [Sessions.checkpointPoints, List.map_append]
    exact List.subset_append_left _ _

theorem Inv.apply (h : node.Inv host limits) (temporarilyEnable : Bool) (work : Work)
    (point : CursorPoint) : Inv host limits
      { node with sessions := (blockSession temporarilyEnable work point node.sessions).2 } := by
  obtain ⟨saved, hd⟩ := h.durable
  refine h.grown ⟨saved, hd.block temporarilyEnable work point⟩
    (congrArg StateStore.rows (apply_rows hd.idle temporarilyEnable work point)) ?_
  rcases blockSession_spec hd.idle temporarilyEnable work point with
    ⟨n, enabled, -, hr⟩ | ⟨top, n, -, -, -, hr⟩
  · rw [hr]
    exact List.Subset.refl _
  · rw [hr, Sessions.committed, Sessions.checkpointPoints, List.map_append]
    exact List.subset_append_left _ _

theorem Inv.publish (h : node.Inv host limits) : Inv host limits
    { node with sessions := (CheckpointStack.persist limits node.sessions).2 } := by
  obtain ⟨saved, hd⟩ := h.durable
  have hs := CheckpointStack.persist_same limits node.sessions
  refine h.grown ?_ (publish_rows limits node.sessions) fun point hp => hs.points_eq ▸ hp
  rcases hr : CheckpointStack.persist limits node.sessions with ⟨e | count, t⟩
  · rcases CheckpointStack.persist_eq_error hd.idle.checkpointState_eq hr with
      ⟨faults, rfl⟩ | ⟨-, faults, rfl⟩
    · exact ⟨_, hd.persistFailed hr rfl⟩
    · exact ⟨_, hd.persistStaged hr rfl⟩
  · exact ⟨_, hd.persist hr⟩

theorem rewindCheckpoint_eq (identity : CheckpointIdentity) (s : Sessions) :
    (Sessions.rewindCheckpoint identity s).2 = s ∨
      ∃ last, s.checkpoints.getLast? = some last ∧ last.point.identity = identity ∧
        (Sessions.rewindCheckpoint identity s).2 = s.cut 1 := by
  unfold Sessions.rewindCheckpoint
  repeat' split
  all_goals try exact .inl rfl
  rename_i last _ hl hm
  rw [Bool.or_eq_true, not_or, decide_eq_true_eq, not_not] at hm
  exact .inr ⟨last, hl, hm.2, by
    rw [Sessions.cut, ← List.dropLast_eq_take, ← List.dropLast_eq_take]⟩

theorem mem_dropLast_or_getLast? {α : Type} {l : List α} {a : α} (h : a ∈ l) :
    a ∈ l.dropLast ∨ l.getLast? = some a := by
  obtain rfl | ⟨front, last, rfl⟩ := List.eq_nil_or_concat l
  · cases h
  · rw [List.concat_eq_append, List.mem_append, List.mem_singleton] at h
    rw [List.concat_eq_append, List.dropLast_concat, List.getLast?_concat]
    exact h.imp id fun heq => congrArg some heq.symm

theorem Inv.rewind (h : node.Inv host limits) {identity : CheckpointIdentity}
    (hpe : (NodeStep.rewind identity).Permitted host node) : Inv host limits
      { node with sessions := (Sessions.rewindCheckpoint identity node.sessions).2 } := by
  rcases rewindCheckpoint_eq identity node.sessions with hs | ⟨last, hla, hi, hcu⟩
  · rw [hs]
    exact h
  · have hpo : node.chain.getLast? = some last.point := by
      rw [chain, Sessions.checkpointPoints, List.getLast?_map, hla, Option.map_some]
    obtain ⟨hma, hr⟩ := hpe last.point hpo hi
    have hch : (node.sessions.cut 1).checkpointPoints = node.chain.dropLast := by
      have hc : (node.sessions.cut 1).checkpoints = node.sessions.checkpoints.dropLast :=
        List.dropLast_eq_take.symm
      rw [chain, Sessions.checkpointPoints, Sessions.checkpointPoints, hc,
        List.map_dropLast]
    rw [hcu]
    obtain ⟨saved, hd⟩ := h.durable
    refine ⟨⟨saved, ?_, ?_, hd.holds⟩, ?_, ?_⟩
    · exact {
        settled := fun l hl => hd.idle.settled l (List.mem_of_mem_take hl)
        distinct := hd.idle.distinct.sublist ((List.take_sublist _ _).map _)
        fresh := fun l hl => hd.idle.fresh l (List.mem_of_mem_take hl)
        active := hd.idle.active }
    · rw [Sessions.checkpoint_history, Sessions.cut, List.map_take]
      exact hd.chained.take _
    · -- the marker is not that of the block that is dropped
      intro bytes hb
      obtain ⟨point, hm, hn⟩ := h.marked bytes hb
      refine ⟨point, ?_, hn⟩
      rw [chain, hch]
      rcases mem_dropLast_or_getLast? hm with hk | hl'
      · exact hk
      · cases hpo.symm.trans hl'
        apply absurd _ hma
        show (node.rows.lookup _).bind fromBe64 = _
        rw [show node.rows.lookup _ = some bytes from hb, Option.bind_some, hn]
    · -- and neither is a proposal with a round
      refine h.sound.mono (fun _ _ => id) fun no hno p hp ho hki => ?_
      obtain ⟨point, hm, hna⟩ := ho hki
      refine ⟨point, ?_, hna⟩
      rw [chain, hch]
      rcases mem_dropLast_or_getLast? hm with hk | hl'
      · exact hk
      · cases hpo.symm.trans hl'
        rw [← hp, hna.no_eq hki] at hno
        exact absurd hno hr

theorem Inv.restart (h : node.Inv host limits)
    (hpe : NodeStep.restart.Permitted host node)
    (hr : NodeStep.restart.run host limits node = some node') :
    node'.Inv host limits ∧ node'.rows = node.rows := by
  obtain ⟨saved, hd⟩ := h.durable
  unfold NodeStep.run at hr
  rcases hd.holds.restart with ⟨result, root, hl, hh, hro, hs⟩ | ⟨-, e, t, hl⟩
  · have hr' : root.loaded.root.rows = node.rows := by
      rw [← show root.rows = node.rows from hro, StateStore.loaded]
      cases root.publication <;> rfl
    simp only [hl] at hr
    cases hr
    refine ⟨⟨⟨saved, hd.restart hl⟩, ?_, sound_new _ _⟩, hr'⟩
    intro bytes hb
    rw [PbftNode.rows, hr'] at hb
    obtain ⟨point, -, hn⟩ := h.marked bytes hb
    obtain ⟨p, hp, entry, he, hbl⟩ := hpe point.block (by
      rw [Marks, hb, Option.bind_some, hn])
    refine ⟨entry.point, ?_, hbl ▸ hn⟩
    rw [chain, Sessions.checkpointPoints, StateStore.loaded, hs, Option.mem_def.mp hp]
    exact List.mem_map.mpr ⟨entry.checkpoint, List.mem_map_of_mem he, rfl⟩
  · simp only [hl] at hr
    cases hr

/-- **A permitted step** keeps the invariant, and the marker does not go down. -/
theorem Inv.run (h : node.Inv host limits) {step : NodeStep} (hp : step.Permitted host node)
    (hr : step.run host limits node = some node') :
    node'.Inv host limits ∧ latestPbftBlock node.rows ≤ latestPbftBlock node'.rows := by
  have hs {t : Sessions} (hro : t.root.rows = node.rows) :
      latestPbftBlock node.rows ≤ latestPbftBlock t.root.rows := by
    rw [hro]
  obtain ⟨saved, hd⟩ := h.durable
  cases step with
  | deliver payload nowMillis head =>
    cases hr
    exact h.deliver hp
  | record point =>
    cases hr
    exact ⟨h.record point, hs (congrArg StateStore.rows (record_rows point node.sessions))⟩
  | apply temporarilyEnable work point =>
    cases hr
    exact ⟨h.apply temporarilyEnable work point, hs (congrArg StateStore.rows
      (apply_rows hd.idle temporarilyEnable work point))⟩
  | rewind identity =>
    cases hr
    refine ⟨h.rewind hp, hs ?_⟩
    rcases rewindCheckpoint_eq identity node.sessions with heq | ⟨last, -, -, heq⟩
    · rw [heq]
      rfl
    · rw [heq]
      rfl
  | publish =>
    cases hr
    exact ⟨h.publish, hs (publish_rows limits node.sessions)⟩
  | restart =>
    obtain ⟨hi, hrow⟩ := h.restart hp hr
    exact ⟨hi, by rw [hrow]⟩

/-! ## What the next start reads -/

/-- The marker is the number of a block that the checkpoint history has, no higher than the head. -/
def MarkerKnown (node : PbftNode) : Prop :=
  ∀ bytes, node.rows.lookup CursorSet.pbftMarker = some bytes →
    ∃ block point head, CursorSet.markerBlock (some bytes) = .ok block ∧
      CursorSet.uniquePoint node.chain block = .ok point ∧ node.chain.getLast? = some head ∧
      latestPbftBlock node.rows ≤ head.block

theorem chain_increasing {s : Sessions}
    (h : CheckpointHistory.Chained s.checkpoint.history) :
    s.checkpointPoints.Pairwise fun a b => a.block < b.block := by
  have hc : s.checkpoints.IsChain fun a b => a.point.block < b.point.block := by
    have hl := h.linked
    rw [Sessions.checkpoint_history, List.isChain_map] at hl
    exact hl.imp fun a b hs => hs.2
  have ht : IsTrans CommittedCheckpoint fun a b => a.point.block < b.point.block :=
    ⟨fun _ _ _ => lt_trans⟩
  rw [Sessions.checkpointPoints, List.pairwise_map]
  exact List.isChain_iff_pairwise.mp hc

theorem uniquePoint_of_mem {points : List CursorPoint}
    (h : points.Pairwise fun a b => a.block < b.block) {point : CursorPoint}
    (hm : point ∈ points) :
    CursorSet.uniquePoint points point.block = .ok point := by
  obtain ⟨before, after, rfl⟩ := List.append_of_mem hm
  obtain ⟨-, ha, hb⟩ := List.pairwise_append.mp h
  have hf : before.filter (fun p => p.block = point.block) = [] := by
    rw [List.filter_eq_nil_iff]
    intro p hp
    have := hb p hp point List.mem_cons_self
    simp only [decide_eq_true_eq]
    omega
  have hba : after.filter (fun p => p.block = point.block) = [] := by
    rw [List.filter_eq_nil_iff]
    intro p hp
    have := (List.pairwise_cons.mp ha).1 p hp
    simp only [decide_eq_true_eq]
    omega
  have ho : (before ++ point :: after).filter (fun p => p.block = point.block) = [point] := by
    rw [List.filter_append, hf, List.nil_append, List.filter_cons_of_pos (by simp), hba]
  rw [CursorSet.uniquePoint, ho]

theorem block_le_last {points : List CursorPoint} (h : points.Pairwise fun a b => a.block < b.block)
    {point : CursorPoint} (hm : point ∈ points) :
    ∃ head, points.getLast? = some head ∧ point.block ≤ head.block := by
  obtain rfl | ⟨front, last, rfl⟩ := List.eq_nil_or_concat points
  · cases hm
  · rw [List.concat_eq_append] at h hm ⊢
    refine ⟨last, List.getLast?_concat, ?_⟩
    rcases List.mem_append.mp hm with hf | hl
    · exact ((List.pairwise_append.mp h).2.2 point hf last (List.mem_singleton_self last)).le
    · rw [List.mem_singleton.mp hl]

theorem Inv.markerKnown (h : node.Inv host limits) : node.MarkerKnown := by
  intro bytes hb
  obtain ⟨saved, hd⟩ := h.durable
  have hi := chain_increasing hd.chained
  obtain ⟨point, hm, hn⟩ := h.marked bytes hb
  obtain ⟨head, hh, hle⟩ := block_le_last hi hm
  refine ⟨point.block, point, head, ?_, uniquePoint_of_mem hi hm, hh, ?_⟩
  · rw [CursorSet.markerBlock, hn]
    dsimp only
    rw [if_neg (by omega), Int.toNat_natCast]
  · rw [latestPbftBlock, hb, Option.bind_some, hn, Option.getD_some]
    exact_mod_cast hle

/-! ## Runs -/

/-- The nodes that are reached from a new one by steps that are `allowed`. -/
inductive Reachable (host : WireHost Key) (limits : CheckpointLimits)
    (allowed : PbftNode → NodeStep → Prop) (start : PbftNode) : PbftNode → Prop where
  | start : Reachable host limits allowed start start
  | step {node node' : PbftNode} {step : NodeStep} : Reachable host limits allowed start node →
    allowed node step → step.run host limits node = some node' →
    Reachable host limits allowed start node'

theorem inv_new (host : WireHost Key) (limits : CheckpointLimits) {root : StateStore}
    (hs : root.staged = none) (hc : root.current = none)
    (hm : root.rows.lookup CursorSet.pbftMarker = none) (quorum : Option Nat)
    (bounds : PbftBounds) : (PbftNode.new root quorum bounds).Inv host limits where
  durable := ⟨root.rows, DurableRun.Reached.inv hs hc .start⟩
  marked := fun _ hb => nomatch hm.symm.trans hb
  sound := sound_new quorum bounds

/-- What a step does to the marker, and the commits it persists. -/
structure StepKnown (host : WireHost Key) (node : PbftNode) (step : NodeStep) (node' : PbftNode) :
    Prop where
  commits : ∀ data ∈ step.commits host node, data.dataType = .block →
    ∃ point ∈ node.chain, data.Names point
  latest : latestPbftBlock node.rows ≤ latestPbftBlock node'.rows

/-- **The PBFT marker**, over every run of permitted steps from a root that nothing is published in:
the block commits that a step persists are for blocks of the chain, the marker does not go down and
is no higher than the head, and the next start finds its block in the checkpoint history. -/
theorem Reachable.marker_known (host : WireHost Key) (limits : CheckpointLimits) {root : StateStore}
    (hstaged : root.staged = none) (hcurrent : root.current = none)
    (hmarker : root.rows.lookup CursorSet.pbftMarker = none) (quorum : Option Nat)
    (bounds : PbftBounds)
    (h : Reachable host limits (NodeStep.Permitted host) (.new root quorum bounds) node) :
    node.MarkerKnown ∧ ∀ step node', NodeStep.Permitted host node step →
      step.run host limits node = some node' → node.StepKnown host step node' := by
  have hinv : node.Inv host limits := by
    induction h with
    | start => exact inv_new host limits hstaged hcurrent hmarker quorum bounds
    | step _ hpermitted hrun ih => exact (ih.run hpermitted hrun).1
  refine ⟨hinv.markerKnown, fun step node' hpermitted hrun => ⟨?_, (hinv.run hpermitted hrun).2⟩⟩
  cases step with
  | deliver payload nowMillis head => exact (hinv.receive hpermitted).2
  | _ => exact fun _ hdata => nomatch hdata

/-- The payload is a message with the signature of a witness of the committee. -/
def FromCommittee (host : WireHost Key) (node : PbftNode) : NodeStep → Prop
  | .deliver payload _ _ => ∃ m w witnesses, host.decode payload = .ok m ∧
    m.recoverWitness host.crypto = .ok w ∧
    currentWitnesses node.sessions.readView = .ok witnesses ∧ w ∈ witnesses
  | _ => True

/-! ## A witness alone -/

/-- The only witness of the committee. -/
def sampleWitness : Bytes := List.replicate 21 1

/-- A vote of the witness for a block. -/
def sampleVote (kind : MsgType) (point : CursorPoint) : SignedMessage :=
  ⟨⟨kind, .block, Int64.ofNat point.block, 1, point.identity.bytes⟩, sampleWitness⟩

/-- The votes of the witness for blocks 1 and 7. -/
def sampleVotes : List SignedMessage :=
  [Sessions.samplePoint 1 1, Sessions.samplePoint 7 7].flatMap fun point =>
    [MsgType.preprepare, .prepare, .commit].map fun kind => sampleVote kind point

/-- A host that knows the votes of the witness. -/
def sampleHost : WireHost UInt8 where
  crypto := sampleCrypto
  decode payload := ((sampleVotes.find? fun m => m.bytes = payload).map .ok).getD
    (.error .missingSignature)
  digest := id

/-- A root with the committee. -/
def sampleRoot : StateStore where
  rows := (∅ : Image).insert
    ⟨.witnessSchedule, Marker.key.ascii "current_shuffled_witnesses"⟩ sampleWitness
  staged := none
  current := none
  faults := []

/-- The node with the checkpoint of the genesis block. -/
def sampleStart : PbftNode :=
  { PbftNode.new sampleRoot none .default with
    sessions := (Sessions.recordCheckpoint (Sessions.samplePoint 0 0) (.new sampleRoot)).2 }

/-- The node with block 1. -/
def sampleApplied : PbftNode :=
  { sampleStart with
    sessions := (blockSession false .done (Sessions.samplePoint 1 1) sampleStart.sessions).2 }

/-- The node after these votes for a block. -/
def sampleVoted (point : CursorPoint) (kinds : List MsgType) (node : PbftNode) : PbftNode :=
  kinds.foldl (fun node kind => node.deliver sampleHost (sampleVote kind point).bytes 0 0) node

theorem sampleVoted_cons (point : CursorPoint) (kind : MsgType) (kinds : List MsgType)
    (node : PbftNode) : sampleVoted point (kind :: kinds) node =
      sampleVoted point kinds (sampleVoted point [kind] node) := rfl

theorem decode_sampleVotes : ∀ m ∈ sampleVotes, sampleHost.decode m.bytes = .ok m := by
  decide

theorem reachable_sampleStart {allowed : PbftNode → NodeStep → Prop}
    (ha : ∀ node point, allowed node (.record point)) :
    Reachable sampleHost .default allowed (.new sampleRoot none .default) sampleStart :=
  .step .start (ha _ (Sessions.samplePoint 0 0)) rfl

theorem permitted_sampleVote {node : PbftNode} (hc : Sessions.samplePoint 1 1 ∈ node.chain)
    {kind : MsgType} (hv : sampleVote kind (Sessions.samplePoint 1 1) ∈ sampleVotes) :
    NodeStep.Permitted sampleHost node
      (.deliver (sampleVote kind (Sessions.samplePoint 1 1)).bytes 0 0) := by
  intro m ho _
  cases (decode_sampleVotes _ hv).symm.trans ho.decoded
  exact ⟨Sessions.samplePoint 1 1, hc, rfl, rfl⟩

/-- The votes for block 1 come after the block: the marker is that of the head. -/
theorem marker_known_sample :
    latestPbftBlock (sampleVoted (Sessions.samplePoint 1 1) [.preprepare, .prepare, .commit]
        sampleApplied).rows = 1 ∧
      (sampleVoted (Sessions.samplePoint 1 1) [.preprepare, .prepare, .commit]
        sampleApplied).MarkerKnown := by
  have happlied : Reachable sampleHost .default (NodeStep.Permitted sampleHost)
      (.new sampleRoot none .default) sampleApplied :=
    Reachable.step (reachable_sampleStart fun _ _ => trivial)
      (show NodeStep.Permitted sampleHost _ (.apply false .done (Sessions.samplePoint 1 1)) from
        trivial)
      rfl
  have hvote {node : PbftNode} (kind : MsgType)
      (h : Reachable sampleHost .default (NodeStep.Permitted sampleHost)
        (.new sampleRoot none .default) node) (hchain : Sessions.samplePoint 1 1 ∈ node.chain)
      (hmem : sampleVote kind (Sessions.samplePoint 1 1) ∈ sampleVotes) :
      Reachable sampleHost .default (NodeStep.Permitted sampleHost) (.new sampleRoot none .default)
        (sampleVoted (Sessions.samplePoint 1 1) [kind] node) :=
    h.step (permitted_sampleVote hchain hmem) rfl
  have hpreprepared := hvote .preprepare happlied (by decide) (by decide)
  have hprepared := hvote .prepare hpreprepared (by decide) (by decide)
  have hcommitted := hvote .commit hprepared (by decide) (by decide)
  refine ⟨by decide, ?_⟩
  rw [sampleVoted_cons, sampleVoted_cons]
  exact (Reachable.marker_known sampleHost .default rfl rfl (by decide) none .default
    hcommitted).1

/-- The votes for block 7 come to a node that has no block but the genesis: the witness proposes and
commits it, and the marker is ahead of the chain. -/
theorem not_marker_known_ahead : ¬ ∀ (host : WireHost UInt8) (limits : CheckpointLimits)
    (root : StateStore) (quorum : Option Nat) (bounds : PbftBounds) (node : PbftNode),
    root.staged = none → root.current = none → root.rows.lookup CursorSet.pbftMarker = none →
    Reachable host limits (FromCommittee host) (.new root quorum bounds) node →
      node.MarkerKnown ∧ ∀ step node', FromCommittee host node step →
        step.run host limits node = some node' → node.StepKnown host step node' := by
  intro hclaim
  have hvote {node : PbftNode} (kind : MsgType)
      (h : Reachable sampleHost .default (FromCommittee sampleHost)
        (.new sampleRoot none .default) node)
      (hcommittee : currentWitnesses node.sessions.readView = .ok [sampleWitness])
      (hmem : sampleVote kind (Sessions.samplePoint 7 7) ∈ sampleVotes) :
      Reachable sampleHost .default (FromCommittee sampleHost) (.new sampleRoot none .default)
        (sampleVoted (Sessions.samplePoint 7 7) [kind] node) := by
    have hallowed : FromCommittee sampleHost node
        (.deliver (sampleVote kind (Sessions.samplePoint 7 7)).bytes 0 0) :=
      ⟨_, sampleWitness, _, decode_sampleVotes _ hmem, rfl, hcommittee, List.mem_singleton_self _⟩
    exact h.step hallowed rfl
  have hpreprepared := hvote .preprepare (reachable_sampleStart fun _ _ => trivial)
    (by decide) (by decide)
  have hprepared := hvote .prepare hpreprepared (by decide) (by decide)
  have hcommitted := hvote .commit hprepared (by decide) (by decide)
  rw [← sampleVoted_cons, ← sampleVoted_cons] at hcommitted
  have hmarker : (sampleVoted (Sessions.samplePoint 7 7) [.preprepare, .prepare, .commit]
      sampleStart).rows.lookup CursorSet.pbftMarker = some (be64 7) := by
    decide
  obtain ⟨block, point, head, hblock, hpoint, -⟩ :=
    (hclaim _ _ _ _ _ _ rfl rfl (by decide) hcommitted).1 _ hmarker
  have hseven : CursorSet.markerBlock (some (be64 7)) = .ok 7 := by decide +kernel
  cases hseven.symm.trans hblock
  have hmissing : CursorSet.uniquePoint (sampleVoted (Sessions.samplePoint 7 7)
      [.preprepare, .prepare, .commit] sampleStart).chain 7 = .error .missingCheckpoint := by
    decide
  cases hmissing.symm.trans hpoint

end PbftNode

end RustTron.Consensus.Pbft
