import RustTron.Library.Alike
import RustTron.Consensus.VoteMemory

/-!
# Faults that never happen

The sidecar expects rounds and witnesses that its own checks have found, and its subtractions
saturate. The calls are written here once more with both spelled out: what a missing value leads to
and what a subtraction below zero gives are open. From an accounted sidecar the calls run as before,
whatever these are.

## Main definitions

* `Faults`: what happens where a value is missing, and what a subtraction below zero gives
* `Faults.handle`, `Faults.localPreprepare`, `Faults.expire`: the calls with their faults

## Main results

* `Faults.expire_eq`, `Faults.commit_alike`, `Faults.prepare_alike`: no fault happens
* `memory_accounted`: the account of the memory over all runs
-/

namespace RustTron.Consensus.Pbft

variable {Key : Type}

/-- What happens where an `expect` or an index finds nothing, and what a saturating subtraction gives
below zero. -/
structure Faults where
  panic : (α : Type) → PbftM α
  clip : Nat → Nat → Nat

namespace Faults

open PbftSidecar (checkedSize reserve cachePrepare cacheCommit signatures collect voteLocally)

variable (f : Faults)

/-! ## The calls with their faults -/

/-- `saturating_sub`. -/
def sub (x y : Nat) : Nat := if y ≤ x then x - y else f.clip x y

/-- `self.rounds[no]`, and `get_mut(no).expect(..)`. -/
def round (no : Bytes) : PbftM Round := do
  match (← get).rounds.lookup no with
  | some round => pure round
  | none => f.panic Round

/-- The sizes of the rows that `keep` does not keep, in the order of their keys. -/
def droppedSizes {V : Type} (keep : V → Bool) (size : V → Nat) (rows : FMap Bytes V) : List Nat :=
  ((FMap.sortedRows keyLe rows).filter fun row => !keep row.2).map fun row => size row.2

/-- `PbftSidecar::expire`, with `expire_pending`: one subtraction for each row that is dropped. -/
def expire (now : Int) (s : PbftSidecar) : PbftSidecar :=
  let keepsVote := fun e : Int × SignedMessage => s.keepsEntry now e.1
  let size := fun e : Int × SignedMessage => e.2.encodedLen
  let rounds := (droppedSizes (s.keepsRound now) (·.retainedBytes) s.rounds).foldl f.sub
    s.retainedBytes
  let prepares := (droppedSizes keepsVote size s.pendingPrepare).foldl f.sub rounds
  { PbftSidecar.expire now s with
    retainedBytes := (droppedSizes keepsVote size s.pendingCommit).foldl f.sub prepares }

def removeRound (no : Bytes) (s : PbftSidecar) : PbftSidecar :=
  match s.rounds.lookup no with
  | none => s
  | some round => { s with
      rounds := s.rounds.erase no
      retainedBytes := f.sub s.retainedBytes round.retainedBytes }

def commit (message : SignedMessage) (witness : Bytes) (context : PbftContext Key) :
    PbftM (List Effect) := do
  let no := message.raw.no
  let identity := message.raw.identity
  let s ← get
  match s.rounds.lookup no with
  | none => do
    cacheCommit message witness context.nowMillis
    pure []
  | some round =>
    if round.identity ≠ some identity then throw .proposalMismatch
    else
      match round.prepare.lookup witness with
      | none => do
        cacheCommit message witness context.nowMillis
        pure []
      | some prepare =>
        if prepare.raw.identity ≠ identity then throw .prepareCommitMismatch
        else
          match round.commit.lookup witness with
          | some previous => if previous.raw.identity ≠ identity then throw .equivocation else pure []
          | none => do
            let size := message.encodedLen
            if s.bounds.maxVotes ≤ round.commit.keys.card then throw .capacity
            reserve round.retainedBytes size
            let round ← f.round no
            let votes := round.commit.insert witness message
            modify fun s => { s with
              rounds := s.rounds.insert no { round with
                commit := votes
                retainedBytes := round.retainedBytes + size }
              retainedBytes := s.retainedBytes + size }
            let quorum := quorumOf s.quorum (context.committee message.raw.epoch).length
            if votes.keys.card < quorum then pure []
            else do
              let data : CommitData := {
                raw := message.raw.bytes
                dataType := message.raw.dataType
                number := message.raw.viewN
                epoch := message.raw.epoch
                signatures := signatures votes }
              modify (f.removeRound no)
              modify fun s => { s with completed := s.completed.insert no context.nowMillis }
              pure (if context.syncing then [] else [.commit data])

/-- The COMMIT that was cached for a vote, counted. -/
def commitCached (crypto : Crypto Key) (cachedKey : Bytes) (context : PbftContext Key) :
    PbftM (List Effect) := do
  let s ← get
  match s.pendingCommit.lookup cachedKey with
  | none => pure []
  | some cached => do
    modify fun s => { s with
      pendingCommit := s.pendingCommit.erase cachedKey
      retainedBytes := f.sub s.retainedBytes cached.2.encodedLen }
    let signer ← Prog.ofExcept id (cached.2.recoverWitness crypto)
    f.commit cached.2 signer context

/-- The COMMIT votes of the local keys, once a quorum has prepared. -/
def commitLocally (crypto : Crypto Key) (message : SignedMessage) (context : PbftContext Key) :
    PbftM (List Effect) := do
  let round ← f.round message.raw.no
  modify fun s => { s with rounds := s.rounds.insert message.raw.no { round with done := true } }
  collect (voteLocally crypto message .commit fun vote witness => f.commit vote witness context)
    (context.signerKeys message.raw.epoch)

def prepare (crypto : Crypto Key) (message : SignedMessage) (witness : Bytes)
    (context : PbftContext Key) : PbftM (List Effect) := do
  let no := message.raw.no
  let identity := message.raw.identity
  let s ← get
  match (s.rounds.lookup no).bind (·.identity) with
  | none => do
    cachePrepare message witness context.nowMillis
    pure []
  | some roundIdentity =>
    if roundIdentity ≠ identity then throw .proposalMismatch
    else do
      let round ← f.round no
      match round.prepare.lookup witness with
      | some previous => if previous.raw.identity ≠ identity then throw .equivocation else pure []
      | none => do
        let size := message.encodedLen
        if s.bounds.maxVotes ≤ round.prepare.keys.card then throw .capacity
        reserve round.retainedBytes size
        let round ← f.round no
        let votes := round.prepare.insert witness message
        modify fun s => { s with
          rounds := s.rounds.insert no { round with
            prepare := votes
            retainedBytes := round.retainedBytes + size }
          retainedBytes := s.retainedBytes + size }
        let effects ← f.commitCached crypto (voteKey message.raw witness) context
        let s ← get
        let quorum := quorumOf s.quorum (context.committee message.raw.epoch).length
        if (s.completed.lookup no).isSome then pure effects
        else if round.done || votes.keys.card < quorum || context.syncing then pure effects
        else do
          let more ← f.commitLocally crypto message context
          pure (effects ++ more)

/-- A cached PREPARE, taken out of the cache and counted. -/
def prepareCached (crypto : Crypto Key) (context : PbftContext Key) (cached : Bytes × SignedMessage) :
    PbftM (List Effect) := do
  modify fun s =>
    match s.pendingPrepare.lookup cached.1 with
    | none => s
    | some removed => { s with
        pendingPrepare := s.pendingPrepare.erase cached.1
        retainedBytes := f.sub s.retainedBytes removed.2.encodedLen }
  let signer ← Prog.ofExcept id (cached.2.recoverWitness crypto)
  f.prepare crypto cached.2 signer context

/-- The PREPARE votes of an opened round: those of the local keys, then the cached ones. -/
def prepareOpened (crypto : Crypto Key) (message : SignedMessage) (context : PbftContext Key) :
    PbftM (List Effect) := do
  let effects ← (if context.syncing then pure []
    else collect (voteLocally crypto message .prepare
      fun vote witness => f.prepare crypto vote witness context)
      (context.signerKeys message.raw.epoch))
  let s ← get
  let more ← collect (f.prepareCached crypto context) (s.cachedPrepares message.raw.identity)
  pure (effects ++ more)

def preprepare (crypto : Crypto Key) (message : SignedMessage) (witness : Option Bytes)
    (context : PbftContext Key) : PbftM (List Effect) :=
  if context.chainSwitch then do
    modify (f.removeRound message.raw.no)
    pure []
  else do
    let opened ← PbftSidecar.openRound message witness context
    if opened then f.prepareOpened crypto message context else pure []

def dispatch (crypto : Crypto Key) (message : SignedMessage) (witness : Option Bytes)
    (context : PbftContext Key) : PbftM (List Effect) := do
  let s ← get
  if (s.completed.lookup message.raw.no).isSome then pure []
  else
    match message.raw.msgType, witness with
    | .preprepare, _ => f.preprepare crypto message witness context
    | .prepare, some witness => f.prepare crypto message witness context
    | .commit, some witness => f.commit message witness context
    | .prepare, none | .commit, none => f.panic (List Effect)
    | .request, _ | .viewChange, _ => pure []

def handle (crypto : Crypto Key) (message : SignedMessage) (context : PbftContext Key) :
    PbftM (List Effect) := do
  modify (f.expire context.nowMillis)
  checkedSize message
  let witness ← Prog.ofExcept id (message.recoverWitness crypto)
  if witness ∉ context.committee message.raw.epoch then throw .nonWitness
  else f.dispatch crypto message (some witness) context

def localPreprepare (crypto : Crypto Key) (message : SignedMessage) (context : PbftContext Key) :
    PbftM (List Effect) := do
  modify (f.expire context.nowMillis)
  checkedSize message
  if message.raw.msgType ≠ .preprepare then throw .localPreprepareOnly
  else f.dispatch crypto message none context

/-- A call with its faults. -/
def run (crypto : Crypto Key) (call : Call Key) (s : PbftSidecar) :
    Except PbftError (List Effect) × PbftSidecar :=
  match call with
  | .handle message context => f.handle crypto message context s
  | .localPreprepare message context => f.localPreprepare crypto message context s
  | .expire nowMillis => (.ok [], f.expire nowMillis s)

/-! ## No fault happens -/

section

variable {f : Faults} {bounds : PbftBounds} {proposals : Bytes → Option SignedMessage}
variable {s : PbftSidecar}

theorem sub_eq {x y : Nat} (h : y ≤ x) : f.sub x y = x - y := if_pos h

theorem round_run {no : Bytes} {round : Round} (h : s.rounds.lookup no = some round) :
    f.round no s = (.ok round, s) := by
  rw [Faults.round, Prog.bind_of_ok (Prog.get_run s), h]
  rfl

theorem foldl_sub {sizes : List Nat} {start : Nat} (h : sizes.sum ≤ start) :
    sizes.foldl f.sub start = start - sizes.sum := by
  induction sizes generalizing start with
  | nil => rfl
  | cons size sizes ih =>
    rw [List.sum_cons] at h
    rw [List.foldl_cons, sub_eq (by omega), ih (by omega), List.sum_cons]
    omega

theorem sum_droppedSizes {V : Type} (keep : V → Bool) (size : V → Nat) (rows : FMap Bytes V) :
    (droppedSizes keep size rows).sum = droppedBytes keep size rows := by
  unfold droppedSizes droppedBytes
  rw [← FMap.sum_sortedRows keyLe]
  induction FMap.sortedRows keyLe rows with
  | nil => rfl
  | cons row rest ih =>
    cases hk : keep row.2 <;> simp [hk, ih]

theorem foldl_droppedSizes {V : Type} {keep : V → Bool} {size : V → Nat} {rows : FMap Bytes V}
    {start : Nat} (h : droppedBytes keep size rows ≤ start) :
    (droppedSizes keep size rows).foldl f.sub start = start - droppedBytes keep size rows := by
  rw [← sum_droppedSizes] at h ⊢
  exact foldl_sub h

/-- **An expiry** takes no more bytes than there are. -/
theorem expire_eq (hs : s.Accounted bounds proposals) (now : Int) :
    f.expire now s = PbftSidecar.expire now s := by
  have hsu := hs.retained
  have hr := total_retain_add_droppedBytes (s.keepsRound now) (·.retainedBytes) s.rounds
  have hp := total_retain_add_droppedBytes (fun e : Int × SignedMessage =>
    s.keepsEntry now e.1) (·.2.encodedLen) s.pendingPrepare
  have hc := total_retain_add_droppedBytes (fun e : Int × SignedMessage =>
    s.keepsEntry now e.1) (·.2.encodedLen) s.pendingCommit
  simp only [roundsBytes, pendingBytes] at hsu
  have hf : (droppedSizes (s.keepsRound now) (·.retainedBytes) s.rounds).foldl f.sub
      s.retainedBytes =
      s.retainedBytes - droppedBytes (s.keepsRound now) (·.retainedBytes) s.rounds :=
    foldl_droppedSizes (by omega)
  have hse : (droppedSizes (fun e : Int × SignedMessage => s.keepsEntry now e.1)
      (·.2.encodedLen) s.pendingPrepare).foldl f.sub
        (s.retainedBytes - droppedBytes (s.keepsRound now) (·.retainedBytes) s.rounds) =
      s.retainedBytes - droppedBytes (s.keepsRound now) (·.retainedBytes) s.rounds -
        droppedBytes (fun e : Int × SignedMessage => s.keepsEntry now e.1) (·.2.encodedLen)
          s.pendingPrepare :=
    foldl_droppedSizes (by omega)
  unfold Faults.expire PbftSidecar.expire
  dsimp only
  rw [hf, hse, foldl_droppedSizes (by omega)]

theorem removeRound_eq (hs : s.Accounted bounds proposals) (no : Bytes) :
    f.removeRound no s = PbftSidecar.removeRound no s := by
  unfold Faults.removeRound PbftSidecar.removeRound
  cases hr : s.rounds.lookup no with
  | none => rfl
  | some round =>
    dsimp only
    rw [sub_eq (hs.round_le hr)]

theorem reserve_bind_alike {α : Type} {current added : Nat} {x y : Unit → PbftM α}
    (h : s.retainedBytes + added ≤ s.bounds.maxRetainedBytes → Prog.Alike (· = s) (x ()) (y ())) :
    Prog.Alike (· = s) (reserve current added >>= x) (reserve current added >>= y) := by
  intro s' hs'
  subst hs'
  rcases reserve_cases s' current added with ⟨hr, -, hre⟩ | hr
  · rw [Prog.bind_of_ok hr, Prog.bind_of_ok hr]
    exact h hre _ rfl
  · rw [Prog.bind_of_error hr, Prog.bind_of_error hr]

variable (m : SignedMessage) (w : Bytes) (context : PbftContext Key)

/-- **A COMMIT** finds the round that it has checked, and a completed round is dropped with bytes that
are there. -/
theorem commit_alike :
    Prog.Alike (PbftSidecar.Accounted bounds proposals) (f.commit m w context)
      (PbftSidecar.commit m w context) := by
  refine .get_bind fun s hs => ?_
  dsimp only
  cases hr : s.rounds.lookup m.raw.no with
  | none => exact .refl _
  | some round =>
  dsimp only
  refine .ite (fun _ => .refl _) fun _ => ?_
  cases hpr : round.prepare.lookup w with
  | none => exact .refl _
  | some prepare =>
  dsimp only
  refine .ite (fun _ => .refl _) fun _ => ?_
  cases hv : round.commit.lookup w with
  | some previous => exact .refl _
  | none =>
  dsimp only
  by_cases hf : s.bounds.maxVotes ≤ round.commit.keys.card
  · rw [if_pos hf, if_pos hf]
    exact fun _ _ => rfl
  rw [if_neg hf, if_neg hf]
  refine reserve_bind_alike fun hre => .run_bind (round_run hr) ?_
  obtain ⟨proposal, hp, ha⟩ := hs.rounds _ _ hr
  have hc := hs.setRound hr hp (ha.addCommit (m := m) hv) rfl
    (hs.bounds_eq ▸ hre)
  refine .modify_bind rfl (.ite (fun _ => .refl _) fun _ => ?_)
  exact .modify_bind (removeRound_eq hc _) (.refl _)

variable (crypto : Crypto Key)

theorem commitCached_alike (cachedKey : Bytes) :
    Prog.Alike (PbftSidecar.Accounted bounds proposals) (f.commitCached crypto cachedKey context)
      (PbftSidecar.commitCached crypto cachedKey context) := by
  refine .get_bind fun s hs => ?_
  cases hk : s.pendingCommit.lookup cachedKey with
  | none => exact .refl _
  | some cached =>
  have hd := hs.dropCommit hk
  refine .modify_bind (by rw [sub_eq (hs.pendingCommit_le hk)]) ?_
  refine .mono ?_ fun s' hs' => hs' ▸ hd
  exact .bind_right Prog.Keeps.ofExcept fun signer =>
    commit_alike cached.2 signer context

theorem collect_alike {α : Type} {I : PbftSidecar → Prop} {x y : α → PbftM (List Effect)}
    (hxy : ∀ a, Prog.Alike I (x a) (y a)) (hy : ∀ a, Prog.Keeps I (y a)) (as : List α) :
    Prog.Alike I (collect x as) (collect y as) := by
  induction as with
  | nil => exact .refl _
  | cons a as ih =>
    exact .bind (hxy a) (hy a) fun _ => .bind_left _ ih

theorem voteLocally_alike {I : PbftSidecar → Prop} (msgType : MsgType)
    {x y : SignedMessage → Bytes → PbftM (List Effect)}
    (hxy : ∀ vote witness, Prog.Alike I (x vote witness) (y vote witness)) (key : Key) :
    Prog.Alike I (voteLocally crypto m msgType x key) (voteLocally crypto m msgType y key) := by
  refine .bind_right (Q := fun _ => I) Prog.Keeps.ofExcept fun vote => ?_
  refine .bind_right (Q := fun _ => I) Prog.Keeps.ofExcept fun witness => ?_
  exact .bind_left _ (hxy vote witness)

theorem commitLocally_alike :
    Prog.Alike (fun s => s.Accounted bounds proposals ∧ m.raw.no ∈ s.rounds)
      (f.commitLocally crypto m context) (PbftSidecar.commitLocally crypto m context) := by
  refine .of_eq fun s hs => ?_
  obtain ⟨hs, hm⟩ := hs
  obtain ⟨round, hr⟩ := Finmap.mem_iff.mp hm
  obtain ⟨proposal, hp, ha⟩ := hs.rounds _ _ hr
  have hd := hs.setRound hr hp (ha.setDone true) (Nat.add_zero _).symm
    hs.retained_le
  refine .run_bind (round_run hr) (.modify_bind (by rw [hr]) ?_)
  rw [hr]
  refine .mono ?_ fun s' hs' => by
    subst hs'
    exact hd
  exact collect_alike
    (fun key => voteLocally_alike m crypto .commit
      (fun vote witness => commit_alike vote witness context) key)
    (fun key => keeps_voteLocally m crypto .commit
      (fun vote witness => keeps_commit vote witness context) key) _

/-- The round of a number is there, or the number is completed. -/
def Stays (no : Bytes) (s : PbftSidecar) : Prop := no ∈ s.rounds ∨ no ∈ s.completed

theorem Stays.setRounds {no : Bytes} (h : Stays no s) (no' : Bytes) (round : Round) (retained : Nat) :
    Stays no { s with rounds := s.rounds.insert no' round, retainedBytes := retained } :=
  h.imp_left fun hm => Finmap.mem_insert.mpr (.inr hm)

theorem keeps_stays_cacheCommit (no : Bytes) (now : Int) :
    Prog.Keeps (Stays no) (cacheCommit m w now) := by
  refine .of_eq fun s hs => .get_bind ?_
  dsimp only
  split
  · split
    · exact .throw fun _ h => h ▸ hs
    · exact .pure fun _ h => h ▸ hs
  · by_cases hf : s.bounds.maxVotes ≤ s.pendingCommit.keys.card
    · rw [if_pos hf]
      exact .throw_bind fun _ h => h ▸ hs
    rw [if_neg hf]
    refine Triple.reserve_bind hs fun _ _ => .modify ?_
    rintro _ rfl
    exact hs

theorem keeps_stays_commit (no : Bytes) :
    Prog.Keeps (Stays no) (PbftSidecar.commit m w context) := by
  have hca : Prog.Keeps (Stays no) (do
      cacheCommit m w context.nowMillis
      pure ([] : List Effect)) :=
    .bind (keeps_stays_cacheCommit m w no context.nowMillis) fun _ => .pure
  refine .of_eq fun s hs => .get_bind ?_
  dsimp only
  split
  · exact hca.from_state hs
  rename_i round hr
  split
  · exact .throw fun _ h => h ▸ hs
  split
  · exact hca.from_state hs
  split
  · exact .throw fun _ h => h ▸ hs
  split
  · split
    · exact .throw fun _ h => h ▸ hs
    · exact .pure fun _ h => h ▸ hs
  by_cases hf : s.bounds.maxVotes ≤ round.commit.keys.card
  · rw [if_pos hf]
    exact .throw_bind fun _ h => h ▸ hs
  rw [if_neg hf]
  refine Triple.reserve_bind hs fun _ _ => .modify_bind ?_
  have hc := hs.setRounds m.raw.no { round with
    commit := round.commit.insert w m
    retainedBytes := round.retainedBytes + m.encodedLen } (s.retainedBytes + m.encodedLen)
  split
  · exact .pure fun _ h => h ▸ hc
  · refine .modify_bind (.modify_bind (.pure ?_))
    rintro _ rfl
    by_cases hno : no = m.raw.no
    · exact .inr (Finmap.mem_insert.mpr (.inl hno))
    · refine hc.imp (fun hm => ?_) fun hm => Finmap.mem_insert.mpr (.inr ?_)
      · unfold PbftSidecar.removeRound
        split
        · exact hm
        · exact Finmap.mem_erase.mpr ⟨hno, hm⟩
      · unfold PbftSidecar.removeRound
        split <;> exact hm

theorem keeps_stays_commitCached (no cachedKey : Bytes) :
    Prog.Keeps (Stays no) (PbftSidecar.commitCached crypto cachedKey context) := by
  refine .of_eq fun s hs => .get_bind ?_
  split
  · exact .pure fun _ h => h ▸ hs
  · rename_i cached hk
    refine .modify_bind ?_
    have hr : Prog.Keeps (Stays no) (do
        let signer ← Prog.ofExcept id (cached.2.recoverWitness crypto)
        PbftSidecar.commit cached.2 signer context) :=
      .bind .ofExcept fun signer =>
        keeps_stays_commit cached.2 signer context no
    exact hr.from_state hs

/-- **A PREPARE** finds its round each time, also after a cached COMMIT was counted: the round is
dropped only where its number is completed. -/
theorem prepare_alike :
    Prog.Alike (PbftSidecar.Accounted bounds proposals) (f.prepare crypto m w context)
      (PbftSidecar.prepare crypto m w context) := by
  refine .get_bind fun s hs => ?_
  dsimp only
  cases hr : s.rounds.lookup m.raw.no with
  | none => exact .refl _
  | some round =>
  obtain ⟨proposal, hp, ha⟩ := hs.rounds _ _ hr
  have hfo : ((some round).bind (·.identity)) = some proposal.raw.identity := ha.identity
  have hf' : ((some round).bind fun round => round.identity.map fun i => (round, i)) =
      some (round, proposal.raw.identity) := by
    rw [Option.bind_some, ha.identity, Option.map_some]
  rw [hfo, hf']
  refine .ite (fun _ => .refl _) fun _ => ?_
  refine .run_bind (round_run hr) ?_
  cases hv : round.prepare.lookup w with
  | some previous => exact .refl _
  | none =>
  dsimp only
  by_cases hf : s.bounds.maxVotes ≤ round.prepare.keys.card
  · rw [if_pos hf, if_pos hf]
    exact fun _ _ => rfl
  rw [if_neg hf, if_neg hf]
  refine reserve_bind_alike fun hre => .run_bind (round_run hr) ?_
  have hco := hs.setRound hr hp (ha.addPrepare (m := m) hv) rfl
    (hs.bounds_eq ▸ hre)
  refine .modify_bind rfl ?_
  refine .bind (Q := fun _ s' => s'.Accounted bounds proposals ∧ Stays m.raw.no s')
    (E := fun _ => True) ?_ ?_ fun effects => ?_
  · exact (commitCached_alike context crypto _).mono fun s' hs' => hs' ▸ hco
  · have hk := (keeps_commitCached context crypto (voteKey m.raw w)).from_state hco
    have hst := Stays.setRounds (.inl (Finmap.mem_iff.mpr ⟨round, hr⟩)) m.raw.no
      { round with
        prepare := round.prepare.insert w m
        retainedBytes := round.retainedBytes + m.encodedLen } (s.retainedBytes + m.encodedLen)
    have hb := hk.and
      ((keeps_stays_commitCached context crypto m.raw.no (voteKey m.raw w)).from_state hst)
    exact hb.conseq (fun _ h => h) (fun _ _ h => h) fun _ _ => trivial
  · refine .get_bind fun s' hs' => ?_
    by_cases hc : (s'.completed.lookup m.raw.no).isSome
    · rw [if_pos hc, if_pos hc]
      exact .refl _
    rw [if_neg hc, if_neg hc]
    refine .ite (fun _ => .refl _) fun _ => ?_
    have hm : m.raw.no ∈ s'.rounds := hs'.2.resolve_right fun hm =>
      hc (Finmap.lookup_isSome.mpr hm)
    have hal := commitLocally_alike (f := f) m context crypto s' ⟨hs'.1, hm⟩
    refine .bind_left _ fun s₁ hs₁ => ?_
    rw [hs₁]
    exact hal

theorem prepareCached_alike (cached : Bytes × SignedMessage) :
    Prog.Alike (PbftSidecar.Accounted bounds proposals) (f.prepareCached crypto context cached)
      (PbftSidecar.prepareCached crypto context cached) := by
  refine .of_eq fun s hs => ?_
  have hr : Prog.Alike (PbftSidecar.Accounted bounds proposals) (do
      let signer ← Prog.ofExcept id (cached.2.recoverWitness crypto)
      f.prepare crypto cached.2 signer context) (do
      let signer ← Prog.ofExcept id (cached.2.recoverWitness crypto)
      PbftSidecar.prepare crypto cached.2 signer context) :=
    .bind_right Prog.Keeps.ofExcept fun signer =>
      prepare_alike cached.2 signer context crypto
  refine .modify_bind ?_ (hr.mono ?_)
  · cases hk : s.pendingPrepare.lookup cached.1 with
    | none => rfl
    | some removed =>
      dsimp only
      rw [sub_eq (hs.pendingPrepare_le hk)]
  · rintro _ rfl
    cases hk : s.pendingPrepare.lookup cached.1 with
    | none => exact hs
    | some removed => exact hs.dropPrepare hk

theorem prepareOpened_alike :
    Prog.Alike (PbftSidecar.Accounted bounds proposals) (f.prepareOpened crypto m context)
      (PbftSidecar.prepareOpened crypto m context) := by
  refine .bind (Q := fun _ => PbftSidecar.Accounted bounds proposals)
    (E := PbftSidecar.Accounted bounds proposals)
    (.ite (fun _ => .refl _) fun _ => ?_)
    (Prog.Keeps.ite (fun _ => Prog.Keeps.pure) fun _ => ?_) fun effects => ?_
  · exact collect_alike
      (fun key => voteLocally_alike m crypto .prepare
        (fun vote witness => prepare_alike vote witness context crypto) key)
      (fun key => keeps_voteLocally m crypto .prepare
        (fun vote witness => keeps_prepare vote witness context crypto) key) _
  · exact keeps_collect (fun key => keeps_voteLocally m crypto .prepare
      (fun vote witness => keeps_prepare vote witness context crypto) key) _
  · refine .get_bind fun s hs => .bind_left _ ?_
    refine (collect_alike (prepareCached_alike context crypto)
      (keeps_prepareCached context crypto) _).mono fun _ h => h ▸ hs

theorem preprepare_eq (witness : Option Bytes) (hs : s.Accounted bounds proposals)
    (hp : s.rounds.lookup m.raw.no = none → proposals m.raw.no = some m) :
    f.preprepare crypto m witness context s = PbftSidecar.preprepare crypto m witness context s := by
  unfold Faults.preprepare PbftSidecar.preprepare
  by_cases hsw : context.chainSwitch
  · have ho : PbftSidecar.openRound m witness context s =
        (.ok false, PbftSidecar.removeRound m.raw.no s) := by
      rw [PbftSidecar.openRound, if_pos hsw]
      rfl
    rw [if_pos hsw, Prog.bind_of_ok ho, Prog.bind_of_ok (Prog.modify_run _ s),
      removeRound_eq hs]
    rfl
  · rw [if_neg hsw]
    have ha := Prog.Alike.bind_right (keeps_openRound m context witness hs hp)
      fun opened => .ite (c := opened = true)
        (fun _ => prepareOpened_alike (f := f) m context crypto) fun _ => .refl (pure [])
    exact ha s rfl

/-- **A dispatch** from an accounted sidecar, of a proposal or of a message whose witness is known. -/
theorem dispatch_eq (witness : Option Bytes) (hs : s.Accounted bounds proposals)
    (hp : m.raw.msgType = .preprepare → s.rounds.lookup m.raw.no = none →
      proposals m.raw.no = some m) (hw : witness = none → m.raw.msgType = .preprepare) :
    f.dispatch crypto m witness context s = PbftSidecar.dispatch crypto m witness context s := by
  unfold Faults.dispatch PbftSidecar.dispatch
  rw [Prog.bind_of_ok (Prog.get_run s), Prog.bind_of_ok (Prog.get_run s)]
  by_cases hc : (s.completed.lookup m.raw.no).isSome
  · rw [if_pos hc, if_pos hc]
  rw [if_neg hc, if_neg hc]
  cases hk : m.raw.msgType with
  | viewChange => cases witness <;> rfl
  | request => cases witness <;> rfl
  | preprepare =>
    have heq := preprepare_eq (f := f) m context crypto witness hs (hp hk)
    cases witness <;> exact heq
  | prepare =>
    cases witness with
    | none => exact absurd (hw rfl) (by rw [hk]; decide)
    | some w => exact prepare_alike m w context crypto s hs
  | commit =>
    cases witness with
    | none => exact absurd (hw rfl) (by rw [hk]; decide)
    | some w => exact commit_alike m w context s hs

theorem checkedSize_bind_alike {x y : Unit → PbftM (List Effect)}
    (h : Prog.Alike (· = s) (x ()) (y ())) :
    Prog.Alike (· = s) (checkedSize m >>= x) (checkedSize m >>= y) := by
  intro s' hs'
  subst hs'
  have hre := checkedSize_reads m s'
  rcases hr : checkedSize m s' with ⟨e | _, s₁⟩ <;> rw [hr] at hre <;> subst hre
  · rw [Prog.bind_of_error hr, Prog.bind_of_error hr]
  · rw [Prog.bind_of_ok hr, Prog.bind_of_ok hr]
    exact h _ rfl

end

/-- **A call** on an accounted sidecar has no fault. -/
theorem run_eq (f : Faults) (crypto : Crypto Key) {bounds : PbftBounds}
    {proposals : Bytes → Option SignedMessage} {s : PbftSidecar} (hs : s.Accounted bounds proposals)
    (call : Call Key) : f.run crypto call s = call.run crypto s := by
  cases call with
  | expire nowMillis => exact Prod.ext rfl (expire_eq hs nowMillis)
  | handle m context =>
    obtain ⟨he, hp⟩ := hs.opening (.handle m context) rfl
    change f.handle crypto m context s = PbftSidecar.handle crypto m context s
    unfold Faults.handle PbftSidecar.handle
    rw [Prog.bind_of_ok (Prog.modify_run _ s), Prog.bind_of_ok (Prog.modify_run _ s), expire_eq hs]
    refine checkedSize_bind_alike m ?_ _ rfl
    refine .bind_right (Q := fun _ => (· = PbftSidecar.expire context.nowMillis s))
      (E := fun _ => True) (.ofExcept (fun _ _ _ h => h) fun _ _ => trivial)
      fun w => .ite (fun _ => .refl _) fun _ => ?_
    rintro _ rfl
    exact dispatch_eq m context crypto (some w) he hp fun h => nomatch h
  | localPreprepare m context =>
    obtain ⟨he, hp⟩ := hs.opening (.localPreprepare m context) rfl
    change f.localPreprepare crypto m context s = PbftSidecar.localPreprepare crypto m context s
    unfold Faults.localPreprepare PbftSidecar.localPreprepare
    rw [Prog.bind_of_ok (Prog.modify_run _ s), Prog.bind_of_ok (Prog.modify_run _ s), expire_eq hs]
    refine checkedSize_bind_alike m ?_ _ rfl
    refine .ite (fun _ => .refl _) fun hk => ?_
    rintro _ rfl
    exact dispatch_eq m context crypto none he hp fun _ => not_not.mp hk

end Faults

/-- **The memory of the sidecar.** After any calls, failed ones among them, a sidecar counts the bytes
of its rounds and of the votes that wait, and each round those of its proposal and of its votes; the
count and the numbers are within the bounds. No further call expects what is not there or subtracts
more than there is. -/
theorem memory_accounted (crypto : Crypto Key) (quorum : Option Nat) (bounds : PbftBounds)
    (calls : List (Call Key)) :
    (after crypto calls (.new quorum bounds)).Accounted bounds
        (proposalsAfter crypto calls (.new quorum bounds) fun _ => none) ∧
      ∀ (f : Faults) (call : Call Key), f.run crypto call (after crypto calls (.new quorum bounds)) =
        call.run crypto (after crypto calls (.new quorum bounds)) := by
  have hs := PbftSidecar.Accounted.after crypto (accounted_new quorum bounds) calls
  exact ⟨hs, fun f call => f.run_eq crypto hs call⟩

/-- The round of block 1 is counted, with its votes. -/
theorem memory_accounted_sample :
    (after sampleCrypto proposedCalls (.new (some 3) .default)).retainedBytes ≠ 0 ∧
      (after sampleCrypto proposedCalls (.new (some 3) .default)).Accounted .default
        (proposalsAfter sampleCrypto proposedCalls (.new (some 3) .default) fun _ => none) :=
  ⟨by decide +kernel, (memory_accounted sampleCrypto (some 3) .default proposedCalls).1⟩

end RustTron.Consensus.Pbft
