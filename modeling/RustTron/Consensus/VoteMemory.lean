import RustTron.Consensus.Certificates

/-!
# The memory of the sidecar

The sidecar keeps a count of the bytes it retains: those of the rounds, each of which counts its
proposal and its votes, and those of the votes that wait. Every step of a call moves bytes from one
place to another together with the count, also where the call fails halfway.

## Main definitions

* `Round.Accounted`: the bytes of a round are those of its proposal and its votes
* `PbftSidecar.Accounted`: the bytes of a sidecar are those of its parts, within the bounds
* `Call.proposals`: the proposals that opened the rounds

## Main results

* `PbftSidecar.Accounted.setRound`: an elementary step
* `keeps_prepare`, `keeps_prepareOpened`: a vote with all that follows from it
* `accounted_run`, `PbftSidecar.Accounted.after`: the account after one call, and after any
-/

namespace RustTron.Consensus.Pbft

variable {Key : Type}

/-! ## Rows and reservations -/

theorem card_insert_le {V : Type} (rows : FMap Bytes V) (key : Bytes) (v : V) :
    (rows.insert key v).keys.card ≤ rows.keys.card + 1 := by
  have hk : (rows.insert key v).keys = insert key rows.keys := by
    ext k
    rw [Finset.mem_insert, Finmap.mem_keys, Finmap.mem_keys, Finmap.mem_insert]
  rw [hk]
  exact Finset.card_insert_le _ _

theorem card_erase {V : Type} {rows : FMap Bytes V} {key : Bytes} {v : V}
    (h : rows.lookup key = some v) : (rows.erase key).keys.card + 1 = rows.keys.card := by
  rw [Finmap.keys_erase]
  exact Finset.card_erase_add_one (Finmap.mem_keys.mpr (Finmap.mem_iff.mpr ⟨v, h⟩))

theorem reserve_run {s : PbftSidecar} {current added : Nat}
    (hro : current + added ≤ s.bounds.maxRoundBytes)
    (hr : s.retainedBytes + added ≤ s.bounds.maxRetainedBytes) :
    PbftSidecar.reserve current added s = (.ok (), s) := by
  rw [PbftSidecar.reserve, Prog.bind_of_ok (Prog.get_run s), if_neg]
  · rfl
  · simp only [Bool.or_eq_true, decide_eq_true_eq]
    omega

/-! ## Accounts -/

/-- The bytes of the votes of a round. -/
def votesBytes (votes : Votes) : Nat := FMap.total (fun _ vote => vote.encodedLen) votes

/-- The bytes of the votes that wait. -/
def pendingBytes (votes : FMap Bytes (Int × SignedMessage)) : Nat :=
  FMap.total (fun _ e => e.2.encodedLen) votes

/-- The bytes that the rounds count. -/
def roundsBytes (rounds : FMap Bytes Round) : Nat :=
  FMap.total (fun _ round => round.retainedBytes) rounds

/-- A round counts the bytes of its proposal and of its votes. -/
structure Round.Accounted (proposal : SignedMessage) (round : Round) : Prop where
  identity : round.identity = some proposal.raw.identity
  bytes : round.retainedBytes =
    proposal.encodedLen + votesBytes round.prepare + votesBytes round.commit

/-- A sidecar counts the bytes of its rounds and of the votes that wait, and keeps to its bounds. The
round of a number was opened by the proposal of the number. -/
structure PbftSidecar.Accounted (bounds : PbftBounds) (proposals : Bytes → Option SignedMessage)
    (s : PbftSidecar) : Prop where
  bounds_eq : s.bounds = bounds
  retained : s.retainedBytes =
    roundsBytes s.rounds + pendingBytes s.pendingPrepare + pendingBytes s.pendingCommit
  rounds : ∀ no round, s.rounds.lookup no = some round →
    ∃ proposal, proposals no = some proposal ∧ round.Accounted proposal
  retained_le : s.retainedBytes ≤ bounds.maxRetainedBytes
  rounds_le : s.rounds.keys.card ≤ bounds.maxRounds
  prepares_le : s.pendingPrepare.keys.card ≤ bounds.maxVotes
  commits_le : s.pendingCommit.keys.card ≤ bounds.maxVotes

theorem pendingBytes_insert {votes : FMap Bytes (Int × SignedMessage)} {key : Bytes}
    (e : Int × SignedMessage) (hk : votes.lookup key = none) :
    pendingBytes (votes.insert key e) = e.2.encodedLen + pendingBytes votes :=
  FMap.total_insert_of_notMem _ _ (Finmap.lookup_eq_none.mp hk)

theorem pendingBytes_erase {votes : FMap Bytes (Int × SignedMessage)} {key : Bytes}
    {e : Int × SignedMessage} (hk : votes.lookup key = some e) :
    e.2.encodedLen + pendingBytes (votes.erase key) = pendingBytes votes :=
  FMap.total_erase (fun (_ : Bytes) (e : Int × SignedMessage) => e.2.encodedLen) hk

theorem votesBytes_insert {votes : Votes} {w : Bytes} (m : SignedMessage)
    (hw : votes.lookup w = none) : votesBytes (votes.insert w m) = m.encodedLen + votesBytes votes :=
  FMap.total_insert_of_notMem _ _ (Finmap.lookup_eq_none.mp hw)

theorem roundsBytes_erase {rounds : FMap Bytes Round} {no : Bytes} {round : Round}
    (hno : rounds.lookup no = some round) :
    round.retainedBytes + roundsBytes (rounds.erase no) = roundsBytes rounds :=
  FMap.total_erase (fun (_ : Bytes) (r : Round) => r.retainedBytes) hno

/-- A round that takes the place of another changes the bytes of the rounds by the difference. -/
theorem roundsBytes_insert_some {rounds : FMap Bytes Round} {no : Bytes} {round : Round}
    (round' : Round) (hno : rounds.lookup no = some round) :
    round.retainedBytes + roundsBytes (rounds.insert no round') =
      round'.retainedBytes + roundsBytes rounds := by
  have hi := FMap.total_insert (fun (_ : Bytes) (r : Round) => r.retainedBytes) rounds no round'
  rwa [hno] at hi

theorem roundsBytes_insert_none {rounds : FMap Bytes Round} {no : Bytes} (round : Round)
    (hno : rounds.lookup no = none) :
    roundsBytes (rounds.insert no round) = round.retainedBytes + roundsBytes rounds :=
  FMap.total_insert_of_notMem _ _ (Finmap.lookup_eq_none.mp hno)

theorem keys_insert_of_lookup {V : Type} {rows : FMap Bytes V} {key : Bytes} {v : V} (v' : V)
    (h : rows.lookup key = some v) : (rows.insert key v').keys = rows.keys := by
  ext k
  rw [Finmap.mem_keys, Finmap.mem_keys, Finmap.mem_insert, or_iff_right_iff_imp]
  rintro rfl
  exact Finmap.mem_iff.mpr ⟨v, h⟩

namespace Round.Accounted

variable {proposal m : SignedMessage} {round : Round} {w : Bytes}

theorem addPrepare (h : round.Accounted proposal) (hw : round.prepare.lookup w = none) :
    ({ round with
      prepare := round.prepare.insert w m
      retainedBytes := round.retainedBytes + m.encodedLen } : Round).Accounted proposal where
  identity := h.identity
  bytes := by
    have hb := h.bytes
    have hi := votesBytes_insert m hw
    dsimp only
    omega

theorem addCommit (h : round.Accounted proposal) (hw : round.commit.lookup w = none) :
    ({ round with
      commit := round.commit.insert w m
      retainedBytes := round.retainedBytes + m.encodedLen } : Round).Accounted proposal where
  identity := h.identity
  bytes := by
    have hb := h.bytes
    have hi := votesBytes_insert m hw
    dsimp only
    omega

theorem setDone (h : round.Accounted proposal) (done : Bool) :
    ({ round with done } : Round).Accounted proposal := ⟨h.identity, h.bytes⟩

end Round.Accounted

/-! ## Elementary steps -/

namespace PbftSidecar.Accounted

variable {bounds : PbftBounds} {proposals : Bytes → Option SignedMessage} {s : PbftSidecar}
variable {no key : Bytes} {round : Round} {e : Int × SignedMessage}

theorem round_le (h : s.Accounted bounds proposals) (hno : s.rounds.lookup no = some round) :
    round.retainedBytes ≤ s.retainedBytes := by
  have hr := h.retained
  have he := roundsBytes_erase hno
  omega

theorem pendingPrepare_le (h : s.Accounted bounds proposals)
    (hk : s.pendingPrepare.lookup key = some e) : e.2.encodedLen ≤ s.retainedBytes := by
  have hr := h.retained
  have he := pendingBytes_erase hk
  omega

theorem pendingCommit_le (h : s.Accounted bounds proposals)
    (hk : s.pendingCommit.lookup key = some e) : e.2.encodedLen ≤ s.retainedBytes := by
  have hr := h.retained
  have he := pendingBytes_erase hk
  omega

theorem setRound (h : s.Accounted bounds proposals) (hno : s.rounds.lookup no = some round)
    {round' : Round} {proposal : SignedMessage} (hp : proposals no = some proposal)
    (hr' : round'.Accounted proposal) {added : Nat}
    (ha : round'.retainedBytes = round.retainedBytes + added)
    (hle : s.retainedBytes + added ≤ bounds.maxRetainedBytes) :
    ({ s with rounds := s.rounds.insert no round', retainedBytes := s.retainedBytes + added } :
      PbftSidecar).Accounted bounds proposals where
  bounds_eq := h.bounds_eq
  retained := by
    have hs := h.retained
    have hi := roundsBytes_insert_some round' hno
    dsimp only
    omega
  rounds := by
    intro no' r hr
    by_cases hn' : no' = no
    · subst hn'
      rw [Finmap.lookup_insert] at hr
      cases hr
      exact ⟨proposal, hp, hr'⟩
    · rw [Finmap.lookup_insert_of_ne _ hn'] at hr
      exact h.rounds no' r hr
  retained_le := hle
  rounds_le := by
    dsimp only
    rw [keys_insert_of_lookup round' hno]
    exact h.rounds_le
  prepares_le := h.prepares_le
  commits_le := h.commits_le

theorem openRound (h : s.Accounted bounds proposals) (hno : s.rounds.lookup no = none)
    {proposal : SignedMessage} (hp : proposals no = some proposal)
    (hro : round.Accounted proposal) (hroo : s.rounds.keys.card < bounds.maxRounds)
    (hle : s.retainedBytes + round.retainedBytes ≤ bounds.maxRetainedBytes) :
    ({ s with
      rounds := s.rounds.insert no round
      retainedBytes := s.retainedBytes + round.retainedBytes } :
      PbftSidecar).Accounted bounds proposals where
  bounds_eq := h.bounds_eq
  retained := by
    have hs := h.retained
    have hi := roundsBytes_insert_none round hno
    dsimp only
    omega
  rounds := by
    intro no' r hr
    by_cases hn' : no' = no
    · subst hn'
      rw [Finmap.lookup_insert] at hr
      cases hr
      exact ⟨proposal, hp, hro⟩
    · rw [Finmap.lookup_insert_of_ne _ hn'] at hr
      exact h.rounds no' r hr
  retained_le := hle
  rounds_le := (card_insert_le _ _ _).trans hroo
  prepares_le := h.prepares_le
  commits_le := h.commits_le

theorem dropRound (h : s.Accounted bounds proposals) (hno : s.rounds.lookup no = some round) :
    ({ s with
      rounds := s.rounds.erase no
      retainedBytes := s.retainedBytes - round.retainedBytes } :
      PbftSidecar).Accounted bounds proposals where
  bounds_eq := h.bounds_eq
  retained := by
    have hs := h.retained
    have he := roundsBytes_erase hno
    dsimp only
    omega
  rounds := by
    intro no' r hr
    by_cases hn' : no' = no
    · subst hn'
      rw [Finmap.lookup_erase] at hr
      cases hr
    · rw [Finmap.lookup_erase_ne hn'] at hr
      exact h.rounds no' r hr
  retained_le := (Nat.sub_le _ _).trans h.retained_le
  rounds_le := by
    have hc := card_erase hno
    have hle := h.rounds_le
    dsimp only
    omega
  prepares_le := h.prepares_le
  commits_le := h.commits_le

theorem removeRound (h : s.Accounted bounds proposals) (no : Bytes) :
    (PbftSidecar.removeRound no s).Accounted bounds proposals := by
  unfold PbftSidecar.removeRound
  split
  · exact h
  · rename_i hno
    exact h.dropRound hno

theorem setCompleted (h : s.Accounted bounds proposals) (completed : FMap Bytes Int) :
    ({ s with completed } : PbftSidecar).Accounted bounds proposals :=
  ⟨h.bounds_eq, h.retained, h.rounds, h.retained_le, h.rounds_le, h.prepares_le, h.commits_le⟩

theorem setPending (h : s.Accounted bounds proposals) {prepare commit : FMap Bytes (Int × SignedMessage)}
    {retained : Nat}
    (hr : retained + pendingBytes s.pendingPrepare + pendingBytes s.pendingCommit =
      s.retainedBytes + pendingBytes prepare + pendingBytes commit)
    (hle : retained ≤ bounds.maxRetainedBytes) (hp : prepare.keys.card ≤ bounds.maxVotes)
    (hc : commit.keys.card ≤ bounds.maxVotes) :
    ({ s with
      pendingPrepare := prepare
      pendingCommit := commit
      retainedBytes := retained } : PbftSidecar).Accounted bounds proposals where
  bounds_eq := h.bounds_eq
  retained := by
    have hs := h.retained
    dsimp only
    omega
  rounds := h.rounds
  retained_le := hle
  rounds_le := h.rounds_le
  prepares_le := hp
  commits_le := hc

theorem dropPrepare (h : s.Accounted bounds proposals) (hk : s.pendingPrepare.lookup key = some e) :
    ({ s with
      pendingPrepare := s.pendingPrepare.erase key
      retainedBytes := s.retainedBytes - e.2.encodedLen } : PbftSidecar).Accounted bounds proposals := by
  have hle := h.pendingPrepare_le hk
  have he := pendingBytes_erase hk
  have hc := card_erase hk
  have hp := h.prepares_le
  exact h.setPending (by omega) ((Nat.sub_le _ _).trans h.retained_le) (by omega) h.commits_le

theorem dropCommit (h : s.Accounted bounds proposals) (hk : s.pendingCommit.lookup key = some e) :
    ({ s with
      pendingCommit := s.pendingCommit.erase key
      retainedBytes := s.retainedBytes - e.2.encodedLen } : PbftSidecar).Accounted bounds proposals := by
  have hle := h.pendingCommit_le hk
  have he := pendingBytes_erase hk
  have hca := card_erase hk
  have hc := h.commits_le
  exact h.setPending (by omega) ((Nat.sub_le _ _).trans h.retained_le) h.prepares_le (by omega)

end PbftSidecar.Accounted

/-! ## Expiry -/

theorem total_retain_add_droppedBytes {V : Type} (keep : V → Bool) (size : V → Nat)
    (rows : FMap Bytes V) :
    FMap.total (fun _ v => size v) (retain keep rows) + droppedBytes keep size rows =
      FMap.total (fun _ v => size v) rows := by
  have hs : (retain keep rows).keys ⊆ rows.keys := by
    intro k hk
    exact Finmap.mem_keys.mpr (mem_of_mem_retain (Finmap.mem_keys.mp hk))
  have hkep : FMap.total (fun _ v => size v) (retain keep rows) =
      ∑ k ∈ rows.keys, (((retain keep rows).lookup k).map size).getD 0 := by
    rw [FMap.total_eq_sum_getD]
    refine Finset.sum_subset hs fun k _ hk => ?_
    rw [Finmap.lookup_eq_none.mpr fun hm => hk (Finmap.mem_keys.mpr hm)]
    rfl
  rw [hkep, droppedBytes, FMap.total_eq_sum_getD, FMap.total_eq_sum_getD,
    ← Finset.sum_add_distrib]
  refine Finset.sum_congr rfl fun k hk => ?_
  obtain ⟨v, hv⟩ := Finmap.mem_iff.mp (Finmap.mem_keys.mp hk)
  rw [lookup_retain, hv]
  cases hke : keep v <;> simp [Option.filter, hke]

theorem card_retain_le {V : Type} (keep : V → Bool) (rows : FMap Bytes V) :
    (retain keep rows).keys.card ≤ rows.keys.card := by
  refine Finset.card_le_card fun k hk => ?_
  exact Finmap.mem_keys.mpr (mem_of_mem_retain (Finmap.mem_keys.mp hk))

/-- **An expiry** takes the bytes of all that it drops. -/
theorem PbftSidecar.Accounted.expire {bounds : PbftBounds}
    {proposals : Bytes → Option SignedMessage} {s : PbftSidecar} (h : s.Accounted bounds proposals)
    (now : Int) : (PbftSidecar.expire now s).Accounted bounds proposals where
  bounds_eq := h.bounds_eq
  retained := by
    have hs := h.retained
    have hro := total_retain_add_droppedBytes (s.keepsRound now) (·.retainedBytes) s.rounds
    have hp := total_retain_add_droppedBytes (fun e : Int × SignedMessage =>
      s.keepsEntry now e.1) (·.2.encodedLen) s.pendingPrepare
    have hc := total_retain_add_droppedBytes (fun e : Int × SignedMessage =>
      s.keepsEntry now e.1) (·.2.encodedLen) s.pendingCommit
    simp only [PbftSidecar.expire, roundsBytes, pendingBytes] at *
    omega
  rounds := fun no round hr => h.rounds no round (lookup_of_retain hr)
  retained_le := by
    have hle := h.retained_le
    simp only [PbftSidecar.expire]
    omega
  rounds_le := (card_retain_le _ _).trans h.rounds_le
  prepares_le := (card_retain_le _ _).trans h.prepares_le
  commits_le := (card_retain_le _ _).trans h.commits_le

/-! ## Votes -/

section

variable {bounds : PbftBounds} {proposals : Bytes → Option SignedMessage} {s : PbftSidecar}

theorem reserve_cases (s : PbftSidecar) (current added : Nat) :
    (PbftSidecar.reserve current added s = (.ok (), s) ∧
      current + added ≤ s.bounds.maxRoundBytes ∧
        s.retainedBytes + added ≤ s.bounds.maxRetainedBytes) ∨
      PbftSidecar.reserve current added s = (.error .capacity, s) := by
  by_cases hf : current + added ≤ s.bounds.maxRoundBytes ∧
      s.retainedBytes + added ≤ s.bounds.maxRetainedBytes
  · exact .inl ⟨reserve_run hf.1 hf.2, hf⟩
  · refine .inr ?_
    rw [PbftSidecar.reserve, Prog.bind_of_ok (Prog.get_run s), if_pos]
    · rfl
    · simp only [Bool.or_eq_true, decide_eq_true_eq]
      omega

theorem Triple.reserve_bind {α : Type} {current added : Nat} {f : Unit → PbftM α}
    {Q : α → PbftSidecar → Prop} {E : PbftSidecar → Prop} (he : E s)
    (hf : current + added ≤ s.bounds.maxRoundBytes →
      s.retainedBytes + added ≤ s.bounds.maxRetainedBytes → Prog.Triple (· = s) (f ()) Q E) :
    Prog.Triple (· = s) (PbftSidecar.reserve current added >>= f) Q E := by
  rcases reserve_cases s current added with ⟨hru, hro, hr⟩ | hru
  · exact .run_bind hru (hf hro hr)
  · rintro _ rfl
    rw [Prog.bind_of_error hru]
    exact he

variable (m : SignedMessage) (w : Bytes) (now : Int)

theorem keeps_cachePrepare :
    Prog.Keeps (PbftSidecar.Accounted bounds proposals) (PbftSidecar.cachePrepare m w now) := by
  refine .of_eq fun s hs => .get_bind ?_
  dsimp only
  split
  · split
    · exact .throw fun _ h => h ▸ hs
    · exact .pure fun _ h => h ▸ hs
  · rename_i hk
    by_cases hf : s.bounds.maxVotes ≤ s.pendingPrepare.keys.card
    · rw [if_pos hf]
      exact .throw_bind fun _ h => h ▸ hs
    rw [if_neg hf]
    have hi := pendingBytes_insert (now, m) hk
    have hc := card_insert_le s.pendingPrepare (voteKey m.raw w) (now, m)
    refine Triple.reserve_bind hs fun _ hr => .modify ?_
    rintro _ rfl
    rw [hs.bounds_eq] at hf hr
    exact hs.setPending (by dsimp only at hi; omega) hr (by omega) hs.commits_le

theorem keeps_cacheCommit :
    Prog.Keeps (PbftSidecar.Accounted bounds proposals) (PbftSidecar.cacheCommit m w now) := by
  refine .of_eq fun s hs => .get_bind ?_
  dsimp only
  split
  · split
    · exact .throw fun _ h => h ▸ hs
    · exact .pure fun _ h => h ▸ hs
  · rename_i hk
    by_cases hf : s.bounds.maxVotes ≤ s.pendingCommit.keys.card
    · rw [if_pos hf]
      exact .throw_bind fun _ h => h ▸ hs
    rw [if_neg hf]
    have hi := pendingBytes_insert (now, m) hk
    have hc := card_insert_le s.pendingCommit (voteKey m.raw w) (now, m)
    refine Triple.reserve_bind hs fun _ hr => .modify ?_
    rintro _ rfl
    rw [hs.bounds_eq] at hf hr
    exact hs.setPending (by dsimp only at hi; omega) hr hs.prepares_le (by omega)

variable (context : PbftContext Key)

/-- **A COMMIT** is cached, or counted in its round, which a quorum completes. -/
theorem keeps_commit :
    Prog.Keeps (PbftSidecar.Accounted bounds proposals) (PbftSidecar.commit m w context) := by
  have hca : Prog.Keeps (PbftSidecar.Accounted bounds proposals) (do
      PbftSidecar.cacheCommit m w context.nowMillis
      pure ([] : List Effect)) :=
    .bind (keeps_cacheCommit m w context.nowMillis) fun _ => .pure
  refine .of_eq fun s hs => .get_bind ?_
  dsimp only
  split
  · exact hca.from_state hs
  rename_i round hro
  split
  · exact .throw fun _ h => h ▸ hs
  split
  · exact hca.from_state hs
  split
  · exact .throw fun _ h => h ▸ hs
  split
  · split
    · exact .throw fun _ h => h ▸ hs
    · exact .pure fun _ h => h ▸ hs
  rename_i hv
  by_cases hf : s.bounds.maxVotes ≤ round.commit.keys.card
  · rw [if_pos hf]
    exact .throw_bind fun _ h => h ▸ hs
  rw [if_neg hf]
  refine Triple.reserve_bind hs fun _ hr => .modify_bind ?_
  obtain ⟨proposal, hp, ha⟩ := hs.rounds _ _ hro
  have hc := hs.setRound hro hp (ha.addCommit (m := m) hv) rfl
    (hs.bounds_eq ▸ hr)
  split
  · exact .pure fun _ h => h ▸ hc
  · refine .modify_bind (.modify_bind (.pure ?_))
    rintro _ rfl
    exact (hc.removeRound _).setCompleted _

variable (crypto : Crypto Key)

theorem keeps_commitCached (cachedKey : Bytes) :
    Prog.Keeps (PbftSidecar.Accounted bounds proposals)
      (PbftSidecar.commitCached crypto cachedKey context) := by
  refine .of_eq fun s hs => .get_bind ?_
  split
  · exact .pure fun _ h => h ▸ hs
  · rename_i cached hk
    refine .modify_bind ?_
    have hr : Prog.Keeps (PbftSidecar.Accounted bounds proposals) (do
        let signer ← Prog.ofExcept id (cached.2.recoverWitness crypto)
        PbftSidecar.commit cached.2 signer context) :=
      .bind .ofExcept fun signer => keeps_commit cached.2 signer context
    exact hr.from_state (hs.dropCommit hk)

theorem keeps_collect {α : Type} {I : PbftSidecar → Prop} {body : α → PbftM (List Effect)}
    (hb : ∀ a, Prog.Keeps I (body a)) (as : List α) :
    Prog.Keeps I (PbftSidecar.collect body as) := by
  induction as with
  | nil => exact .pure
  | cons a as ih =>
    exact .bind (hb a) fun _ => .bind ih fun _ => .pure

theorem keeps_voteLocally {I : PbftSidecar → Prop} (msgType : MsgType)
    {count : SignedMessage → Bytes → PbftM (List Effect)}
    (hc : ∀ vote witness, Prog.Keeps I (count vote witness)) (key : Key) :
    Prog.Keeps I (PbftSidecar.voteLocally crypto m msgType count key) := by
  refine .bind .ofExcept fun vote => ?_
  refine .bind .ofExcept fun witness => ?_
  exact .bind (hc vote witness) fun _ => .pure

theorem keeps_commitLocally :
    Prog.Keeps (PbftSidecar.Accounted bounds proposals)
      (PbftSidecar.commitLocally crypto m context) := by
  refine .bind (.modify fun s hs => ?_) fun _ =>
    keeps_collect (fun key => keeps_voteLocally m crypto .commit
      (fun vote witness => keeps_commit vote witness context) key) _
  split
  · exact hs
  · rename_i round hr
    obtain ⟨proposal, hp, ha⟩ := hs.rounds _ _ hr
    exact hs.setRound hr hp (ha.setDone true) (Nat.add_zero _).symm
      hs.retained_le

/-- **A PREPARE** is cached, or counted in its round with what follows from it. -/
theorem keeps_prepare :
    Prog.Keeps (PbftSidecar.Accounted bounds proposals)
      (PbftSidecar.prepare crypto m w context) := by
  refine .of_eq fun s hs => .get_bind ?_
  dsimp only
  split
  · have hca : Prog.Keeps (PbftSidecar.Accounted bounds proposals) (do
        PbftSidecar.cachePrepare m w context.nowMillis
        pure ([] : List Effect)) :=
      .bind (keeps_cachePrepare m w context.nowMillis) fun _ => .pure
    exact hca.from_state hs
  rename_i round roundIdentity hfo
  have hro : s.rounds.lookup m.raw.no = some round := by
    obtain ⟨r, hr, hm⟩ := Option.bind_eq_some_iff.mp hfo
    obtain ⟨i, -, heq⟩ := Option.map_eq_some_iff.mp hm
    cases heq
    exact hr
  split
  · exact .throw fun _ h => h ▸ hs
  split
  · split
    · exact .throw fun _ h => h ▸ hs
    · exact .pure fun _ h => h ▸ hs
  rename_i hv
  by_cases hf : s.bounds.maxVotes ≤ round.prepare.keys.card
  · rw [if_pos hf]
    exact .throw_bind fun _ h => h ▸ hs
  rw [if_neg hf]
  refine Triple.reserve_bind hs fun _ hre => .modify_bind ?_
  obtain ⟨proposal, hp, ha⟩ := hs.rounds _ _ hro
  have hc := hs.setRound hro hp (ha.addPrepare (m := m) hv) rfl
    (hs.bounds_eq ▸ hre)
  refine Prog.Keeps.from_state (Prog.Keeps.bind (keeps_commitCached context crypto _) fun effects => ?_)
    hc
  refine Prog.Keeps.bind Prog.Keeps.get fun s' => ?_
  refine .ite (fun _ => .pure) fun _ => ?_
  refine .ite (fun _ => .pure) fun _ => ?_
  exact .bind (keeps_commitLocally m context crypto) fun _ => .pure

theorem keeps_prepareCached (cached : Bytes × SignedMessage) :
    Prog.Keeps (PbftSidecar.Accounted bounds proposals)
      (PbftSidecar.prepareCached crypto context cached) := by
  refine .bind (.modify fun s hs => ?_) fun _ =>
    .bind .ofExcept fun signer => keeps_prepare cached.2 signer context crypto
  split
  · exact hs
  · rename_i removed hk
    exact hs.dropPrepare hk

/-- **The votes of an opened round**, the local ones and the cached ones. -/
theorem keeps_prepareOpened :
    Prog.Keeps (PbftSidecar.Accounted bounds proposals)
      (PbftSidecar.prepareOpened crypto m context) := by
  refine .bind (.ite (fun _ => .pure) fun _ => ?_) fun effects => ?_
  · exact keeps_collect (fun key => keeps_voteLocally m crypto .prepare
      (fun vote witness => keeps_prepare vote witness context crypto) key) _
  · refine .bind .get fun s => ?_
    exact .bind (keeps_collect (keeps_prepareCached context crypto) _) fun _ =>
      .pure

/-- The round that a proposal opens is accounted to it; where it does not open one, the account stays
as it is. -/
theorem keeps_openRound (witness : Option Bytes) (hs : s.Accounted bounds proposals)
    (hp : s.rounds.lookup m.raw.no = none → proposals m.raw.no = some m) :
    Prog.Triple (· = s) (PbftSidecar.openRound m witness context)
      (fun _ => PbftSidecar.Accounted bounds proposals) (PbftSidecar.Accounted bounds proposals) := by
  unfold PbftSidecar.openRound
  dsimp only
  split
  · refine .modify_bind (.pure ?_)
    rintro _ rfl
    exact hs.removeRound _
  split
  · exact .throw fun _ h => h ▸ hs
  split
  · exact .throw fun _ h => h ▸ hs
  split
  · exact .throw fun _ h => h ▸ hs
  refine .get_bind ?_
  split
  · split
    · exact .pure fun _ h => h ▸ hs
    · exact .throw fun _ h => h ▸ hs
  rename_i hro
  by_cases hf : s.bounds.maxRounds ≤ s.rounds.keys.card
  · rw [if_pos hf]
    exact .throw_bind fun _ h => h ▸ hs
  rw [if_neg hf]
  refine Triple.reserve_bind hs fun _ hr =>
    .modify_bind (.pure ?_)
  rintro _ rfl
  rw [hs.bounds_eq] at hf hr
  exact hs.openRound hro (hp hro) ⟨rfl, rfl⟩ (by omega) hr

theorem keeps_dispatch (witness : Option Bytes) (hs : s.Accounted bounds proposals)
    (hp : m.raw.msgType = .preprepare → s.rounds.lookup m.raw.no = none →
      proposals m.raw.no = some m) :
    (PbftSidecar.dispatch crypto m witness context s).2.Accounted bounds proposals := by
  have hk : Prog.Triple (· = s) (PbftSidecar.dispatch crypto m witness context)
      (fun _ => PbftSidecar.Accounted bounds proposals) (PbftSidecar.Accounted bounds proposals) := by
    refine .get_bind ?_
    split
    · exact .pure fun _ h => h ▸ hs
    split
    · rename_i hki
      refine .bind (keeps_openRound m context _ hs (hp hki))
        fun opened => ?_
      exact .ite (fun _ => keeps_prepareOpened m context crypto)
        fun _ => Prog.Keeps.pure
    · exact (keeps_prepare m _ context crypto).from_state hs
    · exact (keeps_commit m _ context).from_state hs
    · exact .pure fun _ h => h ▸ hs
  rcases hr : PbftSidecar.dispatch crypto m witness context s with ⟨e | _, s'⟩
  · exact hk.of_run_error rfl hr
  · exact hk.of_run rfl hr

end

/-! ## Runs -/

/-- The proposals that opened the rounds: a call with a proposal for a number without a round makes
it the proposal of the number. -/
def Call.proposals (call : Call Key) (s : PbftSidecar) (proposals : Bytes → Option SignedMessage) :
    Bytes → Option SignedMessage :=
  match call.input with
  | some (m, context) =>
    if m.raw.msgType = .preprepare ∧
        (PbftSidecar.expire context.nowMillis s).rounds.lookup m.raw.no = none then
      Function.update proposals m.raw.no (some m)
    else proposals
  | none => proposals

/-- The proposals that opened the rounds, after calls from a state. -/
def proposalsAfter (crypto : Crypto Key) :
    List (Call Key) → PbftSidecar → (Bytes → Option SignedMessage) → Bytes → Option SignedMessage
  | [], _, proposals => proposals
  | call :: calls, s, proposals =>
    proposalsAfter crypto calls (call.run crypto s).2 (call.proposals s proposals)

variable {bounds : PbftBounds} {proposals : Bytes → Option SignedMessage} {s : PbftSidecar}

theorem PbftSidecar.Accounted.update (h : s.Accounted bounds proposals)
    {no : Bytes} (hno : s.rounds.lookup no = none) (proposal : Option SignedMessage) :
    s.Accounted bounds (Function.update proposals no proposal) where
  bounds_eq := h.bounds_eq
  retained := h.retained
  rounds := by
    intro no' round hr
    have hne : no' ≠ no := by
      rintro rfl
      rw [hno] at hr
      cases hr
    rw [Function.update_of_ne hne]
    exact h.rounds no' round hr
  retained_le := h.retained_le
  rounds_le := h.rounds_le
  prepares_le := h.prepares_le
  commits_le := h.commits_le

/-- The state that the expiry of a call leaves is accounted, to the proposal of the call as well. -/
theorem PbftSidecar.Accounted.opening (h : s.Accounted bounds proposals)
    (call : Call Key) {m : SignedMessage} {context : PbftContext Key}
    (hi : call.input = some (m, context)) :
    (PbftSidecar.expire context.nowMillis s).Accounted bounds (call.proposals s proposals) ∧
      (m.raw.msgType = .preprepare →
        (PbftSidecar.expire context.nowMillis s).rounds.lookup m.raw.no = none →
        call.proposals s proposals m.raw.no = some m) := by
  have he := h.expire context.nowMillis
  unfold Call.proposals
  rw [hi]
  dsimp only
  split
  · rename_i ho
    exact ⟨he.update ho.2 _, fun _ _ => Function.update_self _ _ _⟩
  · rename_i hk
    exact ⟨he, fun hki hno => absurd ⟨hki, hno⟩ hk⟩

/-- **A call** keeps the account, also where it fails. -/
theorem accounted_run (crypto : Crypto Key) (h : s.Accounted bounds proposals)
    (call : Call Key) : (call.run crypto s).2.Accounted bounds (call.proposals s proposals) := by
  cases call with
  | expire nowMillis => exact h.expire nowMillis
  | handle m context =>
    obtain ⟨he, hp⟩ := h.opening (.handle m context) rfl
    rcases handle_cases crypto m context s with ⟨e, hr⟩ | ⟨w, -, -, hr⟩
    · rw [Call.run, hr]
      exact he
    · rw [Call.run, hr]
      exact keeps_dispatch m context crypto (some w) he hp
  | localPreprepare m context =>
    obtain ⟨he, hp⟩ := h.opening (.localPreprepare m context) rfl
    rcases localPreprepare_cases crypto m context s with ⟨e, hr⟩ | hr
    · rw [Call.run, hr]
      exact he
    · rw [Call.run, hr]
      exact keeps_dispatch m context crypto none he hp

/-- **The account after any calls.** -/
theorem PbftSidecar.Accounted.after (crypto : Crypto Key) (h : s.Accounted bounds proposals)
    (calls : List (Call Key)) :
    (after crypto calls s).Accounted bounds (proposalsAfter crypto calls s proposals) := by
  induction calls generalizing s proposals with
  | nil => exact h
  | cons call calls ih => exact ih (accounted_run crypto h call)

theorem accounted_new (quorum : Option Nat) (bounds : PbftBounds) :
    (PbftSidecar.new quorum bounds).Accounted bounds fun _ => none where
  bounds_eq := rfl
  retained := rfl
  rounds _ _ h := nomatch h
  retained_le := Nat.zero_le _
  rounds_le := Nat.zero_le _
  prepares_le := Nat.zero_le _
  commits_le := Nat.zero_le _

end RustTron.Consensus.Pbft
