import RustTron.Consensus.Pbft

/-!
# The votes of a sidecar

What a sidecar keeps, and what its calls return, for any predicate `V` that tells which votes are
good and any predicate `R` that tells which proposals may have a round. Every vote of a round is for
the proposal of the round, and a witness that has committed has prepared.

`Yields s₀ effects s` says what a piece of a call from `s₀` to `s` did. It composes, so each function
of the sidecar has one lemma, and the lemma of a caller follows its text.

## Main definitions

* `Ballot`, `CertifiedBy`: a good vote, and the votes a commit is made of
* `PbftSidecar.Sound`: the invariant
* `Yields`, `Emits`: what a piece of a call did, and that a program does no more than that

## Main results

* `emits_commit`, `emits_prepare`, `yields_preprepare`: the three phases
* `yields_dispatch`: a message of any kind
-/

namespace RustTron.Consensus.Pbft

variable {Key : Type}

/-- The message of a kind for a proposal. -/
def ProposalIdentity.raw (identity : ProposalIdentity) (msgType : MsgType) : Raw :=
  ⟨msgType, identity.dataType, identity.viewN, identity.epoch, identity.data⟩

/-- The number of a proposal, as `Raw::no` writes it. -/
def ProposalIdentity.no (identity : ProposalIdentity) : Bytes := (identity.raw .preprepare).no

/-- The number that a commit is for. -/
def CommitData.no (data : CommitData) : Bytes :=
  ProposalIdentity.no ⟨data.dataType, data.number, data.epoch, []⟩

theorem Raw.no_identity (raw : Raw) : raw.identity.no = raw.no := rfl

theorem Raw.raw_identity (raw : Raw) : raw.identity.raw raw.msgType = raw := rfl

theorem Raw.eq_raw {raw : Raw} {identity : ProposalIdentity} {msgType : MsgType}
    (hi : raw.identity = identity) (ht : raw.msgType = msgType) :
    raw = identity.raw msgType := by
  rw [← hi, ← ht, raw.raw_identity]

section

variable (crypto : Crypto Key) (V : Bytes → SignedMessage → Prop) (R : ProposalIdentity → Prop)

/-- A good vote of a kind: signed by the witness. -/
structure Ballot (msgType : MsgType) (witness : Bytes) (message : SignedMessage) : Prop where
  kind : message.raw.msgType = msgType
  signer : message.recoverWitness crypto = .ok witness
  good : V witness message

/-- The votes a commit is made of. -/
structure CertifiedBy (need : Nat) (data : CommitData) (identity : ProposalIdentity)
    (votes : List (Bytes × SignedMessage)) : Prop where
  bytes : data.raw = (identity.raw .commit).bytes
  kind : data.dataType = identity.dataType
  number : data.number = identity.viewN
  epoch : data.epoch = identity.epoch
  signatures : data.signatures = votes.map (·.2.signature)
  distinct : (votes.map (·.1)).Nodup
  enough : need ≤ votes.length
  committed : ∀ vote ∈ votes, vote.2.raw.identity = identity ∧ Ballot crypto V .commit vote.1 vote.2
  prepared : ∀ vote ∈ votes, ∃ prepare : SignedMessage,
    prepare.raw.identity = identity ∧ Ballot crypto V .prepare vote.1 prepare

/-- A round keeps votes for its own proposal, of witnesses that have prepared. -/
structure Round.Sound (no : Bytes) (round : Round) (identity : ProposalIdentity) : Prop where
  proposal : round.identity = some identity
  number : identity.no = no
  allowed : R identity
  prepare : ∀ w m, round.prepare.lookup w = some m →
    m.raw.identity = identity ∧ Ballot crypto V .prepare w m
  commit : ∀ w m, round.commit.lookup w = some m →
    m.raw.identity = identity ∧ Ballot crypto V .commit w m
  both : ∀ w ∈ round.commit, w ∈ round.prepare

/-- The invariant of a sidecar. -/
structure PbftSidecar.Sound (s : PbftSidecar) : Prop where
  round : ∀ no round, s.rounds.lookup no = some round →
    ∃ identity, round.Sound crypto V R no identity
  prepare : ∀ key e, s.pendingPrepare.lookup key = some e → ∃ w, Ballot crypto V .prepare w e.2
  commit : ∀ key e, s.pendingCommit.lookup key = some e → ∃ w, Ballot crypto V .commit w e.2
  closed : ∀ no ∈ s.completed, no ∉ s.rounds

/-- The commits among the effects of a call. -/
def commitsOf (effects : List Effect) : List CommitData :=
  effects.filterMap fun effect => match effect with
    | .forward _ => none
    | .commit data => some data

/-- What a piece of a call did from `s₀` to `s`, where it returned `effects`. -/
structure Yields (context : PbftContext Key) (s₀ : PbftSidecar) (effects : List Effect)
    (s : PbftSidecar) : Prop where
  sound : s.Sound crypto V R
  quorum : s.quorum = s₀.quorum
  completed : ∀ no ∈ s₀.completed, no ∈ s.completed
  rounds : ∀ no ∈ s₀.rounds, no ∈ s.rounds ∨ no ∈ s.completed
  forwards : ∀ bytes, .forward bytes ∈ effects → ∃ m : SignedMessage,
    bytes = m.bytes ∧ R m.raw.identity
  commits : ∀ data ∈ commitsOf effects, data.no ∉ s₀.completed ∧ data.no ∈ s.completed ∧
    ∃ identity votes, R identity ∧
      CertifiedBy crypto V (quorumOf s₀.quorum (context.committee data.epoch).length) data identity
        votes
  distinct : ((commitsOf effects).map CommitData.no).Nodup

/-- A vote has the signature that a local key makes of it, for a proposal that may have a round. -/
structure Signed (context : PbftContext Key) (witness : Bytes) (m : SignedMessage) : Prop where
  allowed : R m.raw.identity
  signer : m.recoverWitness crypto = .ok witness
  signature : ∃ key ∈ context.signerKeys m.raw.epoch, crypto.sign key m.raw.bytes = .ok m.signature

/-- The COMMIT votes of the local keys are good. -/
def Signs (context : PbftContext Key) : Prop :=
  ∀ w m, m.raw.msgType = .commit → Signed crypto R context w m → V w m

/-- The good votes, and the votes of the local keys that are among those `sent`. -/
def Grown (context : PbftContext Key) (sent : Bytes → Prop) (w : Bytes) (m : SignedMessage) : Prop :=
  V w m ∨ Signed crypto R context w m ∧ sent m.bytes

/-- What a call with the result `r` has sent, as far as the result tells. -/
def sentBy (r : Except PbftError (List Effect)) (bytes : Bytes) : Prop :=
  match r with
  | .ok effects => .forward bytes ∈ effects
  | .error _ => True

/-- The effects of a call: none where it fails. -/
def returned : Except PbftError (List Effect) → List Effect
  | .ok effects => effects
  | .error _ => []

/-- The program does no more than `Yields` says, from every sound state, whether it fails or not. -/
def Emits (context : PbftContext Key) (x : PbftM (List Effect)) : Prop :=
  ∀ s₀, s₀.Sound crypto V R → Prog.Triple (· = s₀) x
    (fun effects s => Yields crypto V R context s₀ effects s)
    fun s => Yields crypto V R context s₀ [] s

/-- The program does what `Yields` says, and makes votes of the local keys: those it forwards. -/
def Grows (context : PbftContext Key) (x : PbftM (List Effect)) : Prop :=
  ∀ s₀, s₀.Sound crypto V R → Prog.Triple (· = s₀) x
    (fun effects s =>
      Yields crypto (Grown crypto V R context (sentBy (.ok effects))) R context s₀ effects s)
    fun s => Yields crypto (Grown crypto V R context fun _ => True) R context s₀ [] s

end

section

variable {crypto : Crypto Key} {V : Bytes → SignedMessage → Prop} {R : ProposalIdentity → Prop}
variable {context : PbftContext Key}

/-! ## Pieces of a call -/

theorem Ballot.mono {V' : Bytes → SignedMessage → Prop} {msgType : MsgType} {w : Bytes}
    {m : SignedMessage} (h : Ballot crypto V msgType w m) (hV : V w m → V' w m) :
    Ballot crypto V' msgType w m :=
  ⟨h.kind, h.signer, hV h.good⟩

theorem CertifiedBy.mono {V' : Bytes → SignedMessage → Prop} {need : Nat} {data : CommitData}
    {identity : ProposalIdentity} {votes : List (Bytes × SignedMessage)}
    (h : CertifiedBy crypto V need data identity votes) (hV : ∀ w m, V w m → V' w m) :
    CertifiedBy crypto V' need data identity votes :=
  { h with
    committed := fun vote hv => (h.committed vote hv).imp id fun hm => hm.mono (hV _ _)
    prepared := fun vote hv => (h.prepared vote hv).imp fun _ hm =>
      hm.imp id fun hm => hm.mono (hV _ _) }

theorem PbftSidecar.Sound.mono {V' : Bytes → SignedMessage → Prop} {R' : ProposalIdentity → Prop}
    {s : PbftSidecar} (hs : s.Sound crypto V R) (hV : ∀ w m, V w m → V' w m)
    (hR : ∀ no ∈ s.rounds, ∀ identity : ProposalIdentity, identity.no = no → R identity →
      R' identity) : s.Sound crypto V' R' := by
  refine ⟨fun no round hr => ?_, fun key e he => ?_, fun key e he => ?_, hs.closed⟩
  · obtain ⟨identity, h⟩ := hs.round no round hr
    have ha := hR no (Finmap.mem_iff.mpr ⟨round, hr⟩) identity h.number h.allowed
    exact ⟨identity, h.proposal, h.number, ha,
      fun w m hm => (h.prepare w m hm).imp id fun hm => hm.mono (hV w m),
      fun w m hm => (h.commit w m hm).imp id fun hm => hm.mono (hV w m), h.both⟩
  · exact (hs.prepare key e he).imp fun w hm => hm.mono (hV w e.2)
  · exact (hs.commit key e he).imp fun w hm => hm.mono (hV w e.2)

namespace Yields

variable {s₀ s s' : PbftSidecar} {effects effects' : List Effect}

theorem refl (hs : s.Sound crypto V R) : Yields crypto V R context s [] s where
  sound := hs
  quorum := rfl
  completed _ h := h
  rounds _ h := .inl h
  forwards _ h := nomatch h
  commits _ h := nomatch h
  distinct := List.nodup_nil

theorem trans (h : Yields crypto V R context s₀ effects s)
    (h' : Yields crypto V R context s effects' s') :
    Yields crypto V R context s₀ (effects ++ effects') s' where
  sound := h'.sound
  quorum := h'.quorum.trans h.quorum
  completed no hno := h'.completed no (h.completed no hno)
  rounds no hno := by
    rcases h.rounds no hno with hr | hd
    · exact h'.rounds no hr
    · exact .inr (h'.completed no hd)
  forwards bytes hm := by
    rcases List.mem_append.mp hm with hm | hm
    · exact h.forwards bytes hm
    · exact h'.forwards bytes hm
  commits data hm := by
    rw [commitsOf, List.filterMap_append, List.mem_append] at hm
    rcases hm with hm | hm
    · obtain ⟨ho, hd, hc⟩ := h.commits data hm
      exact ⟨ho, h'.completed _ hd, hc⟩
    · obtain ⟨ho, hd, hc⟩ := h'.commits data hm
      exact ⟨fun hno => ho (h.completed _ hno), hd, h.quorum ▸ hc⟩
  distinct := by
    rw [commitsOf, List.filterMap_append, List.map_append]
    refine List.Nodup.append h.distinct h'.distinct ?_
    -- what the first piece committed is completed when the second begins
    intro no hf hs
    obtain ⟨data, hda, rfl⟩ := List.mem_map.mp hf
    obtain ⟨data', hd', hno⟩ := List.mem_map.mp hs
    exact (h'.commits data' hd').1 (hno ▸ (h.commits data hda).2.1)

theorem silent (h : Yields crypto V R context s₀ effects s) :
    Yields crypto V R context s₀ [] s where
  sound := h.sound
  quorum := h.quorum
  completed := h.completed
  rounds := h.rounds
  forwards _ h := nomatch h
  commits _ h := nomatch h
  distinct := List.nodup_nil

theorem mono {V' : Bytes → SignedMessage → Prop} (h : Yields crypto V R context s₀ effects s)
    (hV : ∀ w m, V w m → V' w m) : Yields crypto V' R context s₀ effects s :=
  { h with
    sound := h.sound.mono hV fun _ _ _ _ hR => hR
    commits := fun data hd => by
      obtain ⟨ho, hdo, identity, votes, ha, hc⟩ := h.commits data hd
      exact ⟨ho, hdo, identity, votes, ha, hc.mono hV⟩ }

theorem forward {m : SignedMessage} (h : Yields crypto V R context s₀ effects s)
    (hm : R m.raw.identity) : Yields crypto V R context s₀ (.forward m.bytes :: effects) s where
  sound := h.sound
  quorum := h.quorum
  completed := h.completed
  rounds := h.rounds
  forwards bytes hme := by
    rcases List.mem_cons.mp hme with heq | hme
    · cases heq
      exact ⟨m, rfl, hm⟩
    · exact h.forwards bytes hme
  commits := h.commits
  distinct := h.distinct

/-- A round is put in the place of one that is there, or for a number that is not completed. -/
theorem setRound {no : Bytes} {round : Round} {identity : ProposalIdentity} (retained : Nat)
    (hs : s.Sound crypto V R) (hr : round.Sound crypto V R no identity)
    (hno : no ∉ s.completed) :
    Yields crypto V R context s []
      { s with rounds := s.rounds.insert no round, retainedBytes := retained } where
  sound := {
    round := FMap.forall_lookup_insert hs.round ⟨identity, hr⟩
    prepare := hs.prepare
    commit := hs.commit
    closed k hk hm := by
      rcases Finmap.mem_insert.mp hm with rfl | hm
      · exact hno hk
      · exact hs.closed k hk hm }
  quorum := rfl
  completed _ h := h
  rounds k h := .inl (Finmap.mem_insert.mpr (.inr h))
  forwards _ h := nomatch h
  commits _ h := nomatch h
  distinct := List.nodup_nil

/-- The caches hold other votes, all of them good. -/
theorem setPending {prepare commit : FMap Bytes (Int × SignedMessage)} (retained : Nat)
    (hs : s.Sound crypto V R)
    (hp : ∀ key e, prepare.lookup key = some e → ∃ w, Ballot crypto V .prepare w e.2)
    (hc : ∀ key e, commit.lookup key = some e → ∃ w, Ballot crypto V .commit w e.2) :
    Yields crypto V R context s []
      { s with pendingPrepare := prepare, pendingCommit := commit, retainedBytes := retained } where
  sound := { round := hs.round, prepare := hp, commit := hc, closed := hs.closed }
  quorum := rfl
  completed _ h := h
  rounds _ h := .inl h
  forwards _ h := nomatch h
  commits _ h := nomatch h
  distinct := List.nodup_nil

end Yields

namespace Emits

variable {x y : PbftM (List Effect)}

theorem nil : Emits crypto V R context (pure []) := by
  rintro s hs _ rfl
  exact .refl hs

theorem throw {e : PbftError} : Emits crypto V R context (throw e) := by
  rintro s hs _ rfl
  exact .refl hs

theorem run {s : PbftSidecar} (h : Emits crypto V R context x) (hs : s.Sound crypto V R) :
    Yields crypto V R context s (returned (x s).1) (x s).2 := by
  have hr := h s hs s rfl
  rcases hx : x s with ⟨_ | effects, s'⟩ <;> rw [hx] at hr <;> exact hr

theorem append (hx : Emits crypto V R context x) (hy : Emits crypto V R context y) :
    Emits crypto V R context (do
      let effects ← x
      let more ← y
      pure (effects ++ more)) := by
  intro s₀ hs₀
  refine .bind (hx s₀ hs₀) fun effects => .of_eq fun s hs => ?_
  refine .bind ((hy s hs.sound).conseq (fun _ h => h) (fun _ _ h => hs.trans h)
    fun _ h => (hs.trans h).silent) fun more => .pure fun _ h => h

theorem collect {α : Type} {body : α → PbftM (List Effect)} {l : List α}
    (h : ∀ a ∈ l, Emits crypto V R context (body a)) :
    Emits crypto V R context (PbftSidecar.collect body l) := by
  induction l with
  | nil => exact nil
  | cons a rest ih =>
    exact append (h a List.mem_cons_self) (ih fun b hb => h b (List.mem_cons_of_mem a hb))

theorem ofExcept_bind {α : Type} {r : Except PbftError α} {g : α → PbftM (List Effect)}
    (h : ∀ a, r = .ok a → Emits crypto V R context (g a)) :
    Emits crypto V R context (Prog.ofExcept id r >>= g) := by
  cases r with
  | error e => exact throw (e := e)
  | ok a => exact h a rfl

theorem forward {m : SignedMessage} (hx : Emits crypto V R context x) (hm : R m.raw.identity) :
    Emits crypto V R context (do
      let effects ← x
      pure (.forward m.bytes :: effects)) := by
  intro s₀ hs₀
  exact .bind (hx s₀ hs₀) fun effects => .pure fun _ h => h.forward hm

/-- A change of the state that does no more than `Yields` says goes first. -/
theorem modify_bind {f : PbftSidecar → PbftSidecar} {g : PUnit → PbftM (List Effect)}
    (hf : ∀ s, s.Sound crypto V R → Yields crypto V R context s [] (f s))
    (hg : Emits crypto V R context (g ⟨⟩)) : Emits crypto V R context (modify f >>= g) := by
  intro s₀ hs₀
  have hs := hf s₀ hs₀
  exact .modify_bind ((hg (f s₀) hs.sound).conseq (fun _ h => h)
    (fun _ _ h => hs.trans h) fun _ h => hs.trans h)

end Emits

/-! ## The caches -/

variable {m : SignedMessage}

theorem reserve_reads (current added : Nat) (s : PbftSidecar) :
    (PbftSidecar.reserve current added s).2 = s := by
  rw [PbftSidecar.reserve, Prog.bind_of_ok (Prog.get_run s)]
  split <;> rfl

theorem emits_cacheCommit {w : Bytes} (now : Int) (hm : Ballot crypto V .commit w m) :
    Emits crypto V R context (do
      PbftSidecar.cacheCommit m w now
      pure []) := by
  intro s hs
  have hl : Yields crypto V R context s [] s := .refl hs
  refine .bind (R := fun _ s' => Yields crypto V R context s [] s') ?_ fun _ =>
    .pure fun _ h => h
  rw [PbftSidecar.cacheCommit]
  refine .get_bind ?_
  dsimp only
  split
  · refine .ite (fun _ => ?_) fun _ => ?_
    · exact .throw fun _ h => h ▸ hl
    · exact .pure fun _ h => h ▸ hl
  · refine .ite (fun _ => ?_) fun _ => ?_
    · exact .throw_bind fun _ h => h ▸ hl
    · refine .reads_bind (reserve_reads 0 _) hl fun _ => ?_
      refine .modify fun s' h => ?_
      subst h
      exact .setPending _ hs hs.prepare (FMap.forall_lookup_insert hs.commit ⟨w, hm⟩)

theorem emits_cachePrepare {w : Bytes} (now : Int) (hm : Ballot crypto V .prepare w m) :
    Emits crypto V R context (do
      PbftSidecar.cachePrepare m w now
      pure []) := by
  intro s hs
  have hl : Yields crypto V R context s [] s := .refl hs
  refine .bind (R := fun _ s' => Yields crypto V R context s [] s') ?_ fun _ =>
    .pure fun _ h => h
  rw [PbftSidecar.cachePrepare]
  refine .get_bind ?_
  dsimp only
  split
  · refine .ite (fun _ => ?_) fun _ => ?_
    · exact .throw fun _ h => h ▸ hl
    · exact .pure fun _ h => h ▸ hl
  · refine .ite (fun _ => ?_) fun _ => ?_
    · exact .throw_bind fun _ h => h ▸ hl
    · refine .reads_bind (reserve_reads 0 _) hl fun _ => ?_
      refine .modify fun s' h => ?_
      subst h
      exact .setPending _ hs (FMap.forall_lookup_insert hs.prepare ⟨w, hm⟩) hs.commit

/-! ## Counting a COMMIT -/

theorem rounds_removeRound (s : PbftSidecar) (no : Bytes) :
    (PbftSidecar.removeRound no s).rounds = s.rounds.erase no := by
  rw [PbftSidecar.removeRound]
  split
  · rename_i hn
    refine Finmap.ext_lookup fun k => ?_
    by_cases hk : k = no
    · rw [hk, Finmap.lookup_erase, hn]
    · rw [Finmap.lookup_erase_ne hk]
  · rfl

theorem removeRound_eq (s : PbftSidecar) (no : Bytes) :
    PbftSidecar.removeRound no s = { s with
      rounds := s.rounds.erase no
      retainedBytes := (PbftSidecar.removeRound no s).retainedBytes } := by
  rw [← rounds_removeRound, PbftSidecar.removeRound]
  split <;> rfl

theorem Round.Sound.setCommit {round : Round} {no w : Bytes} {identity : ProposalIdentity}
    (h : round.Sound crypto V R no identity) (hm : Ballot crypto V .commit w m)
    (hi : m.raw.identity = identity) (hp : w ∈ round.prepare) (retained : Nat) :
    Round.Sound crypto V R no
      { round with commit := round.commit.insert w m, retainedBytes := retained } identity where
  proposal := h.proposal
  number := h.number
  allowed := h.allowed
  prepare := h.prepare
  commit := FMap.forall_lookup_insert h.commit ⟨hi, hm⟩
  both k hk := by
    rcases Finmap.mem_insert.mp hk with rfl | hk
    · exact hp
    · exact h.both k hk

/-- The votes of a round certify its proposal. -/
theorem Round.Sound.certifiedBy {round : Round} {no : Bytes} {identity : ProposalIdentity}
    (h : round.Sound crypto V R no identity) {need : Nat} (hn : need ≤ round.commit.keys.card) :
    CertifiedBy crypto V need ⟨(identity.raw .commit).bytes, identity.dataType, identity.viewN,
      identity.epoch, PbftSidecar.signatures round.commit⟩ identity
      (FMap.sortedRows keyLe round.commit) where
  bytes := rfl
  kind := rfl
  number := rfl
  epoch := rfl
  signatures := rfl
  distinct := by
    rw [FMap.map_fst_sortedRows]
    exact FMap.nodup_sortedKeys keyLe _
  enough := by
    rw [← List.length_map (f := Prod.fst), FMap.map_fst_sortedRows, ← Multiset.coe_card,
      FMap.coe_sortedKeys]
    exact hn
  committed vote hv := h.commit _ _ ((FMap.mem_sortedRows keyLe).mp hv)
  prepared vote hv := by
    have hc := (FMap.mem_sortedRows keyLe).mp hv
    obtain ⟨p, hp⟩ := Finmap.mem_iff.mp (h.both _ (Finmap.mem_iff.mpr ⟨_, hc⟩))
    exact ⟨p, h.prepare _ _ hp⟩

/-- A round closes with the certificate of its votes. -/
theorem Yields.complete {s : PbftSidecar} {no : Bytes} {round : Round} {identity : ProposalIdentity}
    {data : CommitData} {votes : List (Bytes × SignedMessage)} (closedAt : Int)
    (hs : s.Sound crypto V R) (hr : s.rounds.lookup no = some round)
    (hso : round.Sound crypto V R no identity)
    {need : Nat} (hc : CertifiedBy crypto V need data identity votes)
    (hn : need = quorumOf s.quorum (context.committee data.epoch).length) :
    Yields crypto V R context s [.commit data]
      { PbftSidecar.removeRound no s with
        completed := (PbftSidecar.removeRound no s).completed.insert no closedAt } := by
  subst hn
  have hno : data.no = no := by
    rw [CommitData.no, hc.kind, hc.number]
    exact hso.number
  rw [removeRound_eq]
  exact {
    sound := {
      round := FMap.forall_lookup_erase hs.round
      prepare := hs.prepare
      commit := hs.commit
      closed := by
        intro k hk hm
        obtain ⟨hne, hm⟩ := Finmap.mem_erase.mp hm
        rcases Finmap.mem_insert.mp hk with heq | hk
        · exact hne heq
        · exact hs.closed k hk hm }
    quorum := rfl
    completed := fun k hk => Finmap.mem_insert.mpr (.inr hk)
    rounds := by
      intro k hk
      by_cases heq : k = no
      · exact .inr (Finmap.mem_insert.mpr (.inl heq))
      · exact .inl (Finmap.mem_erase.mpr ⟨heq, hk⟩)
    forwards := by
      intro bytes hm
      cases List.mem_singleton.mp hm
    commits := by
      intro data' hm
      cases List.mem_singleton.mp hm
      refine ⟨fun hd => ?_, Finmap.mem_insert.mpr (.inl hno), identity, votes, hso.allowed,
        hc⟩
      exact hs.closed _ (hno ▸ hd) (Finmap.mem_iff.mpr ⟨round, hr⟩)
    distinct := List.nodup_singleton _ }

/-- **A COMMIT**: it is cached, counted, or closes the round with a certificate. -/
theorem emits_commit {w : Bytes} (hm : Ballot crypto V .commit w m) :
    Emits crypto V R context (PbftSidecar.commit m w context) := by
  intro s hs
  have hl : Yields crypto V R context s [] s := .refl hs
  rw [PbftSidecar.commit]
  refine .get_bind ?_
  dsimp only
  split
  · exact emits_cacheCommit _ hm s hs
  · rename_i round hr
    refine .ite (fun _ => Emits.throw s hs) fun hp => ?_
    obtain ⟨identity, hso⟩ := hs.round _ round hr
    obtain rfl : identity = m.raw.identity := by
      rw [hso.proposal, not_not] at hp
      exact Option.some.inj hp
    split
    · exact emits_cacheCommit _ hm s hs
    · rename_i prepare hpr
      refine .ite (fun _ => Emits.throw s hs) fun _ => ?_
      split
      · exact .ite (fun _ => Emits.throw s hs) fun _ => Emits.nil s hs
      · refine .ite (fun _ => ?_) fun _ => ?_
        · exact .throw_bind fun _ h => h ▸ hl
        · refine .reads_bind (reserve_reads _ _) hl fun _ => ?_
          refine .modify_bind ?_
          have ho : m.raw.no ∉ s.completed := fun hd =>
            hs.closed _ hd (Finmap.mem_iff.mpr ⟨round, hr⟩)
          have hv := hso.setCommit hm rfl (Finmap.mem_iff.mpr ⟨prepare, hpr⟩)
            (round.retainedBytes + m.encodedLen)
          have hc : Yields crypto V R context s [] _ :=
            .setRound (s.retainedBytes + m.encodedLen) hs hv ho
          refine .ite (fun _ => ?_) fun hq => ?_
          · exact .pure fun _ h => h ▸ hc
          · -- the round closes: its votes are those counted and this one
            have hce := hv.certifiedBy (Nat.le_of_not_lt hq)
            rw [← Raw.eq_raw rfl hm.kind] at hce
            have hcl := hc.trans (.complete context.nowMillis hc.sound
              (Finmap.lookup_insert _) hv hce rfl)
            rw [List.nil_append] at hcl
            refine .modify_bind (.modify_bind (.pure ?_))
            rintro _ rfl
            split
            · exact hcl.silent
            · exact hcl

/-- The COMMIT cached for a vote leaves the cache and is counted. -/
theorem emits_commitCached (key : Bytes) :
    Emits crypto V R context (PbftSidecar.commitCached crypto key context) := by
  intro s hs
  rw [PbftSidecar.commitCached]
  refine .get_bind ?_
  split
  · exact Emits.nil s hs
  · rename_i cached hca
    obtain ⟨w, hc⟩ := hs.commit key cached hca
    rw [hc.signer]
    exact Emits.modify_bind (fun s hs => .setPending _ hs hs.prepare
      (FMap.forall_lookup_erase hs.commit)) (emits_commit hc) s hs

/-! ## The votes of the local keys -/

theorem SignedMessage.signedAs_ok {message vote : SignedMessage} {msgType : MsgType} {key : Key}
    (h : message.signedAs crypto msgType key = .ok vote) :
    vote.raw = { message.raw with msgType := msgType } ∧
      crypto.sign key vote.raw.bytes = .ok vote.signature := by
  rw [SignedMessage.signedAs] at h
  cases hs : crypto.sign key (Raw.bytes { message.raw with msgType := msgType }) with
  | error e =>
    rw [hs] at h
    cases h
  | ok signature =>
    rw [hs] at h
    cases h
    exact ⟨rfl, hs⟩

theorem emits_voteLocally {message : SignedMessage} {msgType : MsgType} {key : Key}
    {count : SignedMessage → Bytes → PbftM (List Effect)}
    (hk : key ∈ context.signerKeys message.raw.epoch) (ha : R message.raw.identity)
    (hc : ∀ vote w, message.signedAs crypto msgType key = .ok vote → vote.raw.msgType = msgType →
      Signed crypto R context w vote → Emits crypto V R context (count vote w)) :
    Emits crypto V R context (PbftSidecar.voteLocally crypto message msgType count key) := by
  rw [PbftSidecar.voteLocally]
  refine .ofExcept_bind fun vote hv => .ofExcept_bind fun w hsi => ?_
  obtain ⟨hr, hsig⟩ := SignedMessage.signedAs_ok hv
  have hs : Signed crypto R context w vote := {
    allowed := by
      rw [hr]
      exact ha
    signer := hsi
    signature := ⟨key, by rw [hr]; exact hk, hsig⟩ }
  exact .forward (hc vote w hv (by rw [hr]) hs) hs.allowed

/-- Once a quorum has prepared, the local keys commit. -/
theorem emits_commitLocally {message : SignedMessage} (hsig : Signs crypto V R context)
    (ha : R message.raw.identity) :
    Emits crypto V R context (PbftSidecar.commitLocally crypto message context) := by
  rw [PbftSidecar.commitLocally]
  refine .modify_bind (fun s hs => ?_) (.collect fun key hke =>
    emits_voteLocally hke ha fun vote w _ hk hsi =>
      emits_commit ⟨hk, hsi.signer, hsig w vote hk hsi⟩)
  split
  · exact .refl hs
  · rename_i round hr
    obtain ⟨identity, hso⟩ := hs.round _ round hr
    have ho : message.raw.no ∉ s.completed := fun hd =>
      hs.closed _ hd (Finmap.mem_iff.mpr ⟨round, hr⟩)
    have hd : Round.Sound crypto V R message.raw.no { round with done := true } identity :=
      { hso with }
    exact .setRound s.retainedBytes hs hd ho

/-! ## Counting a PREPARE -/

theorem Round.Sound.setPrepare {round : Round} {no w : Bytes} {identity : ProposalIdentity}
    (h : round.Sound crypto V R no identity) (hm : Ballot crypto V .prepare w m)
    (hi : m.raw.identity = identity) (retained : Nat) :
    Round.Sound crypto V R no
      { round with prepare := round.prepare.insert w m, retainedBytes := retained } identity where
  proposal := h.proposal
  number := h.number
  allowed := h.allowed
  prepare := FMap.forall_lookup_insert h.prepare ⟨hi, hm⟩
  commit := h.commit
  both k hk := Finmap.mem_insert.mpr (.inr (h.both k hk))

/-- **A PREPARE**: it is cached, or counted with the COMMIT that waits for it, and at a quorum the
local keys commit. -/
theorem emits_prepare {w : Bytes} (hsi : Signs crypto V R context)
    (hm : Ballot crypto V .prepare w m) :
    Emits crypto V R context (PbftSidecar.prepare crypto m w context) := by
  intro s hs
  have hl : Yields crypto V R context s [] s := .refl hs
  rw [PbftSidecar.prepare]
  refine .get_bind ?_
  dsimp only
  split
  · exact emits_cachePrepare _ hm s hs
  · rename_i round roundIdentity hf
    obtain ⟨_, hr, hp⟩ := Option.bind_eq_some_iff.mp hf
    obtain ⟨_, hp, heq⟩ := Option.map_eq_some_iff.mp hp
    cases heq
    obtain ⟨identity, hso⟩ := hs.round _ round hr
    refine .ite (fun _ => Emits.throw s hs) fun hi => ?_
    obtain rfl : identity = m.raw.identity := by
      rw [← not_not.mp hi]
      exact Option.some.inj (hso.proposal.symm.trans hp)
    split
    · exact .ite (fun _ => Emits.throw s hs) fun _ => Emits.nil s hs
    · refine .ite (fun _ => ?_) fun _ => ?_
      · exact .throw_bind fun _ h => h ▸ hl
      · refine .reads_bind (reserve_reads _ _) hl fun _ => ?_
        refine .modify_bind ?_
        have ho : m.raw.no ∉ s.completed := fun hd =>
          hs.closed _ hd (Finmap.mem_iff.mpr ⟨round, hr⟩)
        have hc : Yields crypto V R context s [] _ :=
          .setRound (s.retainedBytes + m.encodedLen) hs
            (hso.setPrepare hm rfl (round.retainedBytes + m.encodedLen)) ho
        refine .bind ((emits_commitCached _ _ hc.sound).conseq (fun _ h => h)
          (fun _ _ h => hc.trans h) fun _ h => hc.trans h) fun effects =>
            .of_eq fun s₁ hs₁ => .get_bind ?_
        have hst : Prog.Triple (· = s₁) (pure effects : PbftM (List Effect))
            (fun effects s' => Yields crypto V R context s effects s')
            fun s' => Yields crypto V R context s [] s' :=
          .pure fun _ h => h ▸ hs₁
        refine .ite (fun _ => hst) fun _ => .ite (fun _ => hst) fun _ => ?_
        exact .bind ((emits_commitLocally hsi hso.allowed s₁ hs₁.sound).conseq
          (fun _ h => h) (fun _ _ h => hs₁.trans h) fun _ h => (hs₁.trans h).silent) fun more =>
            .pure fun _ h => h

/-- A cached PREPARE leaves the cache and is counted. -/
theorem emits_prepareCached {cached : Bytes × SignedMessage} (hsi : Signs crypto V R context)
    (hc : ∃ w, Ballot crypto V .prepare w cached.2) :
    Emits crypto V R context (PbftSidecar.prepareCached crypto context cached) := by
  obtain ⟨w, hp⟩ := hc
  rw [PbftSidecar.prepareCached, hp.signer]
  refine .modify_bind (fun s hs => ?_) (emits_prepare hsi hp)
  split
  · exact .refl hs
  · exact .setPending _ hs (FMap.forall_lookup_erase hs.prepare) hs.commit

/-! ## A proposal -/

theorem openRound_of_switch {context : PbftContext Key} (hs : context.chainSwitch = true)
    (m : SignedMessage) (witness : Option Bytes) (s : PbftSidecar) :
    PbftSidecar.openRound m witness context s = (.ok false, PbftSidecar.removeRound m.raw.no s) := by
  rw [PbftSidecar.openRound]
  simp only [hs, if_true]
  rfl

/-- The state with a round opened for a message. -/
def opened (m : SignedMessage) (context : PbftContext Key) (s : PbftSidecar) : PbftSidecar :=
  { s with
    rounds := s.rounds.insert m.raw.no {
      startedAt := context.nowMillis
      identity := some m.raw.identity
      prepare := ∅
      commit := ∅
      done := false
      retainedBytes := m.encodedLen }
    retainedBytes := s.retainedBytes + m.encodedLen }

/-- But for a chain switch, a round is opened where there was none, or nothing is done. -/
theorem openRound_spec {context : PbftContext Key} (hs : context.chainSwitch = false)
    (m : SignedMessage) (witness : Option Bytes) (s : PbftSidecar) :
    Prog.Triple (· = s) (PbftSidecar.openRound m witness context)
      (fun isOpened s' => if isOpened then m.raw.no ∉ s.rounds ∧ s' = opened m context s else s' = s)
      (· = s) := by
  rw [PbftSidecar.openRound]
  simp only [hs, Bool.false_eq_true, if_false]
  split
  · exact .throw fun _ h => h
  · refine .ite (fun _ => .throw fun _ h => h) fun _ => ?_
    refine .ite (fun _ => .throw fun _ h => h) fun _ => ?_
    refine .get_bind ?_
    split
    · exact .ite (fun _ => .pure fun _ h => h) fun _ =>
        .throw fun _ h => h
    · rename_i hn
      refine .ite (fun _ => .throw_bind fun _ h => h) fun _ => ?_
      refine .reads_bind (reserve_reads 0 _) rfl fun _ => ?_
      refine .modify_bind (.pure ?_)
      rintro _ rfl
      exact ⟨Finmap.lookup_eq_none.mp hn, rfl⟩

theorem yields_opened {s : PbftSidecar} (hs : s.Sound crypto V R) (hno : m.raw.no ∉ s.completed)
    (ha : R m.raw.identity) : Yields crypto V R context s [] (opened m context s) := by
  refine .setRound _ hs (?_ : Round.Sound crypto V R m.raw.no _ m.raw.identity) hno
  exact {
    proposal := rfl
    number := rfl
    allowed := ha
    prepare := fun w m h => nomatch h
    commit := fun w m h => nomatch h
    both := fun w h => absurd h (Finmap.notMem_empty) }

theorem voteLocally_returns (crypto : Crypto Key) (message : SignedMessage) (msgType : MsgType)
    (count : SignedMessage → Bytes → PbftM (List Effect)) (key : Key) :
    Prog.Returns (PbftSidecar.voteLocally crypto message msgType count key) fun effects =>
      ∀ vote, message.signedAs crypto msgType key = .ok vote → .forward vote.bytes ∈ effects := by
  refine Prog.Returns.bind (Prog.Returns.ofExcept fun vote hv => hv) fun vote hv => ?_
  refine Prog.Returns.bind_any fun w => Prog.Returns.bind_any fun effects => Prog.Returns.pure ?_
  intro vote' hv'
  cases hv.symm.trans hv'
  exact List.mem_cons_self

theorem Emits.grows {x : PbftM (List Effect)} (h : Emits crypto V R context x) :
    Grows crypto V R context x := fun s hs =>
  (h s hs).conseq (fun _ h => h) (fun _ _ h => h.mono fun _ _ => .inl) fun _ h =>
    h.mono fun _ _ => .inl

/-- The PREPARE votes of the local keys. -/
theorem grows_localPrepares (ha : R m.raw.identity) {keys : List Key}
    (hke : ∀ key ∈ keys, key ∈ context.signerKeys m.raw.epoch) (hsig : Signs crypto V R context) :
    Grows crypto V R context (PbftSidecar.collect (PbftSidecar.voteLocally crypto m .prepare
      fun vote witness => PbftSidecar.prepare crypto vote witness context) keys) := by
  induction keys generalizing V with
  | nil => exact Emits.nil.grows
  | cons key rest ih =>
    intro s hs
    have hr : ∀ key ∈ rest, key ∈ context.signerKeys m.raw.epoch :=
      fun k hk => hke k (List.mem_cons_of_mem key hk)
    -- the vote of this key is good from he on
    let V₁ := fun w vote =>
      V w vote ∨ Signed crypto R context w vote ∧ m.signedAs crypto .prepare key = .ok vote
    have hsi₁ : Signs crypto V₁ R context := fun w vote hki h => .inl (hsig w vote hki h)
    have hv : Emits crypto V₁ R context (PbftSidecar.voteLocally crypto m .prepare
        (fun vote witness => PbftSidecar.prepare crypto vote witness context) key) :=
      emits_voteLocally (hke key List.mem_cons_self) ha fun vote w hm hki hsi =>
        emits_prepare hsi₁ ⟨hki, hsi.signer, .inr ⟨hsi, hm⟩⟩
    have hs₁ : s.Sound crypto V₁ R := hs.mono (fun _ _ => .inl) fun _ _ _ _ h => h
    have hfa : ∀ w vote, V₁ w vote → Grown crypto V R context (fun _ => True) w vote :=
      fun w vote h => h.imp id fun h => ⟨h.1, trivial⟩
    refine .bind (((hv s hs₁).returns (voteLocally_returns crypto m .prepare _ key)).conseq
      (fun _ h => h) (fun _ _ h => h) fun _ h => h.mono hfa) fun effects =>
        .of_eq fun s₁ ⟨hf, hse⟩ => ?_
    refine .bind ((ih hr hsi₁ s₁ hf.sound).conseq (fun _ h => h)
      (fun more s₂ h => ?_) fun s₂ h => ?_) fun more => .pure fun _ h => h
    · have hg : ∀ w vote, Grown crypto V₁ R context (sentBy (.ok more)) w vote →
          Grown crypto V R context (sentBy (.ok (effects ++ more))) w vote := by
        rintro w vote ((h | ⟨hsi, hm⟩) | ⟨hsi, hme⟩)
        · exact .inl h
        · exact .inr ⟨hsi, List.mem_append_left more (hse vote hm)⟩
        · exact .inr ⟨hsi, List.mem_append_right effects hme⟩
      exact ((hf.mono fun _ _ => .inl).trans h).mono hg
    · have hg : ∀ w vote, Grown crypto V₁ R context (fun _ => True) w vote →
          Grown crypto V R context (fun _ => True) w vote := by
        rintro w vote (h | ⟨hsi, -⟩)
        · exact hfa w vote h
        · exact .inr ⟨hsi, trivial⟩
      exact ((hf.mono fun _ _ => .inl).trans h).silent.mono hg

theorem grows_prepareOpened (hsi : Signs crypto V R context) (ha : R m.raw.identity) :
    Grows crypto V R context (PbftSidecar.prepareOpened crypto m context) := by
  intro s hs
  have hl : Grows crypto V R context (if context.syncing then pure []
      else PbftSidecar.collect (PbftSidecar.voteLocally crypto m .prepare
        fun vote witness => PbftSidecar.prepare crypto vote witness context)
        (context.signerKeys m.raw.epoch)) := by
    split
    · exact Emits.nil.grows
    · exact grows_localPrepares ha (fun _ hke => hke) hsi
  rw [PbftSidecar.prepareOpened]
  refine .bind (hl s hs) fun effects => .of_eq fun s₁ hs₁ =>
    .get_bind ?_
  -- the cached votes are counted where the votes just made are good as well
  have hc : Emits crypto (Grown crypto V R context (sentBy (.ok effects))) R context
      (PbftSidecar.collect (PbftSidecar.prepareCached crypto context)
        (s₁.cachedPrepares m.raw.identity)) := by
    refine .collect fun cached hme => emits_prepareCached
      (fun w m hk h => .inl (hsi w m hk h)) ?_
    obtain ⟨row, hr, rfl⟩ := List.mem_map.mp hme
    exact hs₁.sound.prepare _ _ ((FMap.mem_sortedRows keyLe).mp (List.mem_filter.mp hr).1)
  refine .bind ((hc s₁ hs₁.sound).conseq (fun _ h => h) (fun more s₂ h => ?_)
    fun s₂ h => ?_) fun more => .pure fun _ h => h
  · exact (hs₁.trans h).mono fun w m hm => hm.imp id fun hm =>
      ⟨hm.1, List.mem_append_left more hm.2⟩
  · exact (hs₁.trans h).silent.mono fun w m hm => hm.imp id fun hm => ⟨hm.1, trivial⟩

theorem Grows.run {x : PbftM (List Effect)} {s : PbftSidecar} (h : Grows crypto V R context x)
    (hs : s.Sound crypto V R) :
    Yields crypto (Grown crypto V R context (sentBy (x s).1)) R context s (returned (x s).1)
      (x s).2 := by
  have hr := h s hs s rfl
  rcases hx : x s with ⟨_ | effects, s'⟩ <;> rw [hx] at hr <;> exact hr

/-- **A PREPREPARE** that is no chain switch. Its proposal must be allowed where it leaves its number
with a round or completed. -/
theorem yields_preprepare {witness : Option Bytes} {s : PbftSidecar}
    (hsw : context.chainSwitch = false) (hsi : Signs crypto V R context) (hs : s.Sound crypto V R)
    (hno : m.raw.no ∉ s.completed)
    (hope : ∀ s', (PbftSidecar.preprepare crypto m witness context s).2 = s' →
      m.raw.no ∉ s.rounds → m.raw.no ∈ s'.rounds ∨ m.raw.no ∈ s'.completed → R m.raw.identity) :
    Yields crypto (Grown crypto V R context
        (sentBy (PbftSidecar.preprepare crypto m witness context s).1)) R context s
      (returned (PbftSidecar.preprepare crypto m witness context s).1)
      (PbftSidecar.preprepare crypto m witness context s).2 := by
  have hk : ∀ sent, Yields crypto (Grown crypto V R context sent) R context s [] s :=
    fun sent => (Yields.refl hs).mono fun _ _ => .inl
  have hsp := openRound_spec hsw m witness s s rfl
  rcases ho : PbftSidecar.openRound m witness context s with ⟨_ | isOpened, s₁⟩
  · rw [ho] at hsp
    subst hsp
    rw [PbftSidecar.preprepare, Prog.bind_of_error ho]
    exact hk _
  · rw [ho] at hsp
    cases isOpened with
    | false =>
      cases hsp
      rw [PbftSidecar.preprepare, Prog.bind_of_ok ho]
      exact hk _
    | true =>
      obtain ⟨hr, rfl⟩ := hsp
      have hru : PbftSidecar.preprepare crypto m witness context s =
          PbftSidecar.prepareOpened crypto m context (opened m context s) := by
        rw [PbftSidecar.preprepare, Prog.bind_of_ok ho]
        rfl
      -- the round that was opened is still there, or completed: this needs nothing of the votes
      have han : Yields crypto (fun _ _ => True) (fun _ => True) context s [] (opened m context s) :=
        yields_opened (hs.mono (fun _ _ _ => trivial) fun _ _ _ _ _ => trivial) hno trivial
      have hg : Grows crypto (fun _ _ => True) (fun _ => True) context
          (PbftSidecar.prepareOpened crypto m context) :=
        grows_prepareOpened (fun _ _ _ _ => trivial) trivial
      have ht := hg.run han.sound
      have ha : R m.raw.identity := hope _ rfl hr (hru ▸ ht.rounds _
        (Finmap.mem_insert.mpr (.inl rfl)))
      have hop : Yields crypto V R context s [] (opened m context s) :=
        yields_opened hs hno ha
      rw [hru]
      exact (hop.mono fun _ _ => .inl).trans
        ((grows_prepareOpened hsi ha).run hop.sound)

/-! ## Messages -/

theorem PbftSidecar.Sound.removeRound {s : PbftSidecar} (hs : s.Sound crypto V R) (no : Bytes) :
    (PbftSidecar.removeRound no s).Sound crypto V R := by
  rw [removeRound_eq]
  refine ⟨FMap.forall_lookup_erase hs.round, hs.prepare, hs.commit, fun k hk hm => ?_⟩
  exact hs.closed k hk (Finmap.mem_erase.mp hm).2

theorem lookup_retain {W : Type} (keep : W → Bool) (rows : FMap Bytes W) (k : Bytes) :
    (retain keep rows).lookup k = (rows.lookup k).filter keep := by
  rw [retain, FMap.lookup_ofFun]
  split
  · rfl
  · rename_i hk
    rw [Finmap.lookup_eq_none.mpr fun hm => hk (Finmap.mem_keys.mpr hm)]
    rfl

theorem lookup_of_retain {W : Type} {keep : W → Bool} {rows : FMap Bytes W} {k : Bytes} {v : W}
    (h : (retain keep rows).lookup k = some v) : rows.lookup k = some v := by
  rw [lookup_retain] at h
  exact (Option.filter_eq_some_iff.mp h).1

theorem mem_of_mem_retain {W : Type} {keep : W → Bool} {rows : FMap Bytes W} {k : Bytes}
    (h : k ∈ retain keep rows) : k ∈ rows := by
  obtain ⟨v, hv⟩ := Finmap.mem_iff.mp h
  exact Finmap.mem_iff.mpr ⟨v, lookup_of_retain hv⟩

theorem PbftSidecar.Sound.expire {s : PbftSidecar} (hs : s.Sound crypto V R) (now : Int) :
    (PbftSidecar.expire now s).Sound crypto V R where
  round _ _ h := hs.round _ _ (lookup_of_retain h)
  prepare _ _ h := hs.prepare _ _ (lookup_of_retain h)
  commit _ _ h := hs.commit _ _ (lookup_of_retain h)
  closed no hno hm := hs.closed no (mem_of_mem_retain hno) (mem_of_mem_retain hm)

/-- The phase that a message is given to. -/
theorem dispatch_cases (crypto : Crypto Key) (m : SignedMessage) (witness : Option Bytes)
    (context : PbftContext Key) (s : PbftSidecar) :
    PbftSidecar.dispatch crypto m witness context s = (.ok [], s) ∨
    (m.raw.no ∉ s.completed ∧ m.raw.msgType = .preprepare ∧
      PbftSidecar.dispatch crypto m witness context s =
        PbftSidecar.preprepare crypto m witness context s) ∨
    (∃ w, witness = some w ∧ m.raw.msgType = .prepare ∧
      PbftSidecar.dispatch crypto m witness context s = PbftSidecar.prepare crypto m w context s) ∨
    (∃ w, witness = some w ∧ m.raw.msgType = .commit ∧
      PbftSidecar.dispatch crypto m witness context s = PbftSidecar.commit m w context s) := by
  unfold PbftSidecar.dispatch
  rw [Prog.bind_of_ok (Prog.get_run s)]
  by_cases hd : (s.completed.lookup m.raw.no).isSome
  · rw [if_pos hd]
    exact .inl rfl
  · rw [if_neg hd]
    have hno : m.raw.no ∉ s.completed := fun hm => hd (Finmap.lookup_isSome.mpr hm)
    cases hk : m.raw.msgType with
    | preprepare => exact .inr (.inl ⟨hno, rfl, rfl⟩)
    | prepare =>
      cases witness with
      | none => exact .inl rfl
      | some w => exact .inr (.inr (.inl ⟨w, rfl, rfl, rfl⟩))
    | commit =>
      cases witness with
      | none => exact .inl rfl
      | some w => exact .inr (.inr (.inr ⟨w, rfl, rfl, rfl⟩))
    | viewChange => exact .inl rfl
    | request => exact .inl rfl

/-- A message that is dispatched, where a round may first be dropped for a chain switch. -/
theorem yields_dispatch {witness : Option Bytes} {s : PbftSidecar} (hsig : Signs crypto V R context)
    (hs : s.Sound crypto V R)
    (hwi : ∀ w, witness = some w → m.recoverWitness crypto = .ok w ∧ V w m)
    (ho : ∀ s', (PbftSidecar.dispatch crypto m witness context s).2 = s' →
      m.raw.no ∉ s.rounds → m.raw.no ∉ s.completed →
      m.raw.no ∈ s'.rounds ∨ m.raw.no ∈ s'.completed → R m.raw.identity) :
    ∃ s₁ : PbftSidecar, s₁.quorum = s.quorum ∧ s₁.completed = s.completed ∧
      Yields crypto (Grown crypto V R context
          (sentBy (PbftSidecar.dispatch crypto m witness context s).1)) R context s₁
        (returned (PbftSidecar.dispatch crypto m witness context s).1)
        (PbftSidecar.dispatch crypto m witness context s).2 := by
  rcases dispatch_cases crypto m witness context s with
    hr | ⟨hno, -, hr⟩ | ⟨w, hw, hk, hr⟩ | ⟨w, hw, hk, hr⟩
  · rw [hr]
    exact ⟨s, rfl, rfl, (Yields.refl hs).mono fun _ _ => .inl⟩
  · rw [hr] at ho ⊢
    cases hsw : context.chainSwitch with
    | true =>
      refine ⟨PbftSidecar.removeRound m.raw.no s, ?_, ?_, ?_⟩
      · rw [removeRound_eq]
      · rw [removeRound_eq]
      · rw [PbftSidecar.preprepare, Prog.bind_of_ok (openRound_of_switch hsw m witness s)]
        exact (Yields.refl (hs.removeRound _)).mono fun _ _ => .inl
    | false => exact ⟨s, rfl, rfl, yields_preprepare hsw hsig hs hno fun s' h hro =>
        ho s' h hro hno⟩
  · rw [hr]
    obtain ⟨hsi, hg⟩ := hwi w hw
    exact ⟨s, rfl, rfl, (emits_prepare hsig ⟨hk, hsi, hg⟩).grows.run hs⟩
  · rw [hr]
    obtain ⟨hsi, hg⟩ := hwi w hw
    exact ⟨s, rfl, rfl, (emits_commit ⟨hk, hsi, hg⟩).grows.run hs⟩

end

end RustTron.Consensus.Pbft
