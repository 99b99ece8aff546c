import RustTron.Consensus.Ballots

/-!
# Commit certificates

Over every sequence of calls, with any messages and contexts, a commit that is returned carries a
quorum of valid signatures of distinct witnesses, each by a witness that had prepared the same
proposal. A number is committed once, until its entry among the completed ones expires.

## Main definitions

* `Call`, `after`: the calls on a sidecar, and the state that a sequence of them leaves
* `Accepted`: a vote came in from a witness of its committee, or was made with a local key
* `Expired`: the entry of a completed number expires in the course of some calls

## Main results

* `yields_call`: what a call does
* `commit_certified`: certificates
-/

namespace RustTron.Consensus.Pbft

variable {Key : Type}

/-- A call on a sidecar. -/
inductive Call (Key : Type) where
  | handle (message : SignedMessage) (context : PbftContext Key)
  | localPreprepare (message : SignedMessage) (context : PbftContext Key)
  | expire (nowMillis : Int)

namespace Call

/-- The time at which the call expires what is too old. -/
def now : Call Key → Int
  | handle _ context => context.nowMillis
  | localPreprepare _ context => context.nowMillis
  | expire nowMillis => nowMillis

/-- The message and the context of a call, if it has one. -/
def input : Call Key → Option (SignedMessage × PbftContext Key)
  | handle message context => some (message, context)
  | localPreprepare message context => some (message, context)
  | expire _ => none

/-- The result of a call, and the state it leaves. -/
def run (crypto : Crypto Key) (call : Call Key) (s : PbftSidecar) :
    Except PbftError (List Effect) × PbftSidecar :=
  match call with
  | handle message context => PbftSidecar.handle crypto message context s
  | localPreprepare message context => PbftSidecar.localPreprepare crypto message context s
  | expire nowMillis => (.ok [], PbftSidecar.expire nowMillis s)

/-- The effects that a call returns. -/
def effects (crypto : Crypto Key) (call : Call Key) (s : PbftSidecar) : List Effect :=
  returned (call.run crypto s).1

end Call

/-- The state that a sequence of calls leaves. -/
def after (crypto : Crypto Key) (calls : List (Call Key)) (s : PbftSidecar) : PbftSidecar :=
  calls.foldl (fun s call => (call.run crypto s).2) s

section

variable {crypto : Crypto Key} {V : Bytes → SignedMessage → Prop} {R : ProposalIdentity → Prop}
variable {context : PbftContext Key} {calls : List (Call Key)}

theorem checkedSize_reads (m : SignedMessage) (s : PbftSidecar) :
    (PbftSidecar.checkedSize m s).2 = s := by
  rw [PbftSidecar.checkedSize, Prog.bind_of_ok (Prog.get_run s)]
  split
  · rfl
  · split <;> rfl

/-- A message is refused, or dispatched from the state that the expiry leaves. -/
theorem handle_cases (crypto : Crypto Key) (m : SignedMessage) (context : PbftContext Key)
    (s : PbftSidecar) :
    (∃ e, PbftSidecar.handle crypto m context s =
      (.error e, PbftSidecar.expire context.nowMillis s)) ∨
    ∃ w, m.recoverWitness crypto = .ok w ∧ w ∈ context.committee m.raw.epoch ∧
      PbftSidecar.handle crypto m context s =
        PbftSidecar.dispatch crypto m (some w) context (PbftSidecar.expire context.nowMillis s) := by
  rw [PbftSidecar.handle, Prog.bind_of_ok (Prog.modify_run _ s)]
  have hr := checkedSize_reads m (PbftSidecar.expire context.nowMillis s)
  rcases hs : PbftSidecar.checkedSize m (PbftSidecar.expire context.nowMillis s) with
    ⟨e | _, s₁⟩ <;> rw [hs] at hr <;> subst hr
  · exact .inl ⟨e, Prog.bind_of_error hs⟩
  · rw [Prog.bind_of_ok hs]
    cases hw : m.recoverWitness crypto with
    | error e => exact .inl ⟨e, rfl⟩
    | ok w =>
      rw [Prog.bind_of_ok (Prog.ofExcept_ok_run id w _)]
      by_cases hm : w ∈ context.committee m.raw.epoch
      · rw [if_neg (not_not.mpr hm)]
        exact .inr ⟨w, rfl, hm, rfl⟩
      · rw [if_pos hm]
        exact .inl ⟨_, rfl⟩

theorem localPreprepare_cases (crypto : Crypto Key) (m : SignedMessage) (context : PbftContext Key)
    (s : PbftSidecar) :
    (∃ e, PbftSidecar.localPreprepare crypto m context s =
      (.error e, PbftSidecar.expire context.nowMillis s)) ∨
    PbftSidecar.localPreprepare crypto m context s =
      PbftSidecar.dispatch crypto m none context (PbftSidecar.expire context.nowMillis s) := by
  rw [PbftSidecar.localPreprepare, Prog.bind_of_ok (Prog.modify_run _ s)]
  have hr := checkedSize_reads m (PbftSidecar.expire context.nowMillis s)
  rcases hs : PbftSidecar.checkedSize m (PbftSidecar.expire context.nowMillis s) with
    ⟨e | _, s₁⟩ <;> rw [hs] at hr <;> subst hr
  · exact .inl ⟨e, Prog.bind_of_error hs⟩
  · rw [Prog.bind_of_ok hs]
    by_cases hk : m.raw.msgType = .preprepare
    · rw [if_neg (not_not.mpr hk)]
      exact .inr rfl
    · rw [if_pos hk]
      exact .inl ⟨_, rfl⟩

/-- **A call**: it expires what is too old and may drop a round for a chain switch; from there it
does what `Yields` says. -/
theorem yields_call {call : Call Key} {m : SignedMessage} (hi : call.input = some (m, context))
    {s : PbftSidecar} (hs : (PbftSidecar.expire context.nowMillis s).Sound crypto V R)
    (hsig : Signs crypto V R context)
    (hg : ∀ w, call = .handle m context → m.recoverWitness crypto = .ok w →
      w ∈ context.committee m.raw.epoch → V w m)
    (ho : ∀ s', (call.run crypto s).2 = s' →
      m.raw.no ∉ (PbftSidecar.expire context.nowMillis s).rounds →
      m.raw.no ∉ (PbftSidecar.expire context.nowMillis s).completed →
      m.raw.no ∈ s'.rounds ∨ m.raw.no ∈ s'.completed → R m.raw.identity) :
    ∃ s₁ : PbftSidecar, s₁.quorum = s.quorum ∧
      s₁.completed = (PbftSidecar.expire context.nowMillis s).completed ∧
      Yields crypto (Grown crypto V R context (sentBy (call.run crypto s).1)) R context s₁
        (call.effects crypto s) (call.run crypto s).2 := by
  have hre : ∀ e, call.run crypto s = (.error e, PbftSidecar.expire context.nowMillis s) →
      ∃ s₁ : PbftSidecar, s₁.quorum = s.quorum ∧
        s₁.completed = (PbftSidecar.expire context.nowMillis s).completed ∧
        Yields crypto (Grown crypto V R context (sentBy (call.run crypto s).1)) R context s₁
          (call.effects crypto s) (call.run crypto s).2 := by
    intro e hr
    rw [Call.effects, hr]
    refine ⟨PbftSidecar.expire context.nowMillis s, rfl, rfl, ?_⟩
    exact (Yields.refl hs).mono fun _ _ => .inl
  cases call with
  | expire nowMillis => cases hi
  | handle message context' =>
    obtain ⟨rfl, rfl⟩ := Prod.mk.inj (Option.some.inj hi)
    rcases handle_cases crypto message context' s with ⟨e, hr⟩ | ⟨w, hsi, hm, hr⟩
    · exact hre e hr
    · simp only [Call.effects, Call.run, hr] at ho ⊢
      refine yields_dispatch hsig hs ?_ ho
      rintro w' heq
      cases heq
      exact ⟨hsi, hg w rfl hsi hm⟩
  | localPreprepare message context' =>
    obtain ⟨rfl, rfl⟩ := Prod.mk.inj (Option.some.inj hi)
    rcases localPreprepare_cases crypto message context' s with ⟨e, hr⟩ | hr
    · exact hre e hr
    · simp only [Call.effects, Call.run, hr] at ho ⊢
      exact yields_dispatch hsig hs (fun w heq => nomatch heq) ho

/-! ## Sequences of calls -/

/-- A vote came in with a call whose committee has its witness, or has a signature that a call makes
with a local key. -/
def Accepted (crypto : Crypto Key) (calls : List (Call Key)) (witness : Bytes)
    (m : SignedMessage) : Prop :=
  (∃ context, .handle m context ∈ calls ∧ witness ∈ context.committee m.raw.epoch) ∨
  ∃ call ∈ calls, ∃ message context, call.input = some (message, context) ∧
    ∃ key ∈ context.signerKeys m.raw.epoch, crypto.sign key m.raw.bytes = .ok m.signature

theorem Accepted.append {w : Bytes} {m : SignedMessage} (h : Accepted crypto calls w m)
    (more : List (Call Key)) : Accepted crypto (calls ++ more) w m := by
  rcases h with ⟨context, hm, hw⟩ | ⟨call, hm, h⟩
  · exact .inl ⟨context, List.mem_append_left more hm, hw⟩
  · exact .inr ⟨call, List.mem_append_left more hm, h⟩

theorem after_concat (calls : List (Call Key)) (call : Call Key) (s : PbftSidecar) :
    after crypto (calls ++ [call]) s = (call.run crypto (after crypto calls s)).2 := by
  rw [after, List.foldl_concat]
  rfl

theorem after_append (calls more : List (Call Key)) (s : PbftSidecar) :
    after crypto (calls ++ more) s = after crypto more (after crypto calls s) :=
  List.foldl_append

theorem Accepted.of_signed {call : Call Key} {m vote : SignedMessage} {w : Bytes}
    (hm : call ∈ calls) (hi : call.input = some (m, context)) (h : Signed crypto R context w vote) :
    Accepted crypto calls w vote :=
  .inr ⟨call, hm, m, context, hi, h.signature⟩

/-- The votes of a sidecar are votes it has accepted. -/
theorem accepts_call {call : Call Key} {m : SignedMessage} (hi : call.input = some (m, context))
    {s : PbftSidecar} (hs : s.Sound crypto (Accepted crypto calls) fun _ => True) :
    ∃ s₁ : PbftSidecar, s₁.quorum = s.quorum ∧
      s₁.completed = (PbftSidecar.expire context.nowMillis s).completed ∧
      Yields crypto (Accepted crypto (calls ++ [call])) (fun _ => True) context s₁
        (call.effects crypto s) (call.run crypto s).2 := by
  have hm : call ∈ calls ++ [call] := List.mem_append_right calls List.mem_cons_self
  have hmo := (hs.mono (fun w m h => h.append [call]) fun _ _ _ _ _ => trivial).expire
    context.nowMillis
  obtain ⟨s₁, hq, hc, hy⟩ := yields_call hi hmo
    (fun w vote _ h => .of_signed hm hi h) (fun w hca _ hw => .inl ⟨context, hca ▸ hm, hw⟩)
    fun _ _ _ _ _ => trivial
  refine ⟨s₁, hq, hc, hy.mono fun w vote h => ?_⟩
  exact h.elim id fun h => .of_signed hm hi h.1

theorem sound_new (quorum : Option Nat) (bounds : PbftBounds) :
    (PbftSidecar.new quorum bounds).Sound crypto V R where
  round _ _ h := nomatch h
  prepare _ _ h := nomatch h
  commit _ _ h := nomatch h
  closed _ h := absurd h Finmap.notMem_empty

theorem sound_run {s : PbftSidecar} (call : Call Key)
    (hs : s.Sound crypto (Accepted crypto calls) fun _ => True) :
    (call.run crypto s).2.Sound crypto (Accepted crypto (calls ++ [call])) (fun _ => True) ∧
      (call.run crypto s).2.quorum = s.quorum := by
  cases hi : call.input with
  | none =>
    cases call with
    | expire nowMillis =>
      have hm := hs.mono (fun w m h => h.append [.expire nowMillis]) fun _ _ _ _ _ => trivial
      exact ⟨hm.expire nowMillis, rfl⟩
    | handle _ _ => cases hi
    | localPreprepare _ _ => cases hi
  | some input =>
    obtain ⟨s₁, hq, _, hy⟩ := accepts_call hi hs
    exact ⟨hy.sound, hy.quorum.trans hq⟩

/-- The invariant after any calls. -/
theorem sound_after (crypto : Crypto Key) (quorum : Option Nat) (bounds : PbftBounds)
    (calls : List (Call Key)) :
    (after crypto calls (.new quorum bounds)).Sound crypto (Accepted crypto calls) (fun _ => True) ∧
      (after crypto calls (.new quorum bounds)).quorum = quorum := by
  induction calls using List.reverseRecOn with
  | nil => exact ⟨sound_new quorum bounds, rfl⟩
  | append_singleton calls call ih =>
    rw [after_concat]
    exact ⟨(sound_run call ih.1).1, (sound_run call ih.1).2.trans ih.2⟩

/-- The entry of a completed number expires in the course of the calls. -/
def Expired (crypto : Crypto Key) (no : Bytes) (calls : List (Call Key)) (s : PbftSidecar) : Prop :=
  ∃ first call rest, calls = first ++ call :: rest ∧ no ∈ (after crypto first s).completed ∧
    no ∉ (PbftSidecar.expire call.now (after crypto first s)).completed

/-- What a call leaves of the completed numbers. -/
theorem completed_run {s : PbftSidecar} (call : Call Key)
    (hs : s.Sound crypto (Accepted crypto calls) fun _ => True) {no : Bytes}
    (hno : no ∈ (PbftSidecar.expire call.now s).completed) :
    no ∈ (call.run crypto s).2.completed := by
  cases hi : call.input with
  | none =>
    cases call with
    | expire nowMillis => exact hno
    | handle _ _ => cases hi
    | localPreprepare _ _ => cases hi
  | some input =>
    have hn : call.now = input.2.nowMillis := by
      cases call <;> cases hi <;> rfl
    obtain ⟨s₁, _, hc, hy⟩ := accepts_call hi hs
    exact hy.completed no (hc ▸ hn ▸ hno)

/-- A completed number is still completed when a later call has expired what is too old, or its entry
has expired in between. -/
theorem completed_or_expired {s : PbftSidecar}
    (hs : s.Sound crypto (Accepted crypto calls) fun _ => True) {no : Bytes}
    (hno : no ∈ s.completed) (between : List (Call Key)) (call : Call Key) :
    no ∈ (PbftSidecar.expire call.now (after crypto between s)).completed ∨
      Expired crypto no (between ++ [call]) s := by
  induction between generalizing calls s with
  | nil =>
    by_cases hk : no ∈ (PbftSidecar.expire call.now s).completed
    · exact .inl hk
    · exact .inr ⟨[], call, [], rfl, hno, hk⟩
  | cons next between ih =>
    by_cases hk : no ∈ (PbftSidecar.expire next.now s).completed
    · rcases ih (sound_run next hs).1 (completed_run next hs hk) with h | h
      · exact .inl h
      · obtain ⟨first, last, rest, heq, hb, ha⟩ := h
        exact .inr ⟨next :: first, last, rest, by rw [List.cons_append, heq]; rfl, hb, ha⟩
    · exact .inr ⟨[], next, between ++ [call], rfl, hno, hk⟩

theorem CommitData.no_congr {data data' : CommitData} (hn : data.number = data'.number)
    (hk : data.dataType = data'.dataType) : data.no = data'.no := by
  rw [CommitData.no, CommitData.no, hn, hk]
  rfl

/-! ## Recorded votes -/

/-- A PREPARE that a call finds in a round or waiting for one, that it brings in, or that it makes and
forwards. -/
def Recorded (s : PbftSidecar) (call : Call Key) (effects : List Effect) (w : Bytes)
    (m : SignedMessage) : Prop :=
  (∃ no round, s.rounds.lookup no = some round ∧ round.prepare.lookup w = some m) ∨
  (∃ key e, s.pendingPrepare.lookup key = some e ∧ e.2 = m) ∨
  (∃ context, call = .handle m context) ∨ .forward m.bytes ∈ effects

/-- The votes that a call after `calls` counts: accepted ones, where a PREPARE is recorded. -/
def Counted (crypto : Crypto Key) (calls : List (Call Key)) (s : PbftSidecar) (call : Call Key)
    (w : Bytes) (m : SignedMessage) : Prop :=
  Accepted crypto (calls ++ [call]) w m ∧ (m.raw.msgType = .prepare →
    Recorded (PbftSidecar.expire call.now s) call (call.effects crypto s) w m)

/-- The commits of a call are made of votes that it counts. -/
theorem counts_call {call : Call Key} {m : SignedMessage} (hi : call.input = some (m, context))
    {s : PbftSidecar} (hs : s.Sound crypto (Accepted crypto calls) fun _ => True)
    {data : CommitData} (hd : data ∈ commitsOf (call.effects crypto s)) :
    ∃ identity votes, CertifiedBy crypto (Counted crypto calls s call)
      (quorumOf s.quorum (context.committee data.epoch).length) data identity votes := by
  have hme : call ∈ calls ++ [call] := List.mem_append_right calls List.mem_cons_self
  have hn : call.now = context.nowMillis := by
    cases call <;> cases hi <;> rfl
  let s₀ := PbftSidecar.expire context.nowMillis s
  have hs₀ : s₀.Sound crypto (Accepted crypto (calls ++ [call])) fun _ => True :=
    (hs.mono (fun w m h => h.append [call]) fun _ _ _ _ _ => trivial).expire _
  have hc : ∀ {w vote}, Ballot crypto (Accepted crypto (calls ++ [call])) .commit w vote →
      Ballot crypto (Counted crypto calls s call) .commit w vote :=
    fun h => h.mono fun hg => ⟨hg, fun hk => nomatch h.kind.symm.trans hk⟩
  have hco : s₀.Sound crypto (Counted crypto calls s call) fun _ => True := {
    round := by
      intro no round hr
      obtain ⟨identity, h⟩ := hs₀.round no round hr
      refine ⟨identity, { h with
        prepare := fun w vote hv => (h.prepare w vote hv).imp id fun hm => hm.mono fun hg =>
          ⟨hg, fun _ => .inl ⟨no, round, hn ▸ hr, hv⟩⟩
        commit := fun w vote hv => (h.commit w vote hv).imp id hc }⟩
    prepare := fun key e he => (hs₀.prepare key e he).imp fun w hm => hm.mono fun hg =>
      ⟨hg, fun _ => .inr (.inl ⟨key, e, hn ▸ he, rfl⟩)⟩
    commit := fun key e he => (hs₀.commit key e he).imp fun w => hc
    closed := hs₀.closed }
  obtain ⟨s₁, hq, _, hy⟩ := yields_call hi hco
    (fun w vote hk h => ⟨.of_signed hme hi h, fun h => nomatch hk.symm.trans h⟩)
    (fun w hca _ hw => ⟨.inl ⟨context, hca ▸ hme, hw⟩, fun _ => .inr (.inr (.inl ⟨context, hca⟩))⟩)
    fun _ _ _ _ _ => trivial
  obtain ⟨_, _, identity, votes, _, hce⟩ := hy.commits data hd
  refine ⟨identity, votes, hq ▸ hce.mono fun w vote h => ?_⟩
  rcases h with h | ⟨hsi, hse⟩
  · exact h
  · refine ⟨.of_signed hme hi hsi, fun _ => .inr (.inr (.inr ?_))⟩
    -- a call that returns a commit has not failed
    rw [Call.effects] at hd ⊢
    rcases hre : (call.run crypto s).1 with _ | effects <;> rw [hre] at hd hse
    · cases hd
    · exact hse

theorem CertifiedBy.valid {need : Nat} {data : CommitData} {identity : ProposalIdentity}
    {votes : List (Bytes × SignedMessage)} (h : CertifiedBy crypto V need data identity votes)
    {vote : Bytes × SignedMessage} (hv : vote ∈ votes) :
    crypto.recover data.raw vote.2.signature = .ok vote.1 := by
  obtain ⟨hi, hb⟩ := h.committed vote hv
  have hs := hb.signer
  rw [SignedMessage.recoverWitness, Raw.eq_raw hi hb.kind, ← h.bytes] at hs
  split at hs
  · cases hs
  · cases hr : crypto.recover data.raw vote.2.signature with
    | error e =>
      rw [hr] at hs
      cases hs
    | ok w =>
      rw [hr] at hs
      cases hs
      rfl

/-- **Commit certificates.** After any calls on a sidecar, a call that returns a commit had a context,
and the commit carries a quorum, for the committee of its epoch in that context, of signatures of
distinct witnesses, valid for the bytes of the commit, whose votes were accepted and that had a
recorded PREPARE for the same proposal. A number and kind is committed at most once by a call, and
again by a later one only after the entry of the completed number has expired. -/
theorem commit_certified (crypto : Crypto Key) (quorum : Option Nat) (bounds : PbftBounds)
    (before : List (Call Key)) (call : Call Key) :
    let start := PbftSidecar.new quorum bounds
    let s := after crypto before start
    (∀ data ∈ commitsOf (call.effects crypto s),
      ∃ m context identity votes, call.input = some (m, context) ∧
        CertifiedBy crypto (Counted crypto before s call)
          (quorumOf quorum (context.committee data.epoch).length) data identity votes ∧
        ∀ vote ∈ votes, crypto.recover data.raw vote.2.signature = .ok vote.1) ∧
    ((commitsOf (call.effects crypto s)).map fun data => (data.number, data.dataType)).Nodup ∧
    ∀ first earlier between, before = first ++ earlier :: between →
      ∀ data ∈ commitsOf (call.effects crypto s),
      ∀ data' ∈ commitsOf (earlier.effects crypto (after crypto first start)),
      data'.number = data.number → data'.dataType = data.dataType →
      Expired crypto data.no (between ++ [call]) (after crypto (first ++ [earlier]) start) := by
  intro start s
  obtain ⟨hs, hquorum⟩ := sound_after crypto quorum bounds before
  cases hinput : call.input with
  | none =>
    have heffects : call.effects crypto s = [] := by
      cases call with
      | expire nowMillis => rfl
      | handle _ _ => cases hinput
      | localPreprepare _ _ => cases hinput
    rw [heffects]
    exact ⟨fun _ h => (nomatch h), List.nodup_nil, fun _ _ _ _ _ h => (nomatch h)⟩
  | some input =>
    obtain ⟨m, context⟩ := input
    obtain ⟨s₁, hq, hcompleted, hyields⟩ := accepts_call hinput hs
    have hnow : call.now = context.nowMillis := by
      cases call <;> cases hinput <;> rfl
    refine ⟨fun data hdata => ?_, ?_, ?_⟩
    · obtain ⟨identity, votes, hcert⟩ := counts_call hinput hs hdata
      rw [hquorum] at hcert
      exact ⟨m, context, identity, votes, rfl, hcert, fun vote hvote => hcert.valid hvote⟩
    · have hdistinct := hyields.distinct
      refine List.Nodup.of_map (fun key => CommitData.no ⟨[], key.2, key.1, 0, []⟩) ?_
      rw [List.map_map]
      exact hdistinct
    · rintro first earlier between rfl data hdata data' hdata' hnumber hkind
      -- the earlier call left the number completed; this one found it open
      have hfirst := (sound_after crypto quorum bounds first).1
      have hdone : data.no ∈ (after crypto (first ++ [earlier]) start).completed := by
        rw [after_concat, ← CommitData.no_congr hnumber hkind]
        cases hinput' : earlier.input with
        | none =>
          cases earlier with
          | expire nowMillis => cases hdata'
          | handle _ _ => cases hinput'
          | localPreprepare _ _ => cases hinput'
        | some input' =>
          obtain ⟨_, _, _, hyields'⟩ := accepts_call hinput' hfirst
          exact (hyields'.commits data' hdata').2.1
      refine (completed_or_expired (sound_after crypto quorum bounds _).1 hdone between
        call).resolve_left ?_
      have hopen := (hyields.commits data hdata).1
      rw [hcompleted, ← hnow] at hopen
      rwa [← after_append, List.append_assoc]

end

/-! ## A witness alone -/

/-- Signatures that say who made them. -/
def sampleCrypto : Crypto UInt8 where
  sign key _ := .ok [key]
  recover _ signature := .ok signature

/-- A node that expects a payload for block 1 of the only witness of the committee. -/
def sampleContext (signers : List (LocalSigner UInt8)) (data : Bytes) (nowMillis : Int) :
    PbftContext UInt8 where
  nowMillis := nowMillis
  syncing := false
  chainSwitch := false
  currentWitnesses := [[1]]
  beforeWitnesses := []
  beforeMaintenanceTime := 0
  localSigners := signers
  expectedProposals := [⟨.block, 1, 1, [1], data⟩]

/-- The call that proposes block 1 at the node of the witness. -/
def sampleCall (data : Bytes) (nowMillis : Int) : Call UInt8 :=
  .localPreprepare ⟨⟨.preprepare, .block, 1, 1, data⟩, []⟩
    (sampleContext [⟨[1], 1⟩] data nowMillis)

/-- The commit of block 1. -/
def sampleCommit (data : Bytes) : CommitData :=
  ⟨Raw.bytes ⟨.commit, .block, 1, 1, data⟩, .block, 1, 1, [[1]]⟩

/-! ## A committee of four -/

/-- Four witnesses, of whom three are a quorum. -/
def council : List Bytes := [[1], [2], [3], [4]]

/-- A node that expects a payload for block 1 and has the keys of some of the four. -/
def councilContext (signers : List (LocalSigner UInt8)) : PbftContext UInt8 :=
  { sampleContext signers [7] 0 with currentWitnesses := council }

/-- A message about block 1 that a witness has signed. -/
def councilMessage (witness : UInt8) (msgType : MsgType) : SignedMessage :=
  ⟨⟨msgType, .block, 1, 1, [7]⟩, [witness]⟩

/-- The node of the first two witnesses. -/
def proposer : PbftContext UInt8 := councilContext [⟨[1], 1⟩, ⟨[2], 2⟩]

/-- It proposes block 1, and the fourth witness prepares it. -/
def proposedCalls : List (Call UInt8) :=
  [.localPreprepare ⟨⟨.preprepare, .block, 1, 1, [7]⟩, []⟩ proposer,
    .handle (councilMessage 4 .prepare) proposer]

/-- The commit of block 1, with the signatures of a quorum. -/
def councilCommit (signatures : List Bytes) : CommitData :=
  ⟨Raw.bytes ⟨.commit, .block, 1, 1, [7]⟩, .block, 1, 1, signatures⟩

/-- The fourth witness commits it. -/
def committingCall : Call UInt8 := .handle (councilMessage 4 .commit) proposer

/-- The vote of the fourth witness completes the quorum: the call that brings it returns the commit,
with its certificate. -/
theorem commit_certified_sample :
    councilCommit [[1], [2], [4]] ∈ commitsOf (committingCall.effects sampleCrypto
      (after sampleCrypto proposedCalls (.new (some 3) .default))) ∧
    ∃ identity votes, CertifiedBy sampleCrypto (Counted sampleCrypto proposedCalls
      (after sampleCrypto proposedCalls (.new (some 3) .default)) committingCall) 3
      (councilCommit [[1], [2], [4]]) identity votes := by
  have hcommit : councilCommit [[1], [2], [4]] ∈ commitsOf (committingCall.effects sampleCrypto
      (after sampleCrypto proposedCalls (.new (some 3) .default))) := by
    decide +kernel
  obtain ⟨m, context, identity, votes, hinput, hcert, -⟩ :=
    (commit_certified sampleCrypto (some 3) .default proposedCalls committingCall).1 _ hcommit
  cases hinput
  exact ⟨hcommit, identity, votes, hcert⟩

end RustTron.Consensus.Pbft
