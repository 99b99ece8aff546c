import RustTron.Consensus.Certificates
import RustTron.Consensus.PbftWire
import RustTron.Library.Quorum

/-!
# Agreement between sidecars

The sidecars of a network exchange votes over a medium that delivers messages in any order, more than
once or not at all, and that may deliver anything in the name of a Byzantine witness. A COMMIT in the
name of an honest witness is one that its sidecar has sent.

While no sidecar drops what it keeps of a number, it votes for one proposal of that number only: its
round, and then the entry of the completed number, hold on to the choice. Two certificates of a
committee with few Byzantine witnesses share an honest one, and agree.

## Main definitions

* `Network`, `World`, `World.step`: the sidecars, what they have sent and what they have committed
* `Admissible`: the calls that the medium and the nodes can make
* `KeepsRound`, `KeepsCompleted`: a call drops neither the round nor the completed entry of a number
* `Agreed`: the invariant, with the proposal that each sidecar has chosen

## Main results

* `agreed_step`, `agreed_of_reaches`: the invariant over every run
* `agreement`: two commits for the same number, kind and epoch have the same bytes
-/

namespace RustTron.Consensus.Pbft

variable {Key ι : Type}

/-- The bytes among the effects of a call. -/
def forwardsOf (effects : List Effect) : List Bytes :=
  effects.filterMap fun effect => match effect with
    | .forward bytes => some bytes
    | .commit _ => none

/-- Sidecars, the committee they all use, and the sidecar that holds the key of each honest witness.
The other witnesses of the committee are Byzantine. -/
structure Network (Key ι : Type) where
  crypto : Crypto Key
  quorum : ι → Option Nat
  bounds : ι → PbftBounds
  committee : List Bytes
  owner : Bytes → Option ι

/-- The state of each sidecar, the messages it has sent and the commits it has returned. -/
structure World (ι : Type) where
  sidecar : ι → PbftSidecar
  sent : ι → List Bytes
  commits : ι → List CommitData

namespace World

/-- No sidecar has been called. -/
def start (network : Network Key ι) : World ι where
  sidecar i := .new (network.quorum i) (network.bounds i)
  sent _ := []
  commits _ := []

/-- A call on one of the sidecars. -/
def step [DecidableEq ι] (network : Network Key ι) (world : World ι) (i : ι) (call : Call Key) :
    World ι :=
  let s := world.sidecar i
  let effects := call.effects network.crypto s
  { sidecar := Function.update world.sidecar i (call.run network.crypto s).2
    sent := Function.update world.sent i (world.sent i ++ forwardsOf effects)
    commits := Function.update world.commits i (world.commits i ++ commitsOf effects) }

end World

/-- What a call of a node obeys: the committee of the epoch is that of the network, the keys of its
signers are those of their witnesses, which no other node holds if they are honest, and a COMMIT of
an honest witness that comes in has been sent by the sidecar of the witness. -/
structure Admissible (network : Network Key ι) (epoch : Int64) (world : World ι) (i : ι)
    (call : Call Key) : Prop where
  committee : ∀ m context, call.input = some (m, context) →
    context.committee epoch = network.committee
  signers : ∀ m context, call.input = some (m, context) → ∀ signer ∈ context.localSigners,
    (∀ bytes signature w, network.crypto.sign signer.key bytes = .ok signature →
      network.crypto.recover bytes signature = .ok w → w = signer.witness) ∧
    ∀ k, network.owner signer.witness = some k → k = i
  authentic : ∀ m context, call = .handle m context → m.raw.msgType = .commit → ∀ w k,
    m.recoverWitness network.crypto = .ok w → network.owner w = some k →
      ∃ signature, SignedMessage.bytes ⟨m.raw, signature⟩ ∈ world.sent k

/-- The call drops no round for the number, by timeout or by a chain switch. -/
def KeepsRound (crypto : Crypto Key) (no : Bytes) (call : Call Key) (s : PbftSidecar) : Prop :=
  no ∈ s.rounds → no ∈ (PbftSidecar.expire call.now s).rounds ∧
    (no ∈ (call.run crypto s).2.rounds ∨ no ∈ (call.run crypto s).2.completed)

/-- The call does not let the entry of the completed number expire. -/
def KeepsCompleted (no : Bytes) (call : Call Key) (s : PbftSidecar) : Prop :=
  no ∈ s.completed → no ∈ (PbftSidecar.expire call.now s).completed

/-- The worlds that admissible calls reach, each of which obeys `keeps`. -/
inductive Reaches [DecidableEq ι] (network : Network Key ι) (epoch : Int64)
    (keeps : Call Key → PbftSidecar → Prop) : World ι → Prop
  | start : Reaches network epoch keeps (.start network)
  | step {world : World ι} (i : ι) (call : Call Key) : Reaches network epoch keeps world →
      Admissible network epoch world i call → keeps call (world.sidecar i) →
      Reaches network epoch keeps (world.step network i call)

section

variable {network : Network Key ι} {epoch : Int64} {no : Bytes}

/-- A sidecar has a round for the number, or has completed it. -/
def Engaged (no : Bytes) (s : PbftSidecar) : Prop := no ∈ s.rounds ∨ no ∈ s.completed

/-- The sidecar may have a round for the proposal: for the number `no`, it is the chosen one. -/
def Chosen (no : Bytes) (chosen : Option ProposalIdentity) (identity : ProposalIdentity) : Prop :=
  identity.no = no → chosen = some identity

/-- A vote is of the committee, and a COMMIT of an honest witness is for what its sidecar has
chosen. -/
structure Good (network : Network Key ι) (epoch : Int64) (no : Bytes)
    (chosen : ι → Option ProposalIdentity) (w : Bytes) (m : SignedMessage) : Prop where
  member : m.raw.epoch = epoch → w ∈ network.committee
  honest : m.raw.msgType = .commit → ∀ k, network.owner w = some k →
    Chosen no (chosen k) m.raw.identity

/-- The invariant: every sidecar holds on to what it has chosen for the number, votes for that only,
and its commits are made of good votes. -/
structure Agreed (network : Network Key ι) (epoch : Int64) (no : Bytes)
    (chosen : ι → Option ProposalIdentity) (world : World ι) : Prop where
  sound : ∀ i, (world.sidecar i).Sound network.crypto (Good network epoch no chosen)
    (Chosen no (chosen i))
  quorum : ∀ i, (world.sidecar i).quorum = network.quorum i
  engaged : ∀ i, chosen i ≠ none → Engaged no (world.sidecar i)
  sent : ∀ i, ∀ bytes ∈ world.sent i, ∃ m : SignedMessage, bytes = m.bytes ∧
    Chosen no (chosen i) m.raw.identity
  commits : ∀ i, ∀ data ∈ world.commits i, data.epoch = epoch → ∃ identity votes,
    CertifiedBy network.crypto (Good network epoch no chosen)
      (quorumOf (network.quorum i) network.committee.length) data identity votes

/-! ## What a sidecar chooses -/

theorem Chosen.mono {chosen chosen' : Option ProposalIdentity} {identity : ProposalIdentity}
    (h : Chosen no chosen identity) (hle : chosen ≠ none → chosen' = chosen) :
    Chosen no chosen' identity := by
  intro hno
  have hc := h hno
  rw [hle (by rw [hc]; exact Option.some_ne_none identity), hc]

theorem Good.mono {chosen chosen' : ι → Option ProposalIdentity} {w : Bytes} {m : SignedMessage}
    (h : Good network epoch no chosen w m) (hle : ∀ k, chosen k ≠ none → chosen' k = chosen k) :
    Good network epoch no chosen' w m where
  member := h.member
  honest hki k hk := (h.honest hki k hk).mono (hle k)

theorem Agreed.sound_mono {chosen chosen' : ι → Option ProposalIdentity} {world : World ι}
    (h : Agreed network epoch no chosen world) (hle : ∀ k, chosen k ≠ none → chosen' k = chosen k)
    (i : ι) : (world.sidecar i).Sound network.crypto (Good network epoch no chosen')
      (Chosen no (chosen' i)) :=
  (h.sound i).mono (fun _ _ hg => hg.mono hle) fun _ _ _ _ hc => hc.mono (hle i)

/-! ## Good votes -/

/-- A signature that a local key makes for what its sidecar has chosen is a good vote. -/
theorem Good.of_signed {chosen : ι → Option ProposalIdentity} {world : World ι} {i : ι}
    {call : Call Key} {m vote : SignedMessage} {context : PbftContext Key} {w : Bytes}
    (ha : Admissible network epoch world i call) (hi : call.input = some (m, context))
    (h : Signed network.crypto (Chosen no (chosen i)) context w vote) :
    Good network epoch no chosen w vote := by
  obtain ⟨key, hke, hsi⟩ := h.signature
  obtain ⟨signer, hs, rfl⟩ := List.mem_map.mp hke
  obtain ⟨hl, hm⟩ := List.mem_filter.mp hs
  obtain ⟨hw, ho⟩ := ha.signers m context hi signer hl
  obtain rfl : w = signer.witness := by
    refine hw vote.raw.bytes vote.signature w hsi ?_
    have hre := h.signer
    rw [SignedMessage.recoverWitness] at hre
    split at hre
    · cases hre
    · cases hr : network.crypto.recover vote.raw.bytes vote.signature with
      | error e =>
        rw [hr] at hre
        cases hre
      | ok w' =>
        rw [hr] at hre
        cases hre
        rfl
  refine ⟨fun he => ?_, fun _ k hk => ?_⟩
  · rw [he, ha.committee m context hi] at hm
    exact of_decide_eq_true hm
  · obtain rfl := ho k hk
    exact h.allowed

/-- A vote that comes in is good: a COMMIT of an honest witness has been sent for what its sidecar has
chosen. -/
theorem Good.of_handled {chosen chosen' : ι → Option ProposalIdentity} {world : World ι} {i : ι}
    {m : SignedMessage} {context : PbftContext Key} {w : Bytes}
    (h : Agreed network epoch no chosen world)
    (hle : ∀ k, chosen k ≠ none → chosen' k = chosen k)
    (ha : Admissible network epoch world i (.handle m context))
    (hs : m.recoverWitness network.crypto = .ok w) (hw : w ∈ context.committee m.raw.epoch) :
    Good network epoch no chosen' w m where
  member he := by
    rw [he, ha.committee m context rfl] at hw
    exact hw
  honest hki k hk := by
    obtain ⟨signature, hse⟩ := ha.authentic m context rfl hki w k hs hk
    obtain ⟨vote, hb, hc⟩ := h.sent k _ hse
    rw [← SignedMessage.bytes_inj hb] at hc
    exact hc.mono (hle k)

/-- The witnesses of a certificate for the epoch are members of the committee, as many as the quorum
asks for, and the honest ones among them have chosen its proposal. -/
theorem certificate_members {chosen : ι → Option ProposalIdentity} {need : Nat} {data : CommitData}
    {identity : ProposalIdentity} {votes : List (Bytes × SignedMessage)}
    (hc : CertifiedBy network.crypto (Good network epoch no chosen) need data identity votes)
    (he : data.epoch = epoch) (hno : data.no = no) :
    let members := (votes.map (·.1)).toFinset
    members ⊆ network.committee.toFinset ∧ need ≤ members.card ∧
      ∀ w ∈ members, ∀ k, network.owner w = some k → chosen k = some identity := by
  intro members
  have hg : ∀ w ∈ members, ∃ m : SignedMessage, m.raw.msgType = .commit ∧
      m.raw.identity = identity ∧ Good network epoch no chosen w m := by
    intro w hw
    obtain ⟨vote, hv, rfl⟩ := List.mem_map.mp (List.mem_toFinset.mp hw)
    obtain ⟨hi, hb⟩ := hc.committed vote hv
    exact ⟨vote.2, hb.kind, hi, hb.good⟩
  refine ⟨fun w hw => ?_, ?_, fun w hw k hk => ?_⟩
  · obtain ⟨m, _, rfl, hm⟩ := hg w hw
    exact List.mem_toFinset.mpr (hm.member (hc.epoch.symm.trans he))
  · rw [List.toFinset_card_of_nodup hc.distinct, List.length_map]
    exact hc.enough
  · obtain ⟨m, hki, rfl, hm⟩ := hg w hw
    refine hm.honest hki k hk ?_
    rw [← hno, CommitData.no, hc.kind, hc.number]
    rfl

/-! ## One call -/

theorem mem_forwardsOf {effects : List Effect} {bytes : Bytes} :
    bytes ∈ forwardsOf effects ↔ .forward bytes ∈ effects := by
  simp only [forwardsOf, List.mem_filterMap]
  constructor
  · rintro ⟨effect, hm, heq⟩
    cases effect with
    | forward bytes =>
      cases heq
      exact hm
    | commit data => cases heq
  · intro hm
    exact ⟨.forward bytes, hm, rfl⟩

variable [DecidableEq ι]

namespace World

variable (network) (world : World ι) (i : ι) (call : Call Key)

theorem sidecar_step_self : (world.step network i call).sidecar i =
    (call.run network.crypto (world.sidecar i)).2 := Function.update_self ..

theorem sent_step_self : (world.step network i call).sent i =
    world.sent i ++ forwardsOf (call.effects network.crypto (world.sidecar i)) :=
  Function.update_self ..

theorem commits_step_self : (world.step network i call).commits i =
    world.commits i ++ commitsOf (call.effects network.crypto (world.sidecar i)) :=
  Function.update_self ..

variable {i} {k : ι}

theorem sidecar_step_of_ne (h : k ≠ i) : (world.step network i call).sidecar k = world.sidecar k :=
  Function.update_of_ne h ..

theorem sent_step_of_ne (h : k ≠ i) : (world.step network i call).sent k = world.sent k :=
  Function.update_of_ne h ..

theorem commits_step_of_ne (h : k ≠ i) : (world.step network i call).commits k = world.commits k :=
  Function.update_of_ne h ..

end World

theorem Agreed.of_call {chosen chosen' : ι → Option ProposalIdentity} {world : World ι} {i : ι}
    {call : Call Key} (h : Agreed network epoch no chosen world)
    (hle : ∀ k, chosen k ≠ none → chosen' k = chosen k) (ho : ∀ k ≠ i, chosen' k = chosen k)
    (hs : (call.run network.crypto (world.sidecar i)).2.Sound network.crypto
      (Good network epoch no chosen') (Chosen no (chosen' i)))
    (hq : (call.run network.crypto (world.sidecar i)).2.quorum = (world.sidecar i).quorum)
    (hen : chosen' i ≠ none → Engaged no (call.run network.crypto (world.sidecar i)).2)
    (hse : ∀ bytes, .forward bytes ∈ call.effects network.crypto (world.sidecar i) →
      ∃ m : SignedMessage, bytes = m.bytes ∧ Chosen no (chosen' i) m.raw.identity)
    (hc : ∀ data ∈ commitsOf (call.effects network.crypto (world.sidecar i)),
      data.epoch = epoch → ∃ identity votes,
        CertifiedBy network.crypto (Good network epoch no chosen')
          (quorumOf (network.quorum i) network.committee.length) data identity votes) :
    Agreed network epoch no chosen' (world.step network i call) := by
  have hb : ∀ k, ∀ bytes ∈ world.sent k, ∃ m : SignedMessage, bytes = m.bytes ∧
      Chosen no (chosen' k) m.raw.identity := fun k bytes hme =>
    (h.sent k bytes hme).imp fun m hm => ⟨hm.1, hm.2.mono (hle k)⟩
  have hb' : ∀ k, ∀ data ∈ world.commits k, data.epoch = epoch → ∃ identity votes,
      CertifiedBy network.crypto (Good network epoch no chosen')
        (quorumOf (network.quorum k) network.committee.length) data identity votes := by
    intro k data hme he
    obtain ⟨identity, votes, hce⟩ := h.commits k data hme he
    exact ⟨identity, votes, hce.mono fun w m hg => hg.mono hle⟩
  refine ⟨fun k => ?_, fun k => ?_, fun k hk => ?_, fun k bytes hme => ?_,
    fun k data hme he => ?_⟩ <;> by_cases hki : k = i
  · subst hki
    rw [World.sidecar_step_self]
    exact hs
  · rw [World.sidecar_step_of_ne network world call hki]
    exact h.sound_mono hle k
  · subst hki
    rw [World.sidecar_step_self]
    exact hq.trans (h.quorum k)
  · rw [World.sidecar_step_of_ne network world call hki]
    exact h.quorum k
  · subst hki
    rw [World.sidecar_step_self]
    exact hen hk
  · rw [World.sidecar_step_of_ne network world call hki]
    exact h.engaged k (ho k hki ▸ hk)
  · subst hki
    rw [World.sent_step_self] at hme
    rcases List.mem_append.mp hme with hme | hme
    · exact hb k bytes hme
    · exact hse bytes (mem_forwardsOf.mp hme)
  · rw [World.sent_step_of_ne network world call hki] at hme
    exact hb k bytes hme
  · subst hki
    rw [World.commits_step_self] at hme
    rcases List.mem_append.mp hme with hme | hme
    · exact hb' k data hme he
    · exact hc data hme he
  · rw [World.commits_step_of_ne network world call hki] at hme
    exact hb' k data hme he

/-- **A call keeps the invariant**, where it drops neither the round of the number nor its completed
entry. The sidecar chooses when the call leaves it engaged and it was not. -/
theorem agreed_step {chosen : ι → Option ProposalIdentity} {world : World ι} {i : ι}
    {call : Call Key} (h : Agreed network epoch no chosen world)
    (ha : Admissible network epoch world i call)
    (hr : KeepsRound network.crypto no call (world.sidecar i))
    (hd : KeepsCompleted no call (world.sidecar i)) :
    ∃ chosen', Agreed network epoch no chosen' (world.step network i call) := by
  cases hi : call.input with
  | none =>
    cases call with
    | handle _ _ => cases hi
    | localPreprepare _ _ => cases hi
    | expire nowMillis =>
      refine ⟨chosen, h.of_call (fun _ _ => rfl) (fun _ _ => rfl) ((h.sound i).expire nowMillis) rfl
        (fun hc => ?_) (fun _ hm => nomatch hm) fun _ hm => nomatch hm⟩
      exact (h.engaged i hc).elim (fun hno => (hr hno).2) fun hno => .inr (hd hno)
  | some input =>
    obtain ⟨m, context⟩ := input
    have hnow : call.now = context.nowMillis := by
      cases call <;> cases hi <;> rfl
    classical
    let s := world.sidecar i
    let s' := (call.run network.crypto s).2
    -- the choice of a sidecar that the call engages in the number
    let engages := ¬ Engaged no s ∧ Engaged no s' ∧ m.raw.no = no
    let chosen' := Function.update chosen i (if engages then some m.raw.identity else chosen i)
    have hse : chosen' i = if engages then some m.raw.identity else chosen i :=
      Function.update_self ..
    have ho : ∀ k ≠ i, chosen' k = chosen k := fun k hk => Function.update_of_ne hk ..
    have hle : ∀ k, chosen k ≠ none → chosen' k = chosen k := by
      intro k hk
      by_cases hki : k = i
      · subst hki
        rw [hse, if_neg fun he => he.1 (h.engaged k hk)]
      · exact ho k hki
    have hs : ∀ w vote, Signed network.crypto (Chosen no (chosen' i)) context w vote →
        Good network epoch no chosen' w vote := fun w vote => Good.of_signed ha hi
    have hope : ∀ s₁, (call.run network.crypto s).2 = s₁ →
        m.raw.no ∉ (PbftSidecar.expire context.nowMillis s).rounds →
        m.raw.no ∉ (PbftSidecar.expire context.nowMillis s).completed →
        m.raw.no ∈ s₁.rounds ∨ m.raw.no ∈ s₁.completed → Chosen no (chosen' i) m.raw.identity := by
      rintro _ rfl hn hop haf hno
      rw [Raw.no_identity] at hno
      rw [hno, ← hnow] at hn hop
      have he : engages := ⟨fun hen => hen.elim (fun hm => hn (hr hm).1)
        fun hm => hop (hd hm), hno ▸ haf, hno⟩
      rw [hse, if_pos he]
    obtain ⟨s₁, hq, hco, hy⟩ := yields_call hi
      ((h.sound_mono hle i).expire context.nowMillis) (fun w vote _ => hs w vote)
      (fun w hca hsi hw => Good.of_handled h hle (hca ▸ ha) hsi hw) hope
    have hy := hy.mono fun w vote hg => hg.elim id fun hg => hs w vote hg.1
    refine ⟨chosen', h.of_call hle ho hy.sound (hy.quorum.trans hq)
      (fun hc => ?_) hy.forwards fun data hda hep => ?_⟩
    · by_cases he : engages
      · exact he.2.1
      · rw [hse, if_neg he] at hc
        refine (h.engaged i hc).elim (fun hno => (hr hno).2) fun hno => .inr ?_
        exact hy.completed no (hco ▸ hnow ▸ hd hno)
    · obtain ⟨_, _, identity, votes, _, hce⟩ := hy.commits data hda
      rw [hq, h.quorum i, hep, ha.committee m context hi] at hce
      exact ⟨identity, votes, hce⟩

theorem agreed_of_reaches {world : World ι} (h : Reaches network epoch (fun call s =>
    KeepsRound network.crypto no call s ∧ KeepsCompleted no call s) world) :
    ∃ chosen, Agreed network epoch no chosen world := by
  induction h with
  | start =>
    refine ⟨fun _ => none, ?_⟩
    exact {
      sound := fun i => sound_new _ _
      quorum := fun _ => rfl
      engaged := fun _ hc => absurd rfl hc
      sent := fun _ _ hm => nomatch hm
      commits := fun _ _ hm => nomatch hm }
  | step i call _ ha hk ih =>
    obtain ⟨chosen, hag⟩ := ih
    exact agreed_step hag ha hk.1 hk.2

/-! ## Two commits -/

/-- **Agreement.** In a committee of which at most `f` members are Byzantine, with quorums above half
of the members and `f`, two commits for the same number, kind and epoch have the same bytes, in every
run in which no sidecar drops its round or its completed entry of the number. -/
theorem agreement {f : Nat} {dataType : DataType} {number : Int64}
    (hbyzantine : (network.committee.toFinset.filter fun w => network.owner w = none).card ≤ f)
    (hquorum : ∀ i, network.committee.length + f <
      2 * quorumOf (network.quorum i) network.committee.length)
    {world : World ι} (hreaches : Reaches network epoch (fun call s =>
      KeepsRound network.crypto (ProposalIdentity.no ⟨dataType, number, epoch, []⟩) call s ∧
      KeepsCompleted (ProposalIdentity.no ⟨dataType, number, epoch, []⟩) call s) world)
    {i j : ι} {data data' : CommitData} (hdata : data ∈ world.commits i)
    (hdata' : data' ∈ world.commits j)
    (hnumber : data.dataType = dataType ∧ data.number = number ∧ data.epoch = epoch)
    (hnumber' : data'.dataType = dataType ∧ data'.number = number ∧ data'.epoch = epoch) :
    data.raw = data'.raw := by
  obtain ⟨hkind, hno, hepoch⟩ := hnumber
  obtain ⟨hkind', hno', hepoch'⟩ := hnumber'
  obtain ⟨chosen, hagreed⟩ := agreed_of_reaches hreaches
  obtain ⟨identity, votes, hcert⟩ := hagreed.commits i data hdata hepoch
  obtain ⟨identity', votes', hcert'⟩ := hagreed.commits j data' hdata' hepoch'
  obtain ⟨hsub, hcard, hchose⟩ := certificate_members hcert hepoch
    (by rw [CommitData.no, hkind, hno, hepoch])
  obtain ⟨hsub', hcard', hchose'⟩ := certificate_members hcert' hepoch'
    (by rw [CommitData.no, hkind', hno', hepoch'])
  have hlength := network.committee.toFinset_card_le
  obtain ⟨w, hw, hw', hhonest⟩ := Finset.exists_mem_inter_not hsub hsub' hbyzantine (by
    have := hquorum i
    have := hquorum j
    omega)
  obtain ⟨k, hk⟩ := Option.ne_none_iff_exists'.mp hhonest
  have hsame := (hchose w hw k hk).symm.trans (hchose' w hw' k hk)
  rw [hcert.bytes, hcert'.bytes, Option.some.inj hsame]

end

/-! ## A committee of one -/

/-- The only witness of the committee is honest, and its key is at the first of two nodes. -/
def sampleNetwork : Network UInt8 Bool where
  crypto := sampleCrypto
  quorum _ := none
  bounds _ := .default
  committee := [[1]]
  owner w := if w = [1] then some true else none

theorem admissible_sampleCall (world : World Bool) (data : Bytes) (nowMillis : Int) :
    Admissible sampleNetwork 1 world true (sampleCall data nowMillis) where
  committee m context hi := by
    cases hi
    rfl
  signers m context hi signer hs := by
    cases hi
    obtain rfl := List.mem_singleton.mp hs
    refine ⟨fun bytes signature w hsi hr => ?_, fun k hk => (Option.some.inj hk).symm⟩
    cases hsi
    cases hr
    rfl
  authentic m context hc := nomatch hc

/-- The number of block 1. -/
def sampleNo : Bytes := ProposalIdentity.no ⟨.block, 1, 1, []⟩

/-- Once the entry of a completed number has expired, the same witness commits another payload for
the number, though no round was ever dropped. -/
theorem recommits_after_expiry :
    let world := ((World.start sampleNetwork).step sampleNetwork true (sampleCall [7] 0)).step
      sampleNetwork true (sampleCall [8] 200000)
    (sampleNetwork.committee.toFinset.filter fun w => sampleNetwork.owner w = none).card ≤ 0 ∧
    (∀ i, sampleNetwork.committee.length + 0 <
      2 * quorumOf (sampleNetwork.quorum i) sampleNetwork.committee.length) ∧
    Reaches sampleNetwork 1 (KeepsRound sampleNetwork.crypto sampleNo) world ∧
    world.commits true = [sampleCommit [7], sampleCommit [8]] ∧
    (sampleCommit [7]).raw ≠ (sampleCommit [8]).raw := by
  refine ⟨by decide, by decide, ?_, by decide, by decide⟩
  refine .step true _ (.step true _ .start (admissible_sampleCall _ _ _) ?_)
    (admissible_sampleCall _ _ _) ?_
  · unfold KeepsRound
    decide
  · unfold KeepsRound
    decide

/-! ## A committee of four -/

/-- The keys of the first two witnesses are at one node and that of the third at another; the fourth
is Byzantine. -/
def councilNetwork : Network UInt8 Bool where
  crypto := sampleCrypto
  quorum _ := some 3
  bounds _ := .default
  committee := council
  owner w := if w = [1] ∨ w = [2] then some true else if w = [3] then some false else none

/-- The context of each node. -/
def councilNode : Bool → PbftContext UInt8
  | true => proposer
  | false => councilContext [⟨[3], 3⟩]

/-- A node receives a message that a witness has signed. -/
def councilCall (witness : UInt8) (msgType : MsgType) (i : Bool) : Call UInt8 :=
  .handle (councilMessage witness msgType) (councilNode i)

theorem signers_councilNode {i : Bool} : ∀ signer ∈ (councilNode i).localSigners,
    [signer.key] = signer.witness ∧ councilNetwork.owner signer.witness = some i := by
  cases i <;> decide

theorem admissible_council {world : World Bool} {i : Bool} {call : Call UInt8} {m : SignedMessage}
    (hi : call.input = some (m, councilNode i))
    (ha : ∀ context, call = .handle m context → m.raw.msgType = .commit → ∀ w k,
      m.recoverWitness sampleCrypto = .ok w → councilNetwork.owner w = some k →
        ∃ signature, SignedMessage.bytes ⟨m.raw, signature⟩ ∈ world.sent k) :
    Admissible councilNetwork 1 world i call where
  committee m' context hi' := by
    cases hi.symm.trans hi'
    cases i <;> rfl
  signers m' context hi' signer hs := by
    cases hi.symm.trans hi'
    obtain ⟨hkey, howner⟩ := signers_councilNode signer hs
    refine ⟨fun bytes signature w hsi hr => ?_, fun k hk => Option.some.inj (hk.symm.trans howner)⟩
    cases hsi
    cases hr
    exact hkey
  authentic m' context hc := by
    cases call with
    | handle _ _ =>
      cases hi
      cases hc
      exact ha _ rfl
    | localPreprepare _ _ => cases hc
    | expire _ => cases hc

theorem admissible_councilCall {world : World Bool} {i : Bool} {witness : UInt8}
    {msgType : MsgType} (h : msgType = .commit → ∀ k ∈ councilNetwork.owner [witness],
      SignedMessage.bytes (councilMessage witness .commit) ∈ world.sent k) :
    Admissible councilNetwork 1 world i (councilCall witness msgType i) := by
  refine admissible_council rfl fun context _ hkind w k hw hk => ?_
  cases hkind
  cases hw
  exact ⟨[witness], h rfl k hk⟩

/-- Both nodes have seen the proposal, with the votes of the fourth witness for it. -/
def preparedWorld : World Bool :=
  (((((World.start councilNetwork).step councilNetwork true
    (.localPreprepare ⟨⟨.preprepare, .block, 1, 1, [7]⟩, []⟩ proposer)).step councilNetwork true
    (councilCall 4 .prepare true)).step councilNetwork false
    (councilCall 1 .preprepare false)).step councilNetwork false
    (councilCall 1 .prepare false)).step councilNetwork false (councilCall 4 .prepare false)

/-- Both nodes have committed block 1. -/
def committedWorld : World Bool :=
  ((preparedWorld.step councilNetwork true (councilCall 4 .commit true)).step councilNetwork false
    (councilCall 1 .commit false)).step councilNetwork false (councilCall 4 .commit false)

/-- Each of two nodes commits block 1 with a quorum of its own, of which the Byzantine witness is a
member, and they agree. -/
theorem agreement_sample :
    ∃ data ∈ committedWorld.commits true, ∃ data' ∈ committedWorld.commits false,
      data.signatures ≠ data'.signatures ∧ data.raw = data'.raw := by
  have htrue : councilCommit [[1], [2], [4]] ∈ committedWorld.commits true := by decide +kernel
  have hfalse : councilCommit [[1], [3], [4]] ∈ committedWorld.commits false := by decide +kernel
  have hreaches : Reaches councilNetwork 1 (fun call s =>
      KeepsRound councilNetwork.crypto sampleNo call s ∧ KeepsCompleted sampleNo call s)
      committedWorld := by
    unfold KeepsRound KeepsCompleted
    refine .step false _ (.step false _ (.step true _ (.step false _ (.step false _ (.step false _
      (.step true _ (.step true _ .start
        (admissible_council rfl nofun) ?_) (admissible_councilCall ?_) ?_)
        (admissible_councilCall ?_) ?_) (admissible_councilCall ?_) ?_)
        (admissible_councilCall ?_) ?_) (admissible_councilCall ?_) ?_)
        (admissible_councilCall ?_) ?_) (admissible_councilCall ?_) ?_
    all_goals decide +kernel
  exact ⟨_, htrue, _, hfalse, by decide, agreement (f := 1) (by decide) (by decide) hreaches htrue
    hfalse ⟨rfl, rfl, rfl⟩ ⟨rfl, rfl, rfl⟩⟩

end RustTron.Consensus.Pbft
