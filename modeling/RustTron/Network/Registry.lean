import RustTron.Network.Handshake
import RustTron.Library.Holders

/-!
# The peer registry

A session takes its peer out of both tables by the node id, not by who put it in. One that the pool
refused has no entry of its own any more when it cleans up, and takes out that of another session
with the same node id if there is one by then. If it finds none, both tables hold what the sessions
registered, whatever the order of their steps.

## Main definitions

* `Phase.inAdmission`, `Phase.inPool`: the node id that a session has registered in a table
* `Hub.Consistent`: the registry holds what the sessions registered
* `Hub.harmless`: the condition under which a step takes out nothing of another session

## Main results

* `Hub.Reachable.registry_consistent`: runs of such steps leave the registry consistent
-/

namespace RustTron.Network

variable {Session : Type} [DecidableEq Session]

/-- The node id that a session has registered in the admission table. -/
def Phase.inAdmission : Phase → Option Bytes
  | .admitted id => some id
  | .refused id => some id
  | .negotiating id => some id
  | .connected id => some id
  | .closing id true => some id
  | _ => none

/-- The node id that a session has registered in the pool. -/
def Phase.inPool : Phase → Option Bytes
  | .negotiating id => some id
  | .connected id => some id
  | .closing id true => some id
  | .leaving id true => some id
  | _ => none

/-! ### The tables -/

namespace Admission

/-- The number of the registered peers with an address. -/
def registeredFrom (a : Admission) (ip : IpAddr) : Nat :=
  FMap.total (fun _ peerIp => if peerIp = ip then 1 else 0) a.peers

/-- The counters count the registered peers. -/
def Counted (a : Admission) : Prop := ∀ ip, a.countOf ip = a.registeredFrom ip

variable {a b : Admission}

theorem admitHello_eq_ok {hello : HelloMessage} {remoteIp : IpAddr} {localNodeId : Bytes}
    {cfg : AdmissionConfig} {now : Int}
    (h : a.admitHello hello remoteIp localNodeId cfg now = .ok b) :
    ∃ ep, hello.endpoint = some ep ∧ ep.nodeId ∉ a.peers ∧
      b = { a with
        peers := a.peers.insert ep.nodeId remoteIp
        perIp := a.perIp.insert remoteIp (a.countOf remoteIp + 1) } := by
  unfold admitHello at h
  cases hep : hello.endpoint with
  | none =>
    rw [hep] at h
    cases h
  | some ep =>
    rw [hep] at h
    dsimp only at h
    split at h
    · cases h
    · iterate 5 (split at h; · cases h)
      split at h
      · cases h
      · rename_i hf
        iterate 2 (split at h; · cases h)
        cases h
        exact ⟨ep, rfl, hf, rfl⟩

theorem countOf_insert (perIp : FMap IpAddr Nat) (ip other : IpAddr) (n : Nat) :
    ((perIp.insert ip n).lookup other).getD 0 =
      if other = ip then n else (perIp.lookup other).getD 0 := by
  split
  · next h =>
    rw [h, Finmap.lookup_insert]
    rfl
  · next h => rw [Finmap.lookup_insert_of_ne _ h]

theorem Counted.admitted (ha : a.Counted) {id : Bytes} (hid : id ∉ a.peers) (remoteIp : IpAddr) :
    Counted { a with
      peers := a.peers.insert id remoteIp
      perIp := a.perIp.insert remoteIp (a.countOf remoteIp + 1) } := by
  intro ip
  unfold countOf registeredFrom
  rw [countOf_insert, FMap.total_insert_of_notMem _ _ hid]
  have hc := ha ip
  unfold countOf registeredFrom at hc
  by_cases hip : ip = remoteIp
  · subst hip
    rw [if_pos rfl, if_pos rfl, hc, Nat.add_comm]
  · rw [if_neg hip, if_neg (Ne.symm hip), hc, Nat.zero_add]

theorem peers_remove (node : Bytes) : (a.remove node).peers = a.peers.erase node := by
  unfold remove
  cases h : a.peers.lookup node with
  | some ip => rfl
  | none => exact (erase_of_notMem (Finmap.lookup_eq_none.mp h)).symm

theorem Counted.remove (ha : a.Counted) (node : Bytes) : (a.remove node).Counted := by
  unfold Admission.remove
  cases h : a.peers.lookup node with
  | none => exact ha
  | some remoteIp =>
    intro ip
    have he := FMap.total_erase (fun _ peerIp => if peerIp = ip then 1 else 0) h
    have hc := ha ip
    unfold countOf registeredFrom at hc ⊢
    dsimp only
    cases hn : a.perIp.lookup remoteIp with
    | none =>
      -- The counter of a registered peer is there, as it is not zero.
      have hz := ha remoteIp
      unfold countOf registeredFrom at hz
      have he' := FMap.total_erase (fun _ peerIp => if peerIp = remoteIp then 1 else 0) h
      rw [hn, ← he', if_pos rfl] at hz
      exact absurd hz (by simp only [Option.getD_none]; omega)
    | some n =>
      dsimp only
      rw [countOf_insert]
      by_cases hip : ip = remoteIp
      · subst hip
        rw [if_pos rfl]
        rw [hn, Option.getD_some] at hc
        rw [if_pos rfl] at he
        omega
      · rw [if_neg hip]
        rw [if_neg (Ne.symm hip)] at he
        omega

end Admission

theorem ConnectionPool.insert_eq_ok {pool next : ConnectionPool} {peer : Peer} {cfg : PoolConfig}
    (h : pool.insert peer cfg = .ok next) :
    peer.nodeId ∉ pool.peers ∧ next = ⟨pool.peers.insert peer.nodeId peer⟩ := by
  unfold ConnectionPool.insert at h
  split at h
  · cases h
  split at h
  · cases h
  rename_i hf
  iterate 2 (split at h; · cases h)
  cases h
  exact ⟨hf, rfl⟩

/-! ### Runs -/

namespace Hub

/-- What the registry holds is what the sessions registered, and the counters count it. -/
structure Registered (cfg : Session → SessionConfig) (h : Hub Session) : Prop where
  admission : Held h.registry.admission.peers (Phase.inAdmission ∘ h.phase)
    fun i _ => (cfg i).remote.ip
  pool : Held h.registry.pool.peers (Phase.inPool ∘ h.phase) fun i id => (cfg i).peer id
  counted : h.registry.admission.Counted

/-- A clean-up that finds nothing where it has nothing to take out: a session that the pool refused
finds its node id in neither table. -/
def harmless (h : Hub Session) : HubStep Session → Bool
  | .leaveAdmission i =>
    match h.phase i with
    | .closing id false => decide (id ∉ h.registry.admission.peers)
    | _ => true
  | .leavePool i =>
    match h.phase i with
    | .leaving id false => decide (id ∉ h.registry.pool.peers)
    | _ => true
  | _ => true

/-- The states that steps lead to, each of them one that `allowed` allows. -/
inductive Reachable (cfg : Session → SessionConfig) (allowed : Hub Session → HubStep Session → Prop) :
    Hub Session → Prop
  | start : Reachable cfg allowed start
  | step {h next : Hub Session} {s : HubStep Session} :
    Reachable cfg allowed h → allowed h s → h.step cfg s = some next → Reachable cfg allowed next

section Step

variable {cfg : Session → SessionConfig} {h next : Hub Session}

theorem held_update {Value : Type} {table : FMap Bytes Value} {entry : Session → Bytes → Value}
    {f : Phase → Option Bytes} {phases : Session → Phase} {i : Session} {phase : Phase}
    (h : Held table (Function.update (f ∘ phases) i (f phase)) entry) :
    Held table (f ∘ Function.update phases i phase) entry := by
  rwa [Function.comp_update]

theorem held_update_same {Value : Type} {table : FMap Bytes Value}
    {entry : Session → Bytes → Value} {f : Phase → Option Bytes} {phases : Session → Phase}
    {i : Session} {phase : Phase} (hf : f phase = f (phases i)) (h : Held table (f ∘ phases) entry) :
    Held table (f ∘ Function.update phases i phase) entry := by
  apply held_update
  rw [hf]
  exact (Function.update_eq_self i (f ∘ phases)).symm ▸ h

theorem Registered.goTo (hr : h.Registered cfg) {i : Session} {phase : Phase}
    (ha : phase.inAdmission = (h.phase i).inAdmission)
    (hp : phase.inPool = (h.phase i).inPool) : (h.goTo i phase).Registered cfg :=
  ⟨held_update_same ha hr.admission, held_update_same hp hr.pool, hr.counted⟩

theorem Registered.enterAdmission (hr : h.Registered cfg) {i : Session}
    (hg : h.phase i = .greeting) {admission : Admission} {hello : HelloMessage}
    {ep : Endpoint} {now : Int} (hep : hello.endpoint = some ep)
    (hok : h.registry.admission.admitHello hello (cfg i).remote.ip (cfg i).localNodeId
      (cfg i).admission now = .ok admission) :
    ((h.withAdmission admission).goTo i (.admitted ep.nodeId)).Registered cfg := by
  obtain ⟨ep', he', hf, rfl⟩ := Admission.admitHello_eq_ok hok
  cases hep.symm.trans he'
  have hn : (Phase.inAdmission ∘ h.phase) i = none := by
    rw [Function.comp_apply, hg]
    rfl
  refine ⟨held_update (hr.admission.enter hn hf), held_update_same ?_ hr.pool,
    hr.counted.admitted hf _⟩
  change _ = (h.phase i).inPool
  rw [hg]
  rfl

theorem Registered.leaveAdmission (hr : h.Registered cfg) {i : Session} {id : Bytes}
    (hho : (h.phase i).inAdmission = some id) {phase : Phase}
    (ha : phase.inAdmission = none) (hp : phase.inPool = (h.phase i).inPool) :
    ((h.withAdmission (h.registry.admission.remove id)).goTo i phase).Registered cfg := by
  refine ⟨held_update ?_, held_update_same hp hr.pool, hr.counted.remove id⟩
  have hh := hr.admission.leave hho
  rw [← ha, ← Admission.peers_remove] at hh
  exact hh

theorem Registered.enterPool (hr : h.Registered cfg) {i : Session} {id : Bytes}
    (ha : h.phase i = .admitted id) {pool : ConnectionPool}
    (hi : h.registry.pool.insert ((cfg i).peer id) (cfg i).pool = .ok pool) :
    ((h.withPool pool).goTo i (.negotiating id)).Registered cfg := by
  obtain ⟨hf, rfl⟩ := ConnectionPool.insert_eq_ok hi
  have hn : (Phase.inPool ∘ h.phase) i = none := by
    rw [Function.comp_apply, ha]
    rfl
  refine ⟨held_update_same ?_ hr.admission, held_update (hr.pool.enter hn hf),
    hr.counted⟩
  change _ = (h.phase i).inAdmission
  rw [ha]
  rfl

theorem Registered.leavePool (hr : h.Registered cfg) {i : Session} {id : Bytes}
    (hl : h.phase i = .leaving id true) :
    ((h.withPool (h.registry.pool.remove id)).goTo i .ending).Registered cfg := by
  have hh : (Phase.inPool ∘ h.phase) i = some id := by
    rw [Function.comp_apply, hl]
    rfl
  refine ⟨held_update_same ?_ hr.admission, held_update (hr.pool.leave hh), hr.counted⟩
  change _ = (h.phase i).inAdmission
  rw [hl]
  rfl

theorem Registered.step (hr : h.Registered cfg) {s : HubStep Session} (hs : h.harmless s)
    (hst : h.step cfg s = some next) : next.Registered cfg := by
  cases s with
  | admitHello i hello now =>
    unfold Hub.step at hst
    dsimp only at hst
    split at hst
    · rename_i hg hep
      split at hst
      · rename_i hok
        cases hst
        exact hr.enterAdmission hg hep hok
      · cases hst
        exact hr.goTo (by rw [hg]; rfl) (by rw [hg]; rfl)
    · rename_i hg _
      cases hst
      exact hr.goTo (by rw [hg]; rfl) (by rw [hg]; rfl)
    · cases hst
  | insert i =>
    unfold Hub.step at hst
    dsimp only at hst
    split at hst
    · rename_i ha
      split at hst
      · rename_i hi
        cases hst
        exact hr.enterPool ha hi
      · cases hst
        exact hr.goTo (by rw [ha]; rfl) (by rw [ha]; rfl)
    · cases hst
  | takeBack i =>
    unfold Hub.step at hst
    dsimp only at hst
    split at hst
    · rename_i hre
      cases hst
      exact hr.leaveAdmission (by rw [hre]; rfl) rfl (by rw [hre]; rfl)
    · cases hst
  | connect i =>
    unfold Hub.step at hst
    dsimp only at hst
    split at hst
    · rename_i hn
      cases hst
      exact hr.goTo (by rw [hn]; rfl) (by rw [hn]; rfl)
    · cases hst
  | stop i =>
    unfold Hub.step at hst
    dsimp only at hst
    split at hst
    iterate 3
      · rename_i hp
        cases hst
        exact hr.goTo (by rw [hp]; rfl) (by rw [hp]; rfl)
    · cases hst
  | leaveAdmission i =>
    unfold Hub.step at hst
    unfold harmless at hs
    dsimp only at hst hs
    split at hst
    · rename_i id pooled hc
      cases hst
      cases pooled with
      | true => exact hr.leaveAdmission (by rw [hc]; rfl) rfl (by rw [hc]; rfl)
      | false =>
        -- The session has no entry, and there is none: nothing changes.
        rw [hc] at hs
        have hno := Finmap.lookup_eq_none.mpr (of_decide_eq_true hs)
        have hsa : h.registry.admission.remove id = h.registry.admission := by
          unfold Admission.remove
          rw [hno]
        rw [hsa]
        exact hr.goTo (by rw [hc]; rfl) (by rw [hc]; rfl)
    · cases hst
  | leavePool i =>
    unfold Hub.step at hst
    unfold harmless at hs
    dsimp only at hst hs
    split at hst
    · rename_i id pooled hl
      cases hst
      cases pooled with
      | true => exact hr.leavePool hl
      | false =>
        rw [hl] at hs
        have hsa : h.registry.pool.remove id = h.registry.pool :=
          congrArg ConnectionPool.mk (erase_of_notMem (of_decide_eq_true hs))
        rw [hsa]
        exact hr.goTo (by rw [hl]; rfl) (by rw [hl]; rfl)
    · cases hst
  | ban i till =>
    unfold Hub.step at hst
    dsimp only at hst
    split at hst
    · cases hst
      exact ⟨hr.admission, hr.pool, hr.counted⟩
    · cases hst
  | finish i =>
    unfold Hub.step at hst
    dsimp only at hst
    split at hst
    · rename_i he
      cases hst
      exact hr.goTo (by rw [he]; rfl) (by rw [he]; rfl)
    · cases hst

end Step

/-- Every connected session is registered in both tables by its own entry, the counters count the
registered peers, no node id is registered by two sessions in a table, and when all sessions have
ended or not begun the tables are empty. -/
structure Consistent (cfg : Session → SessionConfig) (h : Hub Session) : Prop where
  connected : ∀ i id, h.phase i = .connected id →
    h.registry.admission.peers.lookup id = some (cfg i).remote.ip ∧
      h.registry.pool.peers.lookup id = some ((cfg i).peer id)
  counters : ∀ ip, h.registry.admission.countOf ip = h.registry.admission.registeredFrom ip
  admitted : ∀ i j id, (h.phase i).inAdmission = some id → (h.phase j).inAdmission = some id → i = j
  pooled : ∀ i j id, (h.phase i).inPool = some id → (h.phase j).inPool = some id → i = j
  idle : (∀ i, h.phase i = .greeting ∨ h.phase i = .closed) →
    h.registry.admission.peers = ∅ ∧ h.registry.pool.peers = ∅ ∧
      ∀ ip, h.registry.admission.countOf ip = 0

section Runs

variable {cfg : Session → SessionConfig} {h : Hub Session}

omit [DecidableEq Session] in
theorem Registered.toConsistent (hr : h.Registered cfg) : h.Consistent cfg where
  connected i id hi :=
    ⟨hr.admission.present i id (by rw [Function.comp_apply, hi]; rfl),
      hr.pool.present i id (by rw [Function.comp_apply, hi]; rfl)⟩
  counters := hr.counted
  admitted := hr.admission.unique
  pooled := hr.pool.unique
  idle hid := by
    have hn : ∀ i, (h.phase i).inAdmission = none ∧ (h.phase i).inPool = none := by
      intro i
      rcases hid i with hi | hi <;> rw [hi] <;> exact ⟨rfl, rfl⟩
    have he := hr.admission.eq_empty fun i => (hn i).1
    refine ⟨he, hr.pool.eq_empty fun i => (hn i).2, fun ip => ?_⟩
    rw [hr.counted ip, Admission.registeredFrom, he, FMap.total_empty]

omit [DecidableEq Session] in
theorem registered_start : (start : Hub Session).Registered cfg :=
  ⟨Held.empty, Held.empty, fun _ => rfl⟩

theorem Reachable.registered
    (hr : Reachable cfg (fun h s => h.harmless s) h) : h.Registered cfg := by
  induction hr with
  | start => exact registered_start
  | step _ hs hst ih => exact ih.step hs hst

/-- **The peer registry is consistent.** Whatever the order of the locked sections of the sessions,
as long as no session that the pool refused finds its node id in a table when it cleans up. -/
theorem Reachable.registry_consistent (hreach : Reachable cfg (fun h s => h.harmless s) h) :
    h.Consistent cfg :=
  hreach.registered.toConsistent

/-- A list of steps, each of them one that `allowed` allows. -/
def runFrom (cfg : Session → SessionConfig) (allowed : Hub Session → HubStep Session → Bool) :
    Hub Session → List (HubStep Session) → Option (Hub Session)
  | h, [] => some h
  | h, s :: steps =>
    if allowed h s then (h.step cfg s).bind fun next => runFrom cfg allowed next steps else none

theorem Reachable.run {allowed : Hub Session → HubStep Session → Bool}
    {steps : List (HubStep Session)} :
    ∀ {h next : Hub Session}, Reachable cfg (fun h s => allowed h s) h →
      runFrom cfg allowed h steps = some next → Reachable cfg (fun h s => allowed h s) next := by
  induction steps with
  | nil => exact fun hre hr => Option.some.inj hr ▸ hre
  | cons s steps ih =>
    intro h next hre hr
    unfold runFrom at hr
    split at hr
    · rename_i ha
      obtain ⟨mid, hm, hres⟩ := Option.bind_eq_some_iff.mp hr
      exact ih (hre.step ha hm) hres
    · cases hr

end Runs

/-! ### A peer that reconnects quickly -/

/-- The node id of a peer. -/
def peerId : Bytes := List.replicate 64 1

/-- Its hello. -/
def peerHello : HelloMessage where
  endpoint := some ⟨[49, 46, 49, 46, 49, 46, 49], 18888, peerId, []⟩
  networkId := 1
  version := 1

/-- The sessions that it opens. -/
def peerSession (i : Nat) : SessionConfig where
  remote := ⟨.v4 [1, 1, 1, 1], 18888 + i⟩
  direction := .passive
  localNodeId := List.replicate 64 2
  admission := ⟨1, 1, 8, 8, []⟩
  pool := ⟨8, 8⟩

/-- One session is refused by the pool, as the clean-up of an earlier one is not done yet. -/
def oneRefused : List (HubStep Nat) :=
  [.admitHello 0 peerHello 0, .insert 0, .connect 0, .stop 0, .leaveAdmission 0, .admitHello 1 peerHello 0,
    .insert 1, .leavePool 0, .takeBack 1]

/-- It cleans up before the next session comes, or after that one is connected. -/
def thenConnected (late : Bool) : List (HubStep Nat) :=
  let cleanUp := [.leaveAdmission 1, .leavePool 1]
  let next := [.admitHello 2 peerHello 0, .insert 2, .connect 2]
  oneRefused ++ if late then next ++ cleanUp else cleanUp ++ next

theorem consistent_thenConnected :
    ∃ h : Hub Nat, h.phase 2 = .connected peerId ∧ h.Consistent peerSession := by
  have hrun : ((runFrom peerSession harmless start (thenConnected false)).map
      fun h => h.phase 2) = some (.connected peerId) := by decide
  obtain ⟨h, hh, hphase⟩ := Option.map_eq_some_iff.mp hrun
  exact ⟨h, hphase, Reachable.registry_consistent (Reachable.run .start hh)⟩

theorem not_consistent_thenConnected :
    ∃ h : Hub Nat, Reachable peerSession (fun _ _ => True) h ∧ h.phase 2 = .connected peerId ∧
      ¬h.Consistent peerSession := by
  have hrun : ((runFrom peerSession (fun _ _ => true) start (thenConnected true)).map
      fun h => (h.phase 2, h.registry.admission.peers.lookup peerId)) =
        some (.connected peerId, none) := by decide
  obtain ⟨h, hh, hresult⟩ := Option.map_eq_some_iff.mp hrun
  obtain ⟨hphase, hlookup⟩ := Prod.mk.inj hresult
  refine ⟨h, ?_, hphase, fun hc => ?_⟩
  · have hreach : Reachable peerSession (fun _ _ => (true : Bool) = true) h := Reachable.run .start hh
    simpa using hreach
  · exact nomatch ((hc.connected 2 peerId hphase).1.symm.trans hlookup)

end Hub

end RustTron.Network
