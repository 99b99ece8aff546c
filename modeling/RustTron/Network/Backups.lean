import RustTron.Network.BackupAuth
import Mathlib

/-!
# The backup nodes

Nodes that seal datagrams for one another over a network that loses, repeats, reorders, reflects
and injects packets. What arrives at a node is arbitrary, up to the tags: a packet that has the tag
of a key of some node was sealed under that key.

## Main definitions

* `Backups`, `Backups.Mutual`: the nodes, and two of them that hold each other's key
* `World`, `Lives`: the state of the nodes with what they have sent and heard, and their runs
* `Genuine`, `Opens`: what the two directions of a datagram promise
* `SocketAddr.IsPlain`, `Room`: when a datagram in order is returned

## Main results

* `Lives.inv`: what holds in every run
* `Lives.genuine_and_opens_iff`: a datagram that is returned was sent, once, in order; and one that
  arrives in order is returned if and only if its addresses are plain and the socket has room
-/

namespace RustTron.Network.Backup

/-- The nodes. No two of them go by one identity, and each is bound to its own. -/
structure Backups (N : Type) where
  mac : Mac
  ring : N → BackupPeerKeyring
  distinct : Function.Injective fun n => (ring n).localIdentity
  bound : ∀ n, (ring n).localIdentity = (ring n).localEndpoint.ip

/-- Two nodes with each other's identity and endpoint, and a key in common. -/
structure Backups.Mutual {N : Type} (w : Backups N) (a b : N) (key : Bytes) : Prop where
  left : (w.ring a).peers.lookup (w.ring b).localIdentity =
    some ⟨(w.ring b).localIdentity, (w.ring b).localEndpoint, key⟩
  right : (w.ring b).peers.lookup (w.ring a).localIdentity =
    some ⟨(w.ring a).localIdentity, (w.ring a).localEndpoint, key⟩

/-- A datagram that a node has sealed in `send_to`. -/
structure Sent (N : Type) where
  sender : N
  address : SocketAddr
  stamp : Stamp
  payload : Bytes

/-- A node with its authenticator and its socket; what the authenticator has opened, and of that
what has been returned, and returned by the socket it now has. -/
structure Node where
  inbound : Inbound
  socket : SecureDatagramSocket
  arrived : List AuthenticatedDatagram
  returned : List AuthenticatedDatagram
  current : List AuthenticatedDatagram

/-- The nodes, and all that was ever sent. -/
structure World (N : Type) where
  node : N → Node
  sent : List (Sent N)

section Runs

variable {N : Type} [DecidableEq N] (w : Backups N)

/-- What the tag of a datagram covers. -/
def Sent.signed (e : Sent N) : Bytes :=
  signedBytes (w.ring e.sender).localIdentity (w.ring e.sender).localEndpoint e.address.ip
    e.address e.stamp e.payload

/-- A packet with the tag of a key of some node was sealed under that key. -/
def Unforged (sent : List (Sent N)) (packet : Bytes) : Prop :=
  ∀ n identity peer signed, (w.ring n).peers.lookup identity = some peer →
    packet = signed ++ w.mac.tag peer.key signed →
    ∃ e ∈ sent, e.signed w = signed

/-- A node that sends, and what it has sealed. -/
def Node.send (n : N) (node : Node) (bytes : Bytes) (address : SocketAddr)
    (io : Except String Unit) : Node × List (Sent N) :=
  ({ node with socket := (node.socket.sendTo w.mac (w.ring n) bytes address io).2 },
    match node.socket.prepare w.mac (w.ring n) bytes address with
    | .error _ => []
    | .ok (sequence, _) => [⟨n, address, ⟨node.socket.outbound.session, sequence⟩, bytes⟩])

/-- A node at which a packet arrives. -/
def Node.hear (n : N) (node : Node) (source : SocketAddr) (packet : Bytes) : Node :=
  match node.socket.receive w.mac (w.ring n) node.inbound source packet with
  | (heard, inbound, socket) =>
    let opened := (heard.map (·.1)).toList
    let accepted := (heard.filter (·.2)).map (·.1) |>.toList
    { inbound := inbound
      socket := socket
      arrived := node.arrived ++ opened
      returned := node.returned ++ accepted
      current := node.current ++ accepted }

/-- A node with a new socket, under the authenticator it has. -/
def Node.rebind (localAddr : SocketAddr) (session : UInt64) (capacity : Nat) (node : Node) : Node :=
  { node with socket := .withSessionAndCapacity localAddr session capacity, current := [] }

/-- A node that starts again. -/
def Node.fresh (localAddr : SocketAddr) (session : UInt64) (capacity : Nat) : Node :=
  ⟨∅, .withSessionAndCapacity localAddr session capacity, [], [], []⟩

/-- A run of the nodes from a fresh start, every step by any node. -/
inductive Lives : World N → Prop
  | begin (localAddr : N → SocketAddr) (session : N → UInt64) (capacity : N → Nat) :
    Lives ⟨fun n => .fresh (localAddr n) (session n) (capacity n), []⟩
  | send {s : World N} (n : N) (bytes : Bytes) (address : SocketAddr) (io : Except String Unit) :
    Lives s → Lives ⟨Function.update s.node n ((s.node n).send w n bytes address io).1,
      s.sent ++ ((s.node n).send w n bytes address io).2⟩
  | arrive {s : World N} (n : N) (source : SocketAddr) (packet : Bytes) :
    Lives s → Unforged w s.sent packet →
      Lives ⟨Function.update s.node n ((s.node n).hear w n source packet), s.sent⟩
  | rebind {s : World N} (n : N) (localAddr : SocketAddr) (session : UInt64) (capacity : Nat) :
    Lives s →
      Lives ⟨Function.update s.node n ((s.node n).rebind localAddr session capacity), s.sent⟩
  | restart {s : World N} (n : N) (localAddr : SocketAddr) (session : UInt64) (capacity : Nat) :
    Lives s → Lives ⟨Function.update s.node n (.fresh localAddr session capacity), s.sent⟩

end Runs

/-! ## What is opened was sent -/

section Genuine

variable {N : Type} {w : Backups N} {sent : List (Sent N)}

/-- What a node has sealed: no longer than allowed, and for a peer of its keyring. -/
def Sent.Sealed (w : Backups N) (e : Sent N) : Prop :=
  e.payload.length ≤ backupAuthMaxPayload ∧
    ∃ peer, (w.ring e.sender).peers.lookup e.address.ip = some peer ∧ peer.endpoint = e.address

/-- A datagram that a node has opened is one that was sent to it. -/
structure Genuine (w : Backups N) (n : N) (e : Sent N) (d : AuthenticatedDatagram) : Prop where
  sender : d.peerIdentity = (w.ring e.sender).localIdentity
  source : d.source = (w.ring e.sender).localEndpoint.plain
  identity : e.address.ip = (w.ring n).localIdentity
  address : e.address.plain = (w.ring n).localEndpoint
  stamp : d.stamp = e.stamp
  payload : d.payload = e.payload

/-- What the authenticator opens in a run, and what it remembers. -/
structure Opened (n : N) (inbound inbound' : Inbound) (source : SocketAddr)
    (d : AuthenticatedDatagram) : Prop where
  id : d.peerId = peerId d.peerIdentity
  identity : d.peerIdentity = source.ip
  source : d.source = source
  fresh : ∀ old, inbound.lookup d.peerIdentity = some old → old.Before d.stamp
  inbound : inbound' = inbound.insert d.peerIdentity d.stamp

/-- **What is opened was sent to the node**, if no tag is forged. -/
theorem genuine_of_authenticate {n : N} {inbound inbound' : Inbound} {source : SocketAddr}
    {packet : Bytes} {d : AuthenticatedDatagram} (hu : Unforged w sent packet)
    (hs : ∀ e ∈ sent, e.Sealed w)
    (h : authenticate w.mac (w.ring n) inbound source packet = some (d, inbound')) :
    Opened n inbound inbound' source d ∧ ∃ e ∈ sent, Genuine w n e d := by
  obtain ⟨identity, peer, signed, hpe, hp⟩ := exists_signed h
  obtain ⟨e, he, rfl⟩ := hu n identity peer signed hpe hp
  -- the packet is what the sender has sealed, so its header is that of the sender
  rw [hp, Sent.signed,
    authenticate_signed _ _ _ _ (hs e he).1 (w.mac.length_tag _ _)] at h
  obtain ⟨peer', -, hm, -, hf, rfl, rfl⟩ := checkSigned_eq_some_iff.mp h
  exact ⟨⟨rfl, hm.identity, rfl, hf, rfl⟩, e, he,
    ⟨rfl, hm.enclosed.symm, hm.destinationIdentity, hm.destination, rfl, rfl⟩⟩

end Genuine

/-! ## Every run -/

section Inv

variable {N : Type} {w : Backups N} {s : World N} {sent sent' : List (Sent N)} {n : N}

/-- What the authenticator remembers of its life, and the socket of its own. -/
structure Node.Inv (w : Backups N) (sent : List (Sent N)) (n : N) (node : Node) : Prop where
  inbound : Remembers node.inbound (node.arrived.map fun d => (d.peerIdentity, d.stamp))
  tracked : Remembers node.socket.inboundSessions.current
    (node.current.map fun d => (d.peerId, d.stamp))
  ids : ∀ d ∈ node.arrived, d.peerId = peerId d.peerIdentity
  genuine : ∀ d ∈ node.arrived, ∃ e ∈ sent, Genuine w n e d
  returned : node.returned.Sublist node.arrived
  current : node.current.Sublist node.returned

theorem Node.Inv.mono {node : Node} (h : node.Inv w sent n) (hs : sent ⊆ sent') :
    node.Inv w sent' n where
  inbound := h.inbound
  tracked := h.tracked
  ids := h.ids
  genuine d hd := by
    obtain ⟨e, he, hg⟩ := h.genuine d hd
    exact ⟨e, hs he, hg⟩
  returned := h.returned
  current := h.current

theorem Node.inv_fresh (localAddr : SocketAddr) (session : UInt64) (capacity : Nat) :
    (Node.fresh localAddr session capacity).Inv w sent n :=
  ⟨remembers_empty, remembers_empty, nofun, nofun, .slnil, .slnil⟩

theorem Node.sendTo_inboundSessions (n : N) (node : Node) (bytes : Bytes) (address : SocketAddr)
    (io : Except String Unit) :
    (node.socket.sendTo w.mac (w.ring n) bytes address io).2.inboundSessions =
      node.socket.inboundSessions := by
  rw [SecureDatagramSocket.sendTo]
  split
  · rfl
  · cases io <;> rfl

/-- **What a packet does to a node**: nothing, or it is opened, and returned or not. -/
theorem Node.hear_cases (n : N) (node : Node) (source : SocketAddr) (packet : Bytes) :
    authenticate w.mac (w.ring n) node.inbound source packet = none ∧
        node.hear w n source packet = node ∨
      ∃ d inbound, authenticate w.mac (w.ring n) node.inbound source packet = some (d, inbound) ∧
        (node.socket.inboundSessions.accept d source = none ∧
            node.hear w n source packet =
              { node with inbound := inbound, arrived := node.arrived ++ [d] } ∨
          ∃ tracker, node.socket.inboundSessions.accept d source = some tracker ∧
            node.hear w n source packet =
              { inbound := inbound, socket := { node.socket with inboundSessions := tracker },
                arrived := node.arrived ++ [d], returned := node.returned ++ [d],
                current := node.current ++ [d] }) := by
  rw [Node.hear, SecureDatagramSocket.receive]
  rcases authenticate w.mac (w.ring n) node.inbound source packet with _ | ⟨d, inbound⟩
  · exact .inl ⟨rfl, by simp⟩
  · refine .inr ⟨d, inbound, rfl, ?_⟩
    rcases ha : node.socket.inboundSessions.accept d source with _ | tracker
    · exact .inl ⟨rfl, by simp [ha]⟩
    · exact .inr ⟨tracker, rfl, by simp [ha]⟩

/-- **A packet keeps the memories**, whatever it is. -/
theorem Node.Inv.hear {node : Node} (h : node.Inv w sent n) {source : SocketAddr} {packet : Bytes}
    (hu : Unforged w sent packet) (hs : ∀ e ∈ sent, e.Sealed w) :
    (node.hear w n source packet).Inv w sent n := by
  rcases node.hear_cases n source packet with
    ⟨-, heq⟩ | ⟨d, inbound, hau, hc⟩
  · rw [heq]
    exact h
  obtain ⟨ho, hg⟩ := genuine_of_authenticate hu hs hau
  obtain ⟨hid, hide, hso, hf, rfl⟩ := ho
  have hi := h.inbound.insert hf
  have hids : ∀ d' ∈ node.arrived ++ [d], d'.peerId = peerId d'.peerIdentity := by
    intro d' hd'
    rcases List.mem_append.mp hd' with hb | hn
    · exact h.ids d' hb
    · exact List.mem_singleton.mp hn ▸ hid
  have hal : ∀ d' ∈ node.arrived ++ [d], ∃ e ∈ sent, Genuine w n e d' := by
    intro d' hd'
    rcases List.mem_append.mp hd' with hb | hn
    · exact h.genuine d' hb
    · exact List.mem_singleton.mp hn ▸ hg
  rcases hc with ⟨-, heq⟩ | ⟨tracker, ha, heq⟩
  · rw [heq]
    refine ⟨?_, h.tracked, hids, hal, ?_, h.current⟩
    · simpa using hi
    · exact h.returned.trans (List.sublist_append_left _ _)
  · obtain ⟨-, hl, rfl⟩ :=
      (SessionTracker.accept_eq_some_iff hso hide hid).mp ha
    have ht := h.tracked.insert hl
    rw [heq]
    refine ⟨?_, ?_, hids, hal, h.returned.append (.refl _), h.current.append (.refl _)⟩
    · simpa using hi
    · simpa using ht

variable [DecidableEq N]

/-- **What holds in every run.** -/
structure Lives.Inv (w : Backups N) (s : World N) : Prop where
  sealed : ∀ e ∈ s.sent, e.Sealed w
  node : ∀ n, (s.node n).Inv w s.sent n

theorem Lives.inv (h : Lives w s) : Lives.Inv w s := by
  -- the other nodes of a step keep what they have
  have hu {s : World N} (ih : Lives.Inv w s) {n : N} {node : Node}
      (hno : node.Inv w s.sent n) (m : N) : (Function.update s.node n node m).Inv w s.sent m := by
    by_cases hm : m = n
    · subst hm
      rwa [Function.update_self]
    · rw [Function.update_of_ne hm]
      exact ih.node m
  induction h with
  | begin localAddr session capacity => exact ⟨nofun, fun n => Node.inv_fresh _ _ _⟩
  | @send s n bytes address io _ ih =>
    have hno : ((s.node n).send w n bytes address io).1.Inv w s.sent n := by
      have ho := ih.node n
      refine ⟨ho.inbound, ?_, ho.ids, ho.genuine, ho.returned, ho.current⟩
      rw [Node.send, Node.sendTo_inboundSessions]
      exact ho.tracked
    refine ⟨?_, fun m => (hu ih hno m).mono (List.subset_append_left _ _)⟩
    intro e he
    rcases List.mem_append.mp he with hb | hn
    · exact ih.sealed e hb
    · rcases hp : (s.node n).socket.prepare w.mac (w.ring n) bytes address with
        _ | ⟨sequence, envelope⟩ <;> simp only [Node.send, hp] at hn
      · cases hn
      · cases List.mem_singleton.mp hn
        obtain ⟨hl, peer, hpe, hen, -⟩ :=
          sealDatagram_eq_some (SecureDatagramSocket.prepare_eq_ok hp)
        exact ⟨hl, peer, hpe, hen⟩
  | arrive n source packet _ hun ih =>
    exact ⟨ih.sealed, hu ih ((ih.node n).hear hun ih.sealed)⟩
  | rebind n localAddr session capacity _ ih =>
    have ho := ih.node n
    exact ⟨ih.sealed, hu ih
      ⟨ho.inbound, remembers_empty, ho.ids, ho.genuine, ho.returned, List.nil_sublist _⟩⟩
  | restart n localAddr session capacity _ ih =>
    exact ⟨ih.sealed, hu ih (Node.inv_fresh _ _ _)⟩

end Inv

/-! ## Two nodes -/

section Pair

variable {N : Type} [DecidableEq N] {w : Backups N} {s : World N} {a b : N} {key : Bytes}

/-- What the node `a` has returned as coming from `b`. -/
def World.returnedFrom (w : Backups N) (s : World N) (a b : N) : List AuthenticatedDatagram :=
  (s.node a).returned.filter fun d => d.peerIdentity = (w.ring b).localIdentity

omit [DecidableEq N] in
theorem World.mem_returnedFrom {d : AuthenticatedDatagram} : d ∈ s.returnedFrom w a b ↔
    d ∈ (s.node a).returned ∧ d.peerIdentity = (w.ring b).localIdentity := by
  rw [World.returnedFrom, List.mem_filter, decide_eq_true_eq]

/-- **What `a` has returned from `b` was sent to it by `b`**, in this order, and no datagram of it
twice. -/
structure Authentic (w : Backups N) (s : World N) (a b : N) : Prop where
  sent : ∀ d ∈ s.returnedFrom w a b, ∃ e ∈ s.sent, e.sender = b ∧
    e.address = (w.ring a).localEndpoint ∧ e.stamp = d.stamp ∧ e.payload = d.payload
  ordered : (s.returnedFrom w a b).Pairwise fun d d' => d.stamp.Before d'.stamp
  once : ∀ stamp, ((s.returnedFrom w a b).filter fun d => d.stamp = stamp).length ≤ 1

/-- The datagram that `b` seals for `a`. -/
def sealedFor (w : Backups N) (a b : N) (stamp : Stamp) (payload : Bytes) : Option Bytes :=
  sealDatagram w.mac (w.ring b) (w.ring a).localIdentity (w.ring a).localEndpoint
    (w.ring b).localIdentity (w.ring b).localEndpoint stamp payload

/-- The stamp is later than those of all datagrams of `b` that have arrived at `a`. -/
def InOrder (w : Backups N) (s : World N) (a b : N) (stamp : Stamp) : Prop :=
  ∀ d ∈ (s.node a).arrived, d.peerIdentity = (w.ring b).localIdentity → d.stamp.Before stamp

/-- The packet is returned when it arrives from `b`, with its payload and stamp. -/
def Opens (w : Backups N) (s : World N) (a b : N) (packet : Bytes) (stamp : Stamp)
    (payload : Bytes) : Prop :=
  ∃ d, ((s.node a).socket.receive w.mac (w.ring a) (s.node a).inbound (w.ring b).localEndpoint
      packet).1 = some (d, true) ∧
    d.peerIdentity = (w.ring b).localIdentity ∧ d.source = (w.ring b).localEndpoint ∧
      d.stamp = stamp ∧ d.payload = payload

/-- **What the pair promises**: what is returned is authentic, and every sealed datagram that
arrives in order is returned. -/
def Promise (w : Backups N) (s : World N) (a b : N) : Prop :=
  Authentic w s a b ∧ ∀ stamp payload packet, sealedFor w a b stamp payload = some packet →
    InOrder w s a b stamp → Opens w s a b packet stamp payload

/-- The address has no flow and no scope. -/
def SocketAddr.IsPlain : SocketAddr → Prop
  | v4 _ _ => True
  | v6 _ _ flowinfo scopeId => flowinfo = 0 ∧ scopeId = 0

theorem SocketAddr.plain_eq_iff (address : SocketAddr) : address.plain = address ↔
    address.IsPlain := by
  cases address with
  | v4 ip port => exact ⟨fun _ => trivial, fun _ => rfl⟩
  | v6 ip port flowinfo scopeId =>
    simp [plain, new, IsPlain, SocketAddr.ip, SocketAddr.port, eq_comm]

/-- The socket has room for a datagram of this peer: it knows the sixteen bytes of the address or
has a free place, and no other peer with these bytes has been heard later. -/
def Room (node : Node) (identity : IpAddr) (stamp : Stamp) : Prop :=
  (peerId identity ∉ node.current.map (·.peerId) →
      (node.current.map (·.peerId)).toFinset.card < node.socket.inboundSessions.capacity) ∧
    ∀ d ∈ node.current, d.peerIdentity ≠ identity →
      canonicalIp d.peerIdentity = canonicalIp identity → d.stamp.Before stamp

theorem peerId_injective_iff {identity identity' : IpAddr} :
    peerId identity = peerId identity' ↔ canonicalIp identity = canonicalIp identity' := by
  constructor
  · intro h
    exact List.append_cancel_right h
  · intro h
    rw [peerId, h, peerId]

theorem Lives.authentic (h : Lives w s) (hm : w.Mutual a b key) : Authentic w s a b := by
  have hn := h.inv.node a
  have ho : (s.returnedFrom w a b).Pairwise fun d d' => d.stamp.Before d'.stamp := by
    have ha : (s.node a).returned.Pairwise fun d d' =>
        d.peerIdentity = d'.peerIdentity → d.stamp.Before d'.stamp :=
      (List.pairwise_map.mp hn.inbound.ordered).sublist hn.returned
    refine (ha.sublist List.filter_sublist).imp_of_mem fun hd hd' hb => ?_
    exact hb ((World.mem_returnedFrom.mp hd).2.trans (World.mem_returnedFrom.mp hd').2.symm)
  refine ⟨?_, ho, ?_⟩
  · intro d hd
    obtain ⟨hr, hf⟩ := World.mem_returnedFrom.mp hd
    obtain ⟨e, he, hg⟩ := hn.genuine d (hn.returned.subset hr)
    have hs : e.sender = b := w.distinct (hg.sender.symm.trans hf)
    obtain ⟨-, peer, hp, hen⟩ := h.inv.sealed e he
    rw [hs, hg.identity, hm.right] at hp
    cases hp
    exact ⟨e, he, hs, hen.symm, hg.stamp.symm, hg.payload.symm⟩
  · intro stamp
    generalize ht : (s.returnedFrom w a b).filter (fun d => d.stamp = stamp) = twice
    have hst : ∀ d ∈ twice, d.stamp = stamp := by
      intro d hd
      rw [← ht, List.mem_filter, decide_eq_true_eq] at hd
      exact hd.2
    have hpa : twice.Pairwise fun d d' => d.stamp.Before d'.stamp :=
      ht ▸ ho.sublist List.filter_sublist
    rcases twice with _ | ⟨d, _ | ⟨d', rest⟩⟩
    · exact Nat.zero_le _
    · exact le_rfl
    · -- two of them would have one stamp, and one be before the other
      have hb := List.rel_of_pairwise_cons hpa List.mem_cons_self
      rw [hst d List.mem_cons_self,
        hst d' (List.mem_cons_of_mem _ List.mem_cons_self)] at hb
      exact absurd hb (Stamp.not_before_self stamp)

/-- **When a datagram in order is returned**: its two addresses have no flow and no scope, and the
socket has room for its peer. -/
theorem Lives.opens_iff (h : Lives w s) (hmu : w.Mutual a b key) {stamp : Stamp}
    {payload packet : Bytes} (hse : sealedFor w a b stamp payload = some packet)
    (ho : InOrder w s a b stamp) :
    Opens w s a b packet stamp payload ↔
      (w.ring a).localEndpoint.IsPlain ∧ (w.ring b).localEndpoint.IsPlain ∧
        Room (s.node a) (w.ring b).localIdentity stamp := by
  have hn := h.inv.node a
  obtain ⟨hle, peer, hpe, -, hpa⟩ := sealDatagram_eq_some hse
  rw [hmu.right] at hpe
  cases hpe
  have hau : authenticate w.mac (w.ring a) (s.node a).inbound (w.ring b).localEndpoint packet =
      checkSigned w.mac (w.ring a) (s.node a).inbound (w.ring b).localEndpoint
        ⟨(w.ring b).localIdentity, (w.ring b).localEndpoint.plain, (w.ring a).localIdentity,
          (w.ring a).localEndpoint.plain, stamp, payload.length⟩
        (signedBytes (w.ring b).localIdentity (w.ring b).localEndpoint (w.ring a).localIdentity
          (w.ring a).localEndpoint stamp payload) payload
        (w.mac.tag key (signedBytes (w.ring b).localIdentity (w.ring b).localEndpoint
          (w.ring a).localIdentity (w.ring a).localEndpoint stamp payload)) := by
    rw [hpa]
    exact authenticate_signed _ _ _ _ hle (w.mac.length_tag _ _)
  have hf : ∀ old, (s.node a).inbound.lookup (w.ring b).localIdentity = some old →
      old.Before stamp := by
    rw [hn.inbound.fresh_iff]
    intro old hol
    obtain ⟨d, hd, heq⟩ := List.mem_map.mp hol
    obtain ⟨hfr, rfl⟩ := Prod.mk.inj heq
    exact ho d hd hfr
  -- the memory of the socket against the list of what it has returned
  have hro : ((peerId (w.ring b).localIdentity ∉ (s.node a).socket.inboundSessions.current →
        (s.node a).socket.inboundSessions.current.keys.card <
          (s.node a).socket.inboundSessions.capacity) ∧
      ∀ old, (s.node a).socket.inboundSessions.current.lookup (peerId (w.ring b).localIdentity) =
        some old → old.Before stamp) ↔ Room (s.node a) (w.ring b).localIdentity stamp := by
    rw [hn.tracked.fresh_iff, ← Finmap.mem_keys, hn.tracked.keys, List.mem_toFinset,
      List.map_map, Room]
    refine and_congr Iff.rfl ?_
    constructor
    · intro hl d hd _ hc
      have hid := hn.ids d (hn.returned.subset (hn.current.subset hd))
      exact hl d.stamp (List.mem_map.mpr ⟨d, hd, by
        rw [hid, peerId_injective_iff.mpr hc]⟩)
    · intro hl old hol
      obtain ⟨d, hd, heq⟩ := List.mem_map.mp hol
      obtain ⟨hpi, rfl⟩ := Prod.mk.inj heq
      have har := hn.returned.subset (hn.current.subset hd)
      by_cases hs : d.peerIdentity = (w.ring b).localIdentity
      · exact ho d har hs
      · have hc := peerId_injective_iff.mp ((hn.ids d har).symm.trans hpi)
        exact hl d hd hs hc
  rw [← hro, Opens, SecureDatagramSocket.receive]
  constructor
  · rintro ⟨d, hr, -⟩
    rcases hru : authenticate w.mac (w.ring a) (s.node a).inbound (w.ring b).localEndpoint packet
      with _ | ⟨d', inbound⟩ <;> rw [hru] at hr
    · cases hr
    obtain ⟨_, -, hm, -, -, rfl, -⟩ := checkSigned_eq_some_iff.mp (hau.symm.trans hru)
    rcases hac : (s.node a).socket.inboundSessions.accept
        ⟨peerId (w.ring b).localIdentity, (w.ring b).localIdentity, stamp,
          (w.ring b).localEndpoint, payload⟩ (w.ring b).localEndpoint with _ | tracker <;>
      simp only [hac] at hr
    · cases hr
    · obtain ⟨hp, hl, -⟩ :=
        (SessionTracker.accept_eq_some_iff rfl (w.bound b) rfl).mp hac
      exact ⟨(SocketAddr.plain_eq_iff _).mp hm.destination,
        (SocketAddr.plain_eq_iff _).mp hm.enclosed, hp, hl⟩
  · rintro ⟨ha, hb, hp, hl⟩
    have hm : Header.Matches ⟨(w.ring b).localIdentity, (w.ring b).localEndpoint.plain,
        (w.ring a).localIdentity, (w.ring a).localEndpoint.plain, stamp, payload.length⟩
        (w.ring a) (w.ring b).localEndpoint
        ⟨(w.ring b).localIdentity, (w.ring b).localEndpoint, key⟩ :=
      ⟨w.bound b, (SocketAddr.plain_eq_iff _).mpr hb, rfl, rfl, (SocketAddr.plain_eq_iff _).mpr ha⟩
    have hru := hau.trans
      (checkSigned_eq_some_iff.mpr ⟨_, hmu.left, hm, rfl, hf, rfl, rfl⟩)
    have hac : (s.node a).socket.inboundSessions.accept ⟨peerId (w.ring b).localIdentity,
        (w.ring b).localIdentity, stamp, (w.ring b).localEndpoint, payload⟩
        (w.ring b).localEndpoint = some _ :=
      (SessionTracker.accept_eq_some_iff rfl (w.bound b) rfl).mpr ⟨hp, hl, rfl⟩
    rw [hru]
    simp only [hac]
    exact ⟨_, rfl, rfl, rfl, rfl, rfl⟩

/-- **What the pair keeps of its promise**: what is returned is authentic, in every run; and a
sealed datagram that arrives in order is returned if and only if the two addresses have no flow and
no scope and the socket has room for the peer. -/
theorem Lives.genuine_and_opens_iff (h : Lives w s) (hmutual : w.Mutual a b key) :
    Authentic w s a b ∧
      ∀ stamp payload packet, sealedFor w a b stamp payload = some packet →
        InOrder w s a b stamp →
          (Opens w s a b packet stamp payload ↔
            (w.ring a).localEndpoint.IsPlain ∧ (w.ring b).localEndpoint.IsPlain ∧
              Room (s.node a) (w.ring b).localIdentity stamp) :=
  ⟨h.authentic hmutual, fun _ _ _ hsealed horder => h.opens_iff hmutual hsealed horder⟩

end Pair

/-! ## Two sample nodes -/

namespace SampleBackups

/-- A tag of 32 bytes of the key and the message. -/
def mac : Mac where
  tag key message := List.replicate 32 ((key ++ message).foldl (fun sum b => sum * 31 + b) 7)
  length_tag _ _ := List.length_replicate

/-- Two nodes at two addresses, with one key. -/
def backups (endpoint : Bool → SocketAddr) (h : (endpoint false).ip ≠ (endpoint true).ip) :
    Backups Bool where
  mac := mac
  ring n := ⟨(endpoint n).ip, endpoint n,
    (∅ : FMap IpAddr BackupPeerKey).insert (endpoint !n).ip
      ⟨(endpoint !n).ip, endpoint !n, [1, 2, 3]⟩⟩
  distinct := by
    rintro (_ | _) (_ | _) heq
    · rfl
    · exact absurd heq h
    · exact absurd heq.symm h
    · rfl
  bound _ := rfl

theorem eachOther (endpoint : Bool → SocketAddr) (h : (endpoint false).ip ≠ (endpoint true).ip) :
    (backups endpoint h).Mutual false true [1, 2, 3] :=
  ⟨Finmap.lookup_insert _, Finmap.lookup_insert _⟩

/-- Both nodes before any datagram, in session 1. -/
def start (endpoint : Bool → SocketAddr) : World Bool :=
  ⟨fun n => .fresh (endpoint n) 1 4096, []⟩

/-- Two addresses of IPv4. -/
def endpointV4 (n : Bool) : SocketAddr := .v4 ⟨10, 0, 0, if n then 2 else 1⟩ 10001

def backupsV4 : Backups Bool := backups endpointV4 (by decide)

/-- What the second node sends to the first. -/
def packetV4 : Bytes := (sealedFor backupsV4 false true ⟨1, 1⟩ [7, 8]).getD []

/-- Once the second node has sent, and the first has heard it. -/
def heardV4 : World Bool :=
  let sent : World Bool :=
    ⟨Function.update (start endpointV4).node true
      (((start endpointV4).node true).send backupsV4 true [7, 8] (endpointV4 false) (.ok ())).1,
      (((start endpointV4).node true).send backupsV4 true [7, 8] (endpointV4 false) (.ok ())).2⟩
  ⟨Function.update sent.node false
    ((sent.node false).hear backupsV4 false (endpointV4 true) packetV4), sent.sent⟩

theorem lives_heardV4 : Lives backupsV4 heardV4 := by
  have hs : sealedFor backupsV4 false true ⟨1, 1⟩ [7, 8] = some packetV4 := by decide +kernel
  obtain ⟨-, peer, -, -, hp⟩ := sealDatagram_eq_some hs
  refine .arrive false (endpointV4 true) packetV4
    (.send true [7, 8] (endpointV4 false) (.ok ())
      (.begin endpointV4 (fun _ => 1) fun _ => 4096)) ?_
  intro n identity peer' signed _ hf
  -- the last 32 bytes are the tag, so the rest is what the node has sealed
  have heq : signed = _ := (List.append_inj' (hf.symm.trans hp)
    ((mac.length_tag _ _).trans (mac.length_tag _ _).symm)).1
  exact ⟨⟨true, endpointV4 false, ⟨1, 1⟩, [7, 8]⟩, List.mem_singleton_self _, heq.symm⟩

/-- The datagram is returned, and so would be the next one. -/
theorem genuine_and_opens_sample :
    (heardV4.returnedFrom backupsV4 false true).map (·.payload) = [[7, 8]] ∧
      Authentic backupsV4 heardV4 false true ∧
      ∀ packet, sealedFor backupsV4 false true ⟨1, 2⟩ [9] = some packet →
        Opens backupsV4 heardV4 false true packet ⟨1, 2⟩ [9] := by
  obtain ⟨hauthentic, hopens⟩ :=
    lives_heardV4.genuine_and_opens_iff (eachOther endpointV4 (by decide))
  refine ⟨by decide +kernel, hauthentic, fun packet hsealed => ?_⟩
  have harrived : ∀ d ∈ (heardV4.node false).arrived, d.stamp = ⟨1, 1⟩ := by decide +kernel
  have hcurrent : ∀ d ∈ (heardV4.node false).current, d.stamp = ⟨1, 1⟩ := by decide +kernel
  refine (hopens ⟨1, 2⟩ [9] packet hsealed fun d hd _ => ?_).mpr
    ⟨trivial, trivial, fun h => absurd ?_ h, fun d hd _ _ => ?_⟩
  · rw [harrived d hd]
    decide
  · decide +kernel
  · rw [hcurrent d hd]
    decide

/-- Two addresses of IPv6, with the scope of a link. -/
def endpointV6 (n : Bool) : SocketAddr :=
  .v6 ⟨[254, 128, 0, 0, 0, 0, 0, 0, 0, 0, 0, 0, 0, 0, 0, if n then 2 else 1], by simp⟩ 10001 0 2

def backupsV6 : Backups Bool := backups endpointV6 (by decide)

/-- The first datagram between two addresses with a scope is sealed, and not returned. -/
theorem promise_fails : ¬ ∀ (N : Type) [DecidableEq N] (w : Backups N) (s : World N) (a b : N)
    (key : Bytes), w.Mutual a b key → Lives w s → Promise w s a b := by
  intro h
  have hlives : Lives backupsV6 (start endpointV6) := .begin endpointV6 (fun _ => 1) fun _ => 4096
  have hpromise := (h Bool backupsV6 (start endpointV6) false true _
    (eachOther endpointV6 (by decide)) hlives).2 ⟨1, 1⟩ [7, 8]
    ((sealedFor backupsV6 false true ⟨1, 1⟩ [7, 8]).getD []) (by decide +kernel) nofun
  obtain ⟨d, hreceive, -⟩ := hpromise
  have hnone : (((start endpointV6).node false).socket.receive mac (backupsV6.ring false)
      ((start endpointV6).node false).inbound (endpointV6 true)
      ((sealedFor backupsV6 false true ⟨1, 1⟩ [7, 8]).getD [])).1 = none := by decide +kernel
  cases hnone.symm.trans hreceive

end SampleBackups

end RustTron.Network.Backup
