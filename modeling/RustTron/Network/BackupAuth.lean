import RustTron.Primitives.Bytes
import RustTron.Library.FMap
import Mathlib

/-!
# Authenticated datagrams

The backup nodes seal each datagram for one peer: a header names both ends, the session of the
sender and the number of the datagram in it, and a tag under the key of the pair covers the header
and the payload. The authenticator opens a datagram that names it, and remembers the last session
and number of each peer. The socket numbers what it sends, and has a second memory of its peers.

The tag function is a parameter. The text form of the keyring is left out.

## Main definitions

* `IpAddr`, `SocketAddr`: the addresses, a socket address of IPv6 with its flow and scope
* `sealDatagram`, `authenticate`: the two directions of the authenticator
* `SessionTracker.accept`: the memory of the socket
* `SecureDatagramSocket.prepare`, `sendTo`: what the socket sends

## Main results

* `parse_signed`: a header is read back, up to the flow and the scope of its addresses
* `authenticate_signed`: what the authenticator makes of a sealed datagram
* `exists_signed`: what it opens has the tag of a peer
-/

namespace RustTron.Network.Backup

/-! ## Numbers -/

/-- `to_be_bytes`, of an unsigned integer of so many bytes. -/
def toBe : Nat → Nat → Bytes
  | 0, _ => []
  | width + 1, n => UInt8.ofNat (n / 256 ^ width) :: toBe width n

/-- `from_be_bytes`. -/
def ofBe (bytes : Bytes) : Nat := bytes.foldl (fun n b => n * 256 + b.toNat) 0

@[simp] theorem length_toBe (width n : Nat) : (toBe width n).length = width := by
  induction width with
  | zero => rfl
  | succ width ih => rw [toBe, List.length_cons, ih]

theorem foldl_toBe (width n start : Nat) :
    (toBe width n).foldl (fun n b => n * 256 + b.toNat) start =
      start * 256 ^ width + n % 256 ^ width := by
  induction width generalizing start with
  | zero => simp [toBe, Nat.mod_one]
  | succ width ih =>
    have hs : n % 256 ^ (width + 1) = n % 256 ^ width + 256 ^ width * (n / 256 ^ width % 256) :=
      Nat.mod_pow_succ
    have hd : (UInt8.ofNat (n / 256 ^ width)).toNat = n / 256 ^ width % 256 :=
      UInt8.toNat_ofNat'
    rw [toBe, List.foldl_cons, ih, hd, hs, Nat.pow_succ]
    ring

theorem ofBe_toBe {width n : Nat} (h : n < 256 ^ width) : ofBe (toBe width n) = n := by
  rw [ofBe, foldl_toBe, Nat.zero_mul, Nat.zero_add, Nat.mod_eq_of_lt h]

/-! ## Addresses -/

structure Ipv4Addr where
  a : UInt8
  b : UInt8
  c : UInt8
  d : UInt8
  deriving DecidableEq

abbrev Ipv6Addr := { bytes : Bytes // bytes.length = 16 }

inductive IpAddr where
  | v4 (ip : Ipv4Addr)
  | v6 (ip : Ipv6Addr)
  deriving DecidableEq

inductive SocketAddr where
  | v4 (ip : Ipv4Addr) (port : UInt16)
  | v6 (ip : Ipv6Addr) (port : UInt16) (flowinfo scopeId : UInt32)
  deriving DecidableEq

namespace SocketAddr

def new : IpAddr → UInt16 → SocketAddr
  | .v4 ip, port => v4 ip port
  | .v6 ip, port => v6 ip port 0 0

def ip : SocketAddr → IpAddr
  | v4 ip _ => .v4 ip
  | v6 ip _ _ _ => .v6 ip

def port : SocketAddr → UInt16
  | v4 _ port => port
  | v6 _ port _ _ => port

/-- The address without flow and scope. -/
def plain (address : SocketAddr) : SocketAddr := new address.ip address.port

end SocketAddr

/-- The first twelve bytes of an IPv4 address in the form of IPv6. -/
def mapped : Bytes := List.replicate 10 0 ++ [0xff, 0xff]

def canonicalIp : IpAddr → Bytes
  | .v4 ip => mapped ++ [ip.a, ip.b, ip.c, ip.d]
  | .v6 ip => ip.val

@[simp] theorem length_canonicalIp (ip : IpAddr) : (canonicalIp ip).length = 16 := by
  cases ip with
  | v4 ip => rfl
  | v6 ip => exact ip.property

def putIp (ip : IpAddr) : Bytes :=
  (match ip with
    | .v4 _ => 4
    | .v6 _ => 6) :: canonicalIp ip

def putSocket (socket : SocketAddr) : Bytes := putIp socket.ip ++ toBe 2 socket.port.toNat

/-! ## Reading -/

/-- `packet.get(offset..offset + count)`, and what follows. -/
def takeBytes (count : Nat) (rest : Bytes) : Option (Bytes × Bytes) :=
  if count ≤ rest.length then some (rest.take count, rest.drop count) else none

theorem takeBytes_append {front rest : Bytes} {count : Nat} (h : front.length = count) :
    takeBytes count (front ++ rest) = some (front, rest) := by
  subst h
  simp [takeBytes]

def takeIp : Bytes → Option (IpAddr × Bytes)
  | [] => none
  | family :: rest =>
    match takeBytes 16 rest with
    | none => none
    | some (bytes, rest) =>
      if family = 4 ∧ bytes.take 12 = mapped then
        match bytes.drop 12 with
        | [a, b, c, d] => some (.v4 ⟨a, b, c, d⟩, rest)
        | _ => none
      else if h : family = 6 ∧ bytes.length = 16 then some (.v6 ⟨bytes, h.2⟩, rest)
      else none

def takeU16 (rest : Bytes) : Option (UInt16 × Bytes) :=
  (takeBytes 2 rest).map fun (bytes, rest) => (UInt16.ofNat (ofBe bytes), rest)

def takeU64 (rest : Bytes) : Option (UInt64 × Bytes) :=
  (takeBytes 8 rest).map fun (bytes, rest) => (UInt64.ofNat (ofBe bytes), rest)

def takeSocket (rest : Bytes) : Option (SocketAddr × Bytes) := do
  let (ip, rest) ← takeIp rest
  let (port, rest) ← takeU16 rest
  pure (.new ip port, rest)

theorem takeIp_putIp (ip : IpAddr) (rest : Bytes) :
    takeIp (putIp ip ++ rest) = some (ip, rest) := by
  cases ip with
  | v4 ip =>
    rw [putIp, List.cons_append, takeIp, takeBytes_append (length_canonicalIp _)]
    rfl
  | v6 ip =>
    rw [putIp, List.cons_append, takeIp, takeBytes_append (length_canonicalIp _)]
    simp [canonicalIp, ip.property]

theorem takeU16_toBe (x : UInt16) (rest : Bytes) :
    takeU16 (toBe 2 x.toNat ++ rest) = some (x, rest) := by
  have hf : x.toNat < 256 ^ 2 := x.toNat_lt
  rw [takeU16, takeBytes_append (length_toBe _ _), Option.map_some]
  simp only [ofBe_toBe hf, UInt16.ofNat_toNat]

theorem takeU64_toBe (x : UInt64) (rest : Bytes) :
    takeU64 (toBe 8 x.toNat ++ rest) = some (x, rest) := by
  have hf : x.toNat < 256 ^ 8 := x.toNat_lt
  rw [takeU64, takeBytes_append (length_toBe _ _), Option.map_some]
  simp only [ofBe_toBe hf, UInt64.ofNat_toNat]

theorem takeSocket_putSocket (socket : SocketAddr) (rest : Bytes) :
    takeSocket (putSocket socket ++ rest) = some (socket.plain, rest) := by
  simp [takeSocket, putSocket, takeIp_putIp, takeU16_toBe, SocketAddr.plain]

/-! ## The keyring -/

/-- `HmacSha256`: a tag of `TAG_LEN` bytes for a key and a message. -/
structure Mac where
  tag : Bytes → Bytes → Bytes
  length_tag : ∀ key message, (tag key message).length = 32

structure BackupPeerKey where
  identity : IpAddr
  endpoint : SocketAddr
  key : Bytes

structure BackupPeerKeyring where
  localIdentity : IpAddr
  localEndpoint : SocketAddr
  peers : FMap IpAddr BackupPeerKey

/-! ## Datagrams -/

/-- A session and the number of a datagram in it. -/
structure Stamp where
  session : UInt64
  sequence : UInt64
  deriving DecidableEq

/-- The stamp comes before the other: in an older session, or under a smaller number. -/
def Stamp.Before (old new : Stamp) : Prop :=
  old.session < new.session ∨ old.session = new.session ∧ old.sequence < new.sequence

instance (old new : Stamp) : Decidable (old.Before new) := inferInstanceAs (Decidable (_ ∨ _))

theorem Stamp.Before.trans {a b c : Stamp} (h : a.Before b) (h' : b.Before c) : a.Before c := by
  rcases h with h | ⟨heq, h⟩ <;> rcases h' with h' | ⟨he', h'⟩
  · exact .inl (UInt64.lt_trans h h')
  · exact .inl (he' ▸ h)
  · exact .inl (heq ▸ h')
  · exact .inr ⟨heq.trans he', UInt64.lt_trans h h'⟩

theorem Stamp.not_before_self (a : Stamp) : ¬ a.Before a := by
  rintro (h | ⟨-, h⟩) <;> exact UInt64.lt_irrefl _ h

/-- The check of both memories: an older session, or the same with no larger number. -/
def Stamp.stale (old new : Stamp) : Bool :=
  new.session < old.session || (new.session = old.session && new.sequence ≤ old.sequence)

theorem Stamp.stale_eq_false_iff {old new : Stamp} : old.stale new = false ↔ old.Before new := by
  simp only [stale, Before, Bool.or_eq_false_iff, decide_eq_false_iff_not, Bool.and_eq_false_iff,
    UInt64.lt_iff_toNat_lt, UInt64.le_iff_toNat_le, ← UInt64.toNat_inj]
  omega

structure AuthenticatedDatagram where
  peerId : Bytes
  peerIdentity : IpAddr
  stamp : Stamp
  source : SocketAddr
  payload : Bytes
  deriving DecidableEq

def backupAuthMagic : Bytes := [84, 66, 65, 49]

def backupAuthVersion : UInt8 := 1

def backupAuthMaxPayload : Nat := 2048

def tagLen : Nat := 32

def headerLen : Nat := 4 + 1 + 1 + 16 + 2 + 1 + 16 + 2 + 1 + 16 + 1 + 16 + 8 + 8 + 2

/-- The fields of a header after the version. -/
structure Header where
  sourceIdentity : IpAddr
  source : SocketAddr
  destinationIdentity : IpAddr
  destination : SocketAddr
  stamp : Stamp
  payloadLen : Nat
  deriving DecidableEq

/-- The fields at the front, and what follows them. -/
def Header.parse (rest : Bytes) : Option (Header × Bytes) := do
  let (sourceIdentity, rest) ← takeIp rest
  let (enclosedSource, rest) ← takeSocket rest
  let (destinationIdentity, rest) ← takeIp rest
  let (destination, rest) ← takeSocket rest
  let (session, rest) ← takeU64 rest
  let (sequence, rest) ← takeU64 rest
  let (payloadLen, rest) ← takeU16 rest
  pure (⟨sourceIdentity, enclosedSource, destinationIdentity, destination, ⟨session, sequence⟩,
    payloadLen.toNat⟩, rest)

/-- The last stamp of each peer, by its identity. -/
abbrev Inbound := FMap IpAddr Stamp

/-- The peer id that the authenticator hands to the socket. -/
def peerId (identity : IpAddr) : Bytes := canonicalIp identity ++ List.replicate 48 0

/-- The second half of `authenticate`: the header against the keyring, the tag, and the stamp
against the last one of the peer. -/
def checkSigned (mac : Mac) (ring : BackupPeerKeyring) (inbound : Inbound) (source : SocketAddr)
    (header : Header) (signed payload tag : Bytes) : Option (AuthenticatedDatagram × Inbound) := do
  let peer ← ring.peers.lookup header.sourceIdentity
  if header.sourceIdentity ≠ source.ip ∨ header.source ≠ source ∨ peer.endpoint ≠ source ∨
      header.destinationIdentity ≠ ring.localIdentity ∨
      header.destination ≠ ring.localEndpoint then none
  else if tag ≠ mac.tag peer.key signed then none
  else if (inbound.lookup header.sourceIdentity).any (·.stale header.stamp) then none
  else some (⟨peerId header.sourceIdentity, header.sourceIdentity, header.stamp, source, payload⟩,
    inbound.insert header.sourceIdentity header.stamp)

def authenticate (mac : Mac) (ring : BackupPeerKeyring) (inbound : Inbound) (source : SocketAddr)
    (packet : Bytes) : Option (AuthenticatedDatagram × Inbound) :=
  if packet.length < headerLen + tagLen ∨ packet.take 4 ≠ backupAuthMagic ∨
      packet[4]? ≠ some backupAuthVersion then none
  else
    match Header.parse (packet.drop 5) with
    | none => none
    | some (header, rest) =>
      if backupAuthMaxPayload < header.payloadLen ∨ header.payloadLen + tagLen ≠ rest.length then
        none
      else
        let offset := packet.length - rest.length
        let signedLen := offset + header.payloadLen
        checkSigned mac ring inbound source header (packet.take signedLen)
          ((packet.take signedLen).drop offset) (packet.drop signedLen)

/-- What the tag covers. -/
def signedBytes (localIdentity : IpAddr) (source : SocketAddr) (destinationIdentity : IpAddr)
    (destination : SocketAddr) (stamp : Stamp) (payload : Bytes) : Bytes :=
  backupAuthMagic ++ [backupAuthVersion] ++ putIp localIdentity ++ putSocket source ++
    putIp destinationIdentity ++ putSocket destination ++ toBe 8 stamp.session.toNat ++
    toBe 8 stamp.sequence.toNat ++ toBe 2 payload.length ++ payload

/-- `seal`. -/
def sealDatagram (mac : Mac) (ring : BackupPeerKeyring) (destinationIdentity : IpAddr)
    (destination : SocketAddr) (localIdentity : IpAddr) (source : SocketAddr) (stamp : Stamp)
    (payload : Bytes) : Option Bytes :=
  if backupAuthMaxPayload < payload.length ∨ stamp.session = 0 ∨ stamp.sequence = 0 ∨
      localIdentity ≠ ring.localIdentity ∨ source ≠ ring.localEndpoint then none
  else
    match ring.peers.lookup destinationIdentity with
    | none => none
    | some peer =>
      if peer.endpoint ≠ destination ∨ destination.ip ≠ destinationIdentity then none
      else
        let out := signedBytes localIdentity source destinationIdentity destination stamp payload
        some (out ++ mac.tag peer.key out)

section Signed

variable {localIdentity destinationIdentity : IpAddr} {source destination : SocketAddr}
  {stamp : Stamp} {payload tag : Bytes}

@[simp] theorem length_putIp (ip : IpAddr) : (putIp ip).length = 17 := by
  rw [putIp.eq_def, List.length_cons, length_canonicalIp]

@[simp] theorem length_putSocket (socket : SocketAddr) : (putSocket socket).length = 19 := by
  rw [putSocket, List.length_append, length_putIp, length_toBe]

theorem length_signedBytes :
    (signedBytes localIdentity source destinationIdentity destination stamp payload).length =
      headerLen + payload.length := by
  simp only [signedBytes, headerLen, backupAuthMagic, List.length_append, length_putIp,
    length_putSocket, length_toBe, List.length_cons, List.length_nil]

theorem signedBytes_append :
    signedBytes localIdentity source destinationIdentity destination stamp payload ++ tag =
      (backupAuthMagic ++ [backupAuthVersion]) ++ (putIp localIdentity ++ (putSocket source ++
        (putIp destinationIdentity ++ (putSocket destination ++ (toBe 8 stamp.session.toNat ++
          (toBe 8 stamp.sequence.toNat ++ (toBe 2 payload.length ++ (payload ++ tag)))))))) := by
  simp only [signedBytes, List.append_assoc]

/-- **A header is read back**, up to the flow and the scope of its addresses. -/
theorem parse_signed (hp : payload.length ≤ backupAuthMaxPayload) :
    Header.parse ((signedBytes localIdentity source destinationIdentity destination stamp payload ++
        tag).drop 5) =
      some (⟨localIdentity, source.plain, destinationIdentity, destination.plain, stamp,
        payload.length⟩, payload ++ tag) := by
  have hf : payload.length < 2 ^ 16 := lt_of_le_of_lt hp (by decide)
  have hl : payload.length = (UInt16.ofNat payload.length).toNat := by
    rw [UInt16.toNat_ofNat', Nat.mod_eq_of_lt hf]
  have ht : takeU16 (toBe 2 payload.length ++ (payload ++ tag)) =
      some (UInt16.ofNat payload.length, payload ++ tag) := by
    conv_lhs => rw [hl]
    exact takeU16_toBe _ _
  rw [signedBytes_append, List.drop_left' (show (backupAuthMagic ++ [backupAuthVersion]).length = 5
    from rfl)]
  simp only [Header.parse, takeIp_putIp, takeSocket_putSocket, takeU64_toBe, ht,
    Option.bind_eq_bind, Option.bind_some, Option.pure_def, ← hl]

/-- **What the authenticator makes of a sealed datagram**: it goes by the header and the tag. -/
theorem authenticate_signed (mac : Mac) (ring : BackupPeerKeyring) (inbound : Inbound)
    (from' : SocketAddr) (hp : payload.length ≤ backupAuthMaxPayload)
    (ht : tag.length = tagLen) :
    authenticate mac ring inbound from'
        (signedBytes localIdentity source destinationIdentity destination stamp payload ++ tag) =
      checkSigned mac ring inbound from' ⟨localIdentity, source.plain, destinationIdentity,
          destination.plain, stamp, payload.length⟩
        (signedBytes localIdentity source destinationIdentity destination stamp payload)
        payload tag := by
  generalize hs : signedBytes localIdentity source destinationIdentity destination stamp
    payload = signed
  have hl : signed.length = headerLen + payload.length := hs ▸ length_signedBytes
  have hf : (signed ++ tag).take 4 = backupAuthMagic ∧
      (signed ++ tag)[4]? = some backupAuthVersion := by
    rw [← hs, signedBytes_append]
    exact ⟨rfl, rfl⟩
  have hd : signed.drop headerLen = payload := by
    rw [← hs]
    exact List.drop_left' (by simp [headerLen, backupAuthMagic])
  have hpa : Header.parse ((signed ++ tag).drop 5) = some (⟨localIdentity, source.plain,
      destinationIdentity, destination.plain, stamp, payload.length⟩, payload ++ tag) := by
    rw [← hs]
    exact parse_signed hp
  have hg : ¬ ((signed ++ tag).length < headerLen + tagLen ∨
      (signed ++ tag).take 4 ≠ backupAuthMagic ∨
        (signed ++ tag)[4]? ≠ some backupAuthVersion) := by
    rw [List.length_append, hl, ht]
    simp only [hf, ne_eq, not_true_eq_false, or_false, not_lt]
    omega
  have hsi : ¬ (backupAuthMaxPayload < payload.length ∨
      payload.length + tagLen ≠ (payload ++ tag).length) := by
    rw [List.length_append, ht]
    simp only [ne_eq, not_true_eq_false, or_false, not_lt]
    exact hp
  have ho : (signed ++ tag).length - (payload ++ tag).length = headerLen := by
    simp only [List.length_append, hl]
    omega
  rw [authenticate, if_neg hg, hpa]
  simp only [ho]
  rw [if_neg hsi, List.take_left' hl, List.drop_left' hl, hd]

end Signed

/-! ## What is admitted -/

section CheckSigned

variable {mac : Mac} {ring : BackupPeerKeyring} {inbound inbound' : Inbound}
  {source : SocketAddr} {header : Header} {signed payload tag packet : Bytes}
  {d : AuthenticatedDatagram}

/-- The header is that of a datagram from this address to the holder of the keyring. -/
structure Header.Matches (header : Header) (ring : BackupPeerKeyring) (source : SocketAddr)
    (peer : BackupPeerKey) : Prop where
  identity : header.sourceIdentity = source.ip
  enclosed : header.source = source
  endpoint : peer.endpoint = source
  destinationIdentity : header.destinationIdentity = ring.localIdentity
  destination : header.destination = ring.localEndpoint

/-- **What is admitted**: the datagram of a peer with the tag of its key, later than the last. -/
theorem checkSigned_eq_some_iff :
    checkSigned mac ring inbound source header signed payload tag = some (d, inbound') ↔
      ∃ peer, ring.peers.lookup header.sourceIdentity = some peer ∧
        header.Matches ring source peer ∧ tag = mac.tag peer.key signed ∧
        (∀ old, inbound.lookup header.sourceIdentity = some old → old.Before header.stamp) ∧
        d = ⟨peerId header.sourceIdentity, header.sourceIdentity, header.stamp, source, payload⟩ ∧
        inbound' = inbound.insert header.sourceIdentity header.stamp := by
  have hs : (inbound.lookup header.sourceIdentity).any (·.stale header.stamp) = false ↔
      ∀ old, inbound.lookup header.sourceIdentity = some old → old.Before header.stamp := by
    rcases inbound.lookup header.sourceIdentity with _ | old
    · simp
    · simp [Stamp.stale_eq_false_iff]
  rw [checkSigned]
  rcases ring.peers.lookup header.sourceIdentity with _ | peer
  · simp
  simp only [Option.bind_eq_bind, Option.bind_some, Option.some.injEq, exists_eq_left']
  constructor
  · intro h
    split at h
    · cases h
    rename_i hm
    simp only [not_or, ne_eq, not_not] at hm
    obtain ⟨h₁, h₂, h₃, h₄, h₅⟩ := hm
    split at h
    · cases h
    rename_i ht
    split at h
    · cases h
    rename_i hf
    cases h
    exact ⟨⟨h₁, h₂, h₃, h₄, h₅⟩, not_not.mp ht, hs.mp (Bool.eq_false_of_not_eq_true hf),
      rfl, rfl⟩
  · rintro ⟨hm, ht, hf, rfl, rfl⟩
    rw [if_neg, if_neg, if_neg]
    · rw [hs.mpr hf]
      exact Bool.false_ne_true
    · exact not_not.mpr ht
    · simp only [not_or, ne_eq, not_not]
      exact ⟨hm.identity, hm.enclosed, hm.endpoint, hm.destinationIdentity,
        hm.destination⟩

/-- **What is opened has the tag of a peer**, of some length of it. -/
theorem exists_signed (h : authenticate mac ring inbound source packet = some (d, inbound')) :
    ∃ identity peer signed, ring.peers.lookup identity = some peer ∧
      packet = signed ++ mac.tag peer.key signed := by
  rw [authenticate] at h
  split at h
  · cases h
  split at h
  · cases h
  rename_i header rest hpa
  split at h
  · cases h
  obtain ⟨peer, hp, -, ht, -⟩ := checkSigned_eq_some_iff.mp h
  exact ⟨_, peer, _, hp, by rw [← ht, List.take_append_drop]⟩

end CheckSigned

/-! ## The socket -/

structure SessionTracker where
  current : FMap Bytes Stamp
  capacity : Nat

namespace SessionTracker

def new (capacity : Nat) : SessionTracker := ⟨∅, max capacity 1⟩

/-- `SessionTracker::accept`; `none` where it answers false, and nothing changes. -/
def accept (tracker : SessionTracker) (datagram : AuthenticatedDatagram)
    (receivedFrom : SocketAddr) : Option SessionTracker :=
  if datagram.source ≠ receivedFrom ∨ datagram.peerIdentity ≠ receivedFrom.ip ∨
      datagram.peerId.length ≠ 64 then none
  else
    let tracked := { tracker with current := tracker.current.insert datagram.peerId datagram.stamp }
    match tracker.current.lookup datagram.peerId with
    | none => if tracker.capacity ≤ tracker.current.keys.card then none else some tracked
    | some old => if old.stale datagram.stamp then none else some tracked

end SessionTracker

structure OutboundSessions where
  session : UInt64
  sequences : FMap SocketAddr UInt64
  capacity : Nat

/-- `SecureDatagramSocket`, with the address it is bound to. -/
structure SecureDatagramSocket where
  localAddr : SocketAddr
  inboundSessions : SessionTracker
  outbound : OutboundSessions

namespace SecureDatagramSocket

def withSessionAndCapacity (localAddr : SocketAddr) (session : UInt64) (capacity : Nat) :
    SecureDatagramSocket where
  localAddr := localAddr
  inboundSessions := .new capacity
  outbound := ⟨if session = 0 then 1 else session, ∅, max capacity 1⟩

/-- The number and the envelope of the next datagram to an address: `send_to` before it sends. -/
def prepare (mac : Mac) (ring : BackupPeerKeyring) (socket : SecureDatagramSocket)
    (bytes : Bytes) (address : SocketAddr) : Except String (UInt64 × Bytes) :=
  let outbound := socket.outbound
  if address ∉ outbound.sequences ∧ outbound.capacity ≤ outbound.sequences.keys.card then
    .error "secure outbound peer capacity exhausted"
  else
    let last := (outbound.sequences.lookup address).getD 0
    if last.toNat + 1 = 2 ^ 64 then .error "secure outbound sequence exhausted"
    else
      match sealDatagram mac ring address.ip address socket.localAddr.ip socket.localAddr
          ⟨outbound.session, last + 1⟩ bytes with
      | none => .error "secure datagram destination is not authenticated"
      | some envelope => .ok (last + 1, envelope)

/-- `send_to`, where `io` is what the socket of the system answers. The number is used up only
once the envelope has been sent. -/
def sendTo (mac : Mac) (ring : BackupPeerKeyring) (socket : SecureDatagramSocket) (bytes : Bytes)
    (address : SocketAddr) (io : Except String Unit) : Except String Nat × SecureDatagramSocket :=
  match socket.prepare mac ring bytes address with
  | .error e => (.error e, socket)
  | .ok (sequence, _) =>
    match io with
    | .error e => (.error e, socket)
    | .ok () => (.ok bytes.length, { socket with
        outbound.sequences := socket.outbound.sequences.insert address sequence })

/-- One turn of the loop of `recv_datagram`: what is opened, and whether it is returned. -/
def receive (mac : Mac) (ring : BackupPeerKeyring) (inbound : Inbound)
    (socket : SecureDatagramSocket) (source : SocketAddr) (packet : Bytes) :
    Option (AuthenticatedDatagram × Bool) × Inbound × SecureDatagramSocket :=
  match authenticate mac ring inbound source packet with
  | none => (none, inbound, socket)
  | some (datagram, inbound) =>
    match socket.inboundSessions.accept datagram source with
    | none => (some (datagram, false), inbound, socket)
    | some tracker => (some (datagram, true), inbound, { socket with inboundSessions := tracker })

/-- **What the socket seals**: a datagram of its own node for a peer of the keyring. -/
theorem prepare_eq_ok {mac : Mac} {ring : BackupPeerKeyring} {socket : SecureDatagramSocket}
    {bytes envelope : Bytes} {address : SocketAddr} {sequence : UInt64}
    (h : socket.prepare mac ring bytes address = .ok (sequence, envelope)) :
    sealDatagram mac ring address.ip address ring.localIdentity ring.localEndpoint
      ⟨socket.outbound.session, sequence⟩ bytes = some envelope := by
  simp only [prepare] at h
  split at h
  · cases h
  split at h
  · cases h
  split at h
  · cases h
  rename_i hs
  cases h
  -- the tag covers the address of the socket, which is that of the keyring
  have hl := hs
  rw [sealDatagram] at hl
  split at hl
  · cases hl
  rename_i hg
  simp only [not_or, ne_eq, not_not] at hg
  rw [← hg.2.2.2.1, ← hg.2.2.2.2]
  exact hs

end SecureDatagramSocket

/-- **What is sealed**: the signed bytes and the tag of the key of the destination. -/
theorem sealDatagram_eq_some {mac : Mac} {ring : BackupPeerKeyring}
    {destinationIdentity localIdentity : IpAddr} {destination source : SocketAddr} {stamp : Stamp}
    {payload packet : Bytes} (h : sealDatagram mac ring destinationIdentity destination
      localIdentity source stamp payload = some packet) :
    payload.length ≤ backupAuthMaxPayload ∧
      ∃ peer, ring.peers.lookup destinationIdentity = some peer ∧ peer.endpoint = destination ∧
        packet = signedBytes localIdentity source destinationIdentity destination stamp payload ++
          mac.tag peer.key
            (signedBytes localIdentity source destinationIdentity destination stamp payload) := by
  rw [sealDatagram] at h
  split at h
  · cases h
  rename_i hg
  split at h
  · cases h
  rename_i peer hp
  split at h
  · cases h
  rename_i hd
  simp only [not_or, ne_eq, not_not, not_lt] at hg hd
  cases h
  exact ⟨hg.1, peer, hp, hd.1, rfl⟩

/-- **What the socket takes**: a peer it knows or has room for, and a later stamp. -/
theorem SessionTracker.accept_eq_some_iff {tracker tracker' : SessionTracker}
    {d : AuthenticatedDatagram} {receivedFrom : SocketAddr} (hso : d.source = receivedFrom)
    (hi : d.peerIdentity = receivedFrom.ip) (hid : d.peerId = peerId d.peerIdentity) :
    tracker.accept d receivedFrom = some tracker' ↔
      (d.peerId ∉ tracker.current → tracker.current.keys.card < tracker.capacity) ∧
        (∀ old, tracker.current.lookup d.peerId = some old → old.Before d.stamp) ∧
        tracker' = { tracker with current := tracker.current.insert d.peerId d.stamp } := by
  have hle : d.peerId.length = 64 := by
    rw [hid, peerId, List.length_append, length_canonicalIp, List.length_replicate]
  have hg : ¬ (d.source ≠ receivedFrom ∨ d.peerIdentity ≠ receivedFrom.ip ∨
      d.peerId.length ≠ 64) := by
    simp [hso, hi, hle]
  rw [accept, if_neg hg]
  rcases hl : tracker.current.lookup d.peerId with _ | old
  · have hn : d.peerId ∉ tracker.current := Finmap.lookup_eq_none.mp hl
    simp [hn, eq_comm]
  · have hk : d.peerId ∈ tracker.current := Finmap.mem_of_lookup_eq_some hl
    rcases hs : old.stale d.stamp with _ | _
    · simp [hk, Stamp.stale_eq_false_iff.mp hs, hs, eq_comm]
    · have hno : ¬ old.Before d.stamp := fun h =>
        Bool.false_ne_true ((Stamp.stale_eq_false_iff.mpr h).symm.trans hs)
      simp [hk, hno, hs]

/-! ## Memories of stamps -/

section Remembers

variable {K : Type} [DecidableEq K] {memory : FMap K Stamp} {history : List (K × Stamp)}

/-- The memory has the last stamp of each name in the history, and the stamps of a name ascend. -/
structure Remembers (memory : FMap K Stamp) (history : List (K × Stamp)) : Prop where
  known : ∀ k old, memory.lookup k = some old → (k, old) ∈ history
  last : ∀ k stamp, (k, stamp) ∈ history →
    ∃ old, memory.lookup k = some old ∧ (stamp = old ∨ stamp.Before old)
  ordered : history.Pairwise fun a b => a.1 = b.1 → a.2.Before b.2

theorem remembers_empty : Remembers (∅ : FMap K Stamp) [] :=
  ⟨fun _ _ h => by simp at h, nofun, .nil⟩

/-- A stamp is later than the one in the memory where it is later than all of the history. -/
theorem Remembers.fresh_iff (h : Remembers memory history) (k : K) (stamp : Stamp) :
    (∀ old, memory.lookup k = some old → old.Before stamp) ↔
      ∀ old, (k, old) ∈ history → old.Before stamp := by
  constructor
  · intro hf old ho
    obtain ⟨last, hl, hle⟩ := h.last k old ho
    rcases hle with rfl | hlt
    · exact hf _ hl
    · exact hlt.trans (hf last hl)
  · intro hf old ho
    exact hf old (h.known k old ho)

theorem Remembers.insert (h : Remembers memory history) {k : K} {stamp : Stamp}
    (hf : ∀ old, memory.lookup k = some old → old.Before stamp) :
    Remembers (memory.insert k stamp) (history ++ [(k, stamp)]) := by
  have hh := (h.fresh_iff k stamp).mp hf
  refine ⟨?_, ?_, ?_⟩
  · intro k' old ho
    by_cases hk : k' = k
    · subst hk
      rw [Finmap.lookup_insert] at ho
      cases ho
      exact List.mem_append_right _ List.mem_cons_self
    · rw [Finmap.lookup_insert_of_ne _ hk] at ho
      exact List.mem_append_left _ (h.known k' old ho)
  · intro k' old ho
    rcases List.mem_append.mp ho with hb | hn
    · by_cases hk : k' = k
      · subst hk
        exact ⟨stamp, Finmap.lookup_insert _, .inr (hh old hb)⟩
      · rw [Finmap.lookup_insert_of_ne _ hk]
        exact h.last k' old hb
    · cases List.mem_singleton.mp hn
      exact ⟨stamp, Finmap.lookup_insert _, .inl rfl⟩
  · refine List.pairwise_append.mpr ⟨h.ordered, List.pairwise_singleton _ _, ?_⟩
    rintro ⟨k', old⟩ ho _ hn hk
    cases List.mem_singleton.mp hn
    cases hk
    exact hh old ho

theorem Remembers.keys (h : Remembers memory history) :
    memory.keys = (history.map Prod.fst).toFinset := by
  ext k
  rw [Finmap.mem_keys, List.mem_toFinset, List.mem_map]
  constructor
  · intro hk
    obtain ⟨old, ho⟩ := Finmap.mem_iff.mp hk
    exact ⟨_, h.known k old ho, rfl⟩
  · rintro ⟨⟨k', old⟩, ho, rfl⟩
    obtain ⟨last, hl, -⟩ := h.last k' old ho
    exact Finmap.mem_of_lookup_eq_some hl

end Remembers

end RustTron.Network.Backup
