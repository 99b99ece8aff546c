import RustTron.Primitives.Bytes
import RustTron.Primitives.Usize
import RustTron.Library.FMap

/-!
# The handshake

A session greets its peer and registers it twice: in the admission table, which checks what the
hello says, and in the connection pool. Both are shared by all sessions, each behind its own lock.

## Main definitions

* `parseIpv4`, `parseIpv6`, `validateEndpoint`: the addresses of an endpoint
* `Admission`: `admitHello`, `remove`, `ban`
* `ConnectionPool`: `insert`, `remove`
* `Hub`: the registry with the sessions that share it, each in its phase
-/

namespace RustTron.Network

/-! ### Addresses -/

inductive IpAddr where
  | v4 (octets : List Nat)
  | v6 (segments : List Nat)
  deriving DecidableEq

structure SocketAddr where
  ip : IpAddr
  port : Nat
  deriving DecidableEq

/-- The value of a digit. -/
def digit? (radix : Nat) (b : UInt8) : Option Nat :=
  let n := b.toNat
  let value :=
    if 48 ≤ n ∧ n ≤ 57 then n - 48
    else if 65 ≤ n ∧ n ≤ 70 then n - 55
    else if 97 ≤ n ∧ n ≤ 102 then n - 87
    else radix
  if value < radix then some value else none

/-- The digits at the front, as their value and count, and what follows them. -/
def readDigits (radix : Nat) : (value count : Nat) → Bytes → Nat × Nat × Bytes
  | value, count, [] => (value, count, [])
  | value, count, b :: bytes =>
    match digit? radix b with
    | some d => readDigits radix (value * radix + d) (count + 1) bytes
    | none => (value, count, b :: bytes)

/-- The number at the front, of at most `maxDigits` digits. -/
def readNumber (radix maxDigits : Nat) (zeroPrefix : Bool) (bytes : Bytes) : Option (Nat × Bytes) :=
  match readDigits radix 0 0 bytes with
  | (value, count, rest) =>
    if count = 0 ∨ maxDigits < count then none
    else if !zeroPrefix ∧ bytes.head? = some 48 ∧ 1 < count then none
    else some (value, rest)

/-- What follows a given byte at the front. -/
def readByte (b : UInt8) : Bytes → Option Bytes
  | [] => none
  | c :: bytes => if c = b then some bytes else none

/-- `n` octets, each after a point. -/
def readOctets : (n : Nat) → Bytes → Option (List Nat × Bytes)
  | 0, bytes => some ([], bytes)
  | n + 1, bytes => do
    let (octet, bytes) ← readNumber 10 3 false (← readByte 46 bytes)
    if 255 < octet then none
    else
      let (octets, bytes) ← readOctets n bytes
      some (octet :: octets, bytes)

/-- The dotted address at the front. -/
def readIpv4 (bytes : Bytes) : Option (List Nat × Bytes) := readOctets 4 (46 :: bytes)

/-- `Ipv4Addr::from_str`. -/
def parseIpv4 (bytes : Bytes) : Option IpAddr :=
  if 15 < bytes.length then none
  else
    match readIpv4 bytes with
    | some (octets, []) => some (.v4 octets)
    | _ => none

/-- The separator before all segments but the first. -/
def readColon (index : Nat) (bytes : Bytes) : Option Bytes :=
  if index = 0 then some bytes else readByte 58 bytes

/-- At most `room` more segments after `index` of them, and whether the last two of them are a
dotted address. -/
def readGroups : (room index : Nat) → Bytes → List Nat × Bool × Bytes
  | 0, _, bytes => ([], false, bytes)
  | room + 1, index, bytes =>
    match (readColon index bytes).bind readIpv4 with
    | some ([a, b, c, d], rest) =>
      if 0 < room then ([a * 256 + b, c * 256 + d], true, rest)
      else readGroup room index bytes
    | _ => readGroup room index bytes
where
  /-- One segment in hexadecimal, and more. -/
  readGroup (room index : Nat) (bytes : Bytes) : List Nat × Bool × Bytes :=
    match (readColon index bytes).bind (readNumber 16 4 true) with
    | some (segment, rest) =>
      let more := readGroups room (index + 1) rest
      (segment :: more.1, more.2)
    | none => ([], false, bytes)

/-- `Ipv6Addr::from_str`. -/
def parseIpv6 (bytes : Bytes) : Option IpAddr :=
  match readGroups 8 0 bytes with
  | (head, dotted, rest) =>
    if head.length = 8 then if rest = [] then some (.v6 head) else none
    else if dotted then none
    else
      match (readByte 58 rest).bind (readByte 58) with
      | none => none
      | some rest =>
        match readGroups (7 - head.length) 0 rest with
        | (tail, _, rest) =>
          if rest = [] then
            some (.v6 (head ++ List.replicate (8 - head.length - tail.length) 0 ++ tail))
          else none

/-! ### Hellos -/

def nodeIdLen : Nat := 64

def maxIpv4TextLen : Nat := 15

def maxIpv6TextLen : Nat := 45

structure Endpoint where
  address : Bytes
  port : Int
  nodeId : Bytes
  addressIpv6 : Bytes

/-- The part of `HelloMessage` that its admission reads. -/
structure HelloMessage where
  endpoint : Option Endpoint
  networkId : Int
  version : Int

inductive DisconnectReason where
  | peerQuiting
  | badProtocol
  | tooManyPeers
  | duplicatePeer
  | differentVersion
  | randomElimination
  | emptyMessage
  | pingTimeout
  | discoverMode
  | noSuchMessage
  | badMessage
  | tooManyPeersWithSameIp
  | recentDisconnect
  | dupHandshake
  | unknown
  deriving DecidableEq, Repr

/-- One of the two addresses of an endpoint; `label` names its kind. -/
def validateAddress (label : String) (maxLength : Nat) (parse : Bytes → Option IpAddr)
    (text : Bytes) : Except String (Option IpAddr) :=
  if text = [] then .ok none
  else if maxLength < text.length then .error (label ++ " address exceeds textual limit")
  else if !validUtf8 text then .error (label ++ " address is not UTF-8")
  else
    match parse text with
    | some ip => .ok (some ip)
    | none => .error ("invalid " ++ label ++ " address")

def validateEndpoint (endpoint : Endpoint) : Except String IpAddr := do
  if endpoint.nodeId.length ≠ nodeIdLen then throw "node id must be 64 bytes"
  if ¬(1 ≤ endpoint.port ∧ endpoint.port ≤ 65535) then throw "port outside 1..=65535"
  let ipv4 ← validateAddress "IPv4" maxIpv4TextLen parseIpv4 endpoint.address
  let ipv6 ← validateAddress "IPv6" maxIpv6TextLen parseIpv6 endpoint.addressIpv6
  match ipv4 <|> ipv6 with
  | some ip => return ip
  | none => throw "endpoint has no address"

/-! ### The admission table -/

/-- The part of `AdmissionConfig` that its admission reads. -/
structure AdmissionConfig where
  networkId : Int
  version : Int
  maxConnections : Nat
  maxSameIp : Nat
  trusted : List IpAddr

/-- `Admission`; times are those of a clock that does not go back. -/
structure Admission where
  peers : FMap Bytes IpAddr
  perIp : FMap IpAddr Nat
  banned : FMap IpAddr Int

namespace Admission

def default : Admission := ⟨∅, ∅, ∅⟩

/-- The counter of an address. -/
def countOf (a : Admission) (ip : IpAddr) : Nat := (a.perIp.lookup ip).getD 0

def ban (a : Admission) (ip : IpAddr) (till : Int) : Admission :=
  { a with banned := a.banned.insert ip till }

def remove (a : Admission) (node : Bytes) : Admission :=
  match a.peers.lookup node with
  | none => a
  | some ip =>
    { a with
      peers := a.peers.erase node
      perIp :=
        match a.perIp.lookup ip with
        | none => a.perIp
        | some n => a.perIp.insert ip (n - 1) }

/-- `admit`. -/
def admitHello (a : Admission) (hello : HelloMessage) (remoteIp : IpAddr) (localNodeId : Bytes)
    (cfg : AdmissionConfig) (now : Int) : Except DisconnectReason Admission :=
  match hello.endpoint with
  | none => .error .badProtocol
  | some ep =>
    match validateEndpoint ep with
    | .error _ => .error .badProtocol
    | .ok _ =>
      if localNodeId.length ≠ nodeIdLen then .error .badProtocol
      else if ep.nodeId = localNodeId then .error .duplicatePeer
      else if hello.networkId ≠ cfg.networkId then .error .badProtocol
      else if hello.version ≠ cfg.version then .error .differentVersion
      else if (a.banned.lookup remoteIp).any (fun till => now < till) ∧ remoteIp ∉ cfg.trusted then
        .error .recentDisconnect
      else if ep.nodeId ∈ a.peers then .error .duplicatePeer
      else if cfg.maxConnections ≤ a.peers.keys.card ∧ remoteIp ∉ cfg.trusted then
        .error .tooManyPeers
      else if cfg.maxSameIp ≤ a.countOf remoteIp ∧ remoteIp ∉ cfg.trusted then
        .error .tooManyPeersWithSameIp
      else
        .ok { a with
          peers := a.peers.insert ep.nodeId remoteIp
          perIp := a.perIp.insert remoteIp (a.countOf remoteIp + 1) }

end Admission

/-! ### The connection pool -/

inductive Direction where
  | active
  | passive
  deriving DecidableEq, Repr

/-- `Peer`, without its times. -/
structure Peer where
  nodeId : Bytes
  address : SocketAddr
  direction : Direction
  trusted : Bool
  deriving DecidableEq

/-- The part of `PoolConfig` that `insert` reads. -/
structure PoolConfig where
  maxConnections : Nat
  maxSameIp : Nat

inductive PoolError where
  | invalidIdentity
  | duplicate
  | full
  | sameIp
  deriving DecidableEq, Repr

/-- `ConnectionPool`, without the failures. -/
structure ConnectionPool where
  peers : FMap Bytes Peer

namespace ConnectionPool

def default : ConnectionPool := ⟨∅⟩

def ipCount (pool : ConnectionPool) (ip : IpAddr) : Nat :=
  FMap.total (fun _ peer => if peer.address.ip = ip then 1 else 0) pool.peers

def insert (pool : ConnectionPool) (peer : Peer) (cfg : PoolConfig) :
    Except PoolError ConnectionPool :=
  if peer.nodeId.length ≠ nodeIdLen then .error .invalidIdentity
  else if peer.nodeId ∈ pool.peers then .error .duplicate
  else if cfg.maxConnections ≤ pool.peers.keys.card ∧ !peer.trusted then .error .full
  else if cfg.maxSameIp ≤ pool.ipCount peer.address.ip ∧ !peer.trusted then .error .sameIp
  else .ok ⟨pool.peers.insert peer.nodeId peer⟩

def remove (pool : ConnectionPool) (id : Bytes) : ConnectionPool := ⟨pool.peers.erase id⟩

end ConnectionPool

/-! ### Sessions -/

/-- The part of `SessionConfig` and of a session that its registration reads. `localNodeId` is empty
where the local hello has no endpoint. -/
structure SessionConfig where
  remote : SocketAddr
  direction : Direction
  localNodeId : Bytes
  admission : AdmissionConfig
  pool : PoolConfig

/-- The peer that a session enters into the pool. -/
def SessionConfig.peer (cfg : SessionConfig) (nodeId : Bytes) : Peer where
  nodeId := nodeId
  address := cfg.remote
  direction := cfg.direction
  trusted := decide (cfg.remote.ip ∈ cfg.admission.trusted)

/-- How far a session is. From `admitted` to `leaving` it holds the node id that it claims; whether
the pool took it is `pooled`. -/
inductive Phase where
  /-- Nothing is registered. -/
  | greeting
  /-- Admitted, before the pool is asked. -/
  | admitted (id : Bytes)
  /-- The pool refused, before the entry in the admission table is taken back. -/
  | refused (id : Bytes)
  | negotiating (id : Bytes)
  | connected (id : Bytes)
  /-- The clean-up, before the admission table. -/
  | closing (id : Bytes) (pooled : Bool)
  /-- The clean-up, between the admission table and the pool. -/
  | leaving (id : Bytes) (pooled : Bool)
  /-- The clean-up, before the ban. -/
  | ending
  | closed
  deriving DecidableEq

structure SessionRegistry where
  admission : Admission
  pool : ConnectionPool

/-- The registry and the sessions that share it. -/
structure Hub (Session : Type) where
  registry : SessionRegistry
  phase : Session → Phase

/-- One locked section of a session, or a change of its state between two of them. -/
inductive HubStep (Session : Type) where
  | admitHello (i : Session) (hello : HelloMessage) (now : Int)
  | insert (i : Session)
  | takeBack (i : Session)
  | connect (i : Session)
  | stop (i : Session)
  | leaveAdmission (i : Session)
  | leavePool (i : Session)
  | ban (i : Session) (till : Int)
  | finish (i : Session)

namespace Hub

variable {Session : Type} [DecidableEq Session]

/-- No session has started. -/
def start : Hub Session := ⟨⟨.default, .default⟩, fun _ => .greeting⟩

/-- A session goes on to a phase. -/
def goTo (h : Hub Session) (i : Session) (phase : Phase) : Hub Session :=
  { h with phase := Function.update h.phase i phase }

def withAdmission (h : Hub Session) (admission : Admission) : Hub Session :=
  { h with registry := { h.registry with admission := admission } }

def withPool (h : Hub Session) (pool : ConnectionPool) : Hub Session :=
  { h with registry := { h.registry with pool := pool } }

/-- A step of a session that is ready for it: the two registrations of `establish`, what `reject`
comes after, and the clean-up of `run`. A session may stop for any reason while nothing is locked. -/
def step (cfg : Session → SessionConfig) (h : Hub Session) :
    HubStep Session → Option (Hub Session)
  | .admitHello i hello now =>
    match h.phase i, hello.endpoint with
    | .greeting, some ep =>
      match h.registry.admission.admitHello hello (cfg i).remote.ip (cfg i).localNodeId
          (cfg i).admission now with
      | .ok admission => some ((h.withAdmission admission).goTo i (.admitted ep.nodeId))
      | .error _ => some (h.goTo i .ending)
    | .greeting, none => some (h.goTo i .ending)
    | _, _ => none
  | .insert i =>
    match h.phase i with
    | .admitted id =>
      match h.registry.pool.insert ((cfg i).peer id) (cfg i).pool with
      | .ok pool => some ((h.withPool pool).goTo i (.negotiating id))
      | .error _ => some (h.goTo i (.refused id))
    | _ => none
  | .takeBack i =>
    match h.phase i with
    | .refused id =>
      some ((h.withAdmission (h.registry.admission.remove id)).goTo i (.closing id false))
    | _ => none
  | .connect i =>
    match h.phase i with
    | .negotiating id => some (h.goTo i (.connected id))
    | _ => none
  | .stop i =>
    match h.phase i with
    | .greeting => some (h.goTo i .ending)
    | .negotiating id => some (h.goTo i (.closing id true))
    | .connected id => some (h.goTo i (.closing id true))
    | _ => none
  | .leaveAdmission i =>
    match h.phase i with
    | .closing id pooled =>
      some ((h.withAdmission (h.registry.admission.remove id)).goTo i (.leaving id pooled))
    | _ => none
  | .leavePool i =>
    match h.phase i with
    | .leaving id _ => some ((h.withPool (h.registry.pool.remove id)).goTo i .ending)
    | _ => none
  | .ban i till =>
    match h.phase i with
    | .ending => some (h.withAdmission (h.registry.admission.ban (cfg i).remote.ip till))
    | _ => none
  | .finish i =>
    match h.phase i with
    | .ending => some (h.goTo i .closed)
    | _ => none

end Hub

end RustTron.Network
