import RustTron.Network.Handshake
import RustTron.Network.Gossip
import RustTron.Consensus.PbftWire
import RustTron.Library.Stream

/-!
# The transport

Frames are sent with their lengths in front. What is in a frame of an established session depends on
its first byte: control frames and the upgrade frame have one of their own, everything else is a
message of the application, in an envelope if the two ends agreed to compress.

The protobuf decoders and the compression are parameters. The encoders write what the wire format
says. Traffic counters, time limits and the queue of the events are left out.

## Main definitions

* `decode`, `encode`: frames
* `AppMessage`: messages of the application
* `envelope`, `openEnvelope`: compression
* `sendMessage`, `sendControl`, `handleFrame`: an established session
-/

namespace RustTron.Network

open Consensus.Pbft (varint numberField bytesField)

/-! ### Frames -/

def maxVarintBytes : Nat := 5

/-- The kinds of `io::Error` that frames lead to. -/
inductive IoErrorKind where
  | invalidData
  | invalidInput
  deriving DecidableEq, Repr

/-- `io::Error`. -/
structure IoError where
  kind : IoErrorKind
  text : String
  deriving DecidableEq

def IoError.malformedLength : IoError :=
  ⟨.invalidData, "malformed protobuf varint32 frame length"⟩

def IoError.frameTooLarge (kind : IoErrorKind) : IoError :=
  ⟨kind, "frame exceeds 5,242,880-byte limit"⟩

/-- What the bytes at the front say about the length of a frame. -/
inductive Prefix where
  | malformed
  /-- The length goes on in bytes that are not there. -/
  | unfinished
  | length (len prefixLen : Nat)
  deriving DecidableEq

/-- The loop of `decode` from the byte `i` on, with `len` from the bytes before it. -/
def readPrefix : (i len : Nat) → Bytes → Prefix
  | _, _, [] => .unfinished
  | i, len, b :: bytes =>
    if i = maxVarintBytes - 1 ∧ (128 ≤ b.toNat ∨ 15 < b.toNat) then .malformed
    else
      let len := len ||| (b.toNat % 128) <<< (7 * i)
      if b.toNat < 128 then .length len (i + 1) else readPrefix (i + 1) len bytes

/-- `VarintFrameCodec::decode`, with what is left of `src`. -/
def decode (src : Bytes) : Except IoError (Option Bytes) × Bytes :=
  match readPrefix 0 0 (src.take maxVarintBytes) with
  | .malformed => (.error .malformedLength, src)
  | .unfinished =>
    if maxVarintBytes ≤ src.length then (.error .malformedLength, src) else (.ok none, src)
  | .length len prefixLen =>
    if maxFrameSize < len then (.error (.frameTooLarge .invalidData), src)
    else if src.length < prefixLen + len then (.ok none, src)
    else
      let src := src.drop prefixLen
      (.ok (some (src.take len)), src.drop len)

/-- `VarintFrameCodec::encode`; the loop of `prefix` writes a varint. -/
def encode (item : Bytes) : Except IoError Bytes :=
  if maxFrameSize < item.length then .error (.frameTooLarge .invalidInput)
  else .ok (varint item.length ++ item)

/-! ### Messages of the application -/

inductive AppMessageType where
  | transaction
  | block
  | transactions
  | inventory
  | fetchInventoryData
  | syncBlockChain
  | chainInventory
  | pbftCommit
  | hello
  | disconnect
  | ping
  | pong
  | pbft
  deriving DecidableEq, Repr

def AppMessageType.byte : AppMessageType → UInt8
  | transaction => 0x01
  | block => 0x02
  | transactions => 0x03
  | inventory => 0x06
  | fetchInventoryData => 0x07
  | syncBlockChain => 0x08
  | chainInventory => 0x09
  | pbftCommit => 0x14
  | hello => 0x20
  | disconnect => 0x21
  | ping => 0x22
  | pong => 0x23
  | pbft => 0x34

def AppMessageType.fromByte (value : UInt8) : Option AppMessageType :=
  if value = 0x01 then some transaction
  else if value = 0x02 then some block
  else if value = 0x03 then some transactions
  else if value = 0x06 then some inventory
  else if value = 0x07 then some fetchInventoryData
  else if value = 0x08 then some syncBlockChain
  else if value = 0x09 then some chainInventory
  else if value = 0x14 then some pbftCommit
  else if value = 0x20 then some hello
  else if value = 0x21 then some disconnect
  else if value = 0x22 then some ping
  else if value = 0x23 then some pong
  else if value = 0x34 then some pbft
  else none

/-- A ping or a pong. -/
def AppMessageType.isKeepAlive (kind : AppMessageType) : Prop := kind = ping ∨ kind = pong

instance (kind : AppMessageType) : Decidable kind.isKeepAlive := by
  unfold AppMessageType.isKeepAlive
  infer_instance

inductive AppMessageError where
  | empty
  | unsupported (value : UInt8)
  | invalidKeepAlive (name : String)
  deriving DecidableEq

/-- `AppMessage`. Every way to make one checks the payload of a ping or a pong. -/
structure AppMessage where
  kind : AppMessageType
  payload : Bytes
  keepAlive : kind.isKeepAlive → payload = [0xc0]

def AppMessage.parse (frame : Bytes) : Except AppMessageError AppMessage :=
  match frame with
  | [] => .error .empty
  | value :: payload =>
    match AppMessageType.fromByte value with
    | none => .error (.unsupported value)
    | some kind =>
      if h : kind.isKeepAlive ∧ payload ≠ [0xc0] then
        .error (.invalidKeepAlive (if kind = .ping then "ping" else "pong"))
      else .ok ⟨kind, payload, fun hkind => not_not.mp fun hne => h ⟨hkind, hne⟩⟩

def AppMessage.sendBytes (message : AppMessage) : Bytes := message.kind.byte :: message.payload

/-! ### Control frames -/

inductive Control where
  | keepAlivePing
  | keepAlivePong
  | handshakeHello
  | status
  | disconnect
  deriving DecidableEq, Repr

def Control.byte : Control → UInt8
  | keepAlivePing => 0xff
  | keepAlivePong => 0xfe
  | handshakeHello => 0xfd
  | status => 0xfc
  | disconnect => 0xfb

def Control.parse (byte : UInt8) : Option Control :=
  if byte = 0xff then some keepAlivePing
  else if byte = 0xfe then some keepAlivePong
  else if byte = 0xfd then some handshakeHello
  else if byte = 0xfc then some status
  else if byte = 0xfb then some disconnect
  else none

structure KeepAliveMessage where
  timestamp : Int
  inI64 : InI64 timestamp
  deriving DecidableEq

/-- `KeepAliveMessage::encode_to_vec`; a number that is negative is written as its complement. -/
def KeepAliveMessage.encodeToVec (message : KeepAliveMessage) : Bytes :=
  numberField 0x08 (message.timestamp % 2 ^ 64).toNat

/-- `DisconnectReason as i32`. -/
def DisconnectReason.code : DisconnectReason → Int
  | peerQuiting => 0
  | badProtocol => 1
  | tooManyPeers => 2
  | duplicatePeer => 3
  | differentVersion => 4
  | randomElimination => 5
  | emptyMessage => 6
  | pingTimeout => 7
  | discoverMode => 8
  | noSuchMessage => 10
  | badMessage => 11
  | tooManyPeersWithSameIp => 12
  | recentDisconnect => 13
  | dupHandshake => 14
  | unknown => 255

/-- `DisconnectReason::try_from`, and `Unknown` where it fails. -/
def DisconnectReason.ofCode (code : Int) : DisconnectReason :=
  ([peerQuiting, badProtocol, tooManyPeers, duplicatePeer, differentVersion, randomElimination,
    emptyMessage, pingTimeout, discoverMode, noSuchMessage, badMessage, tooManyPeersWithSameIp,
    recentDisconnect, dupHandshake, unknown].find? fun reason => reason.code = code).getD unknown

/-! ### Compression -/

structure CompressMessage where
  type : Int
  data : Bytes
  deriving DecidableEq

def CompressMessage.encodeToVec (message : CompressMessage) : Bytes :=
  numberField 0x08 (message.type % 2 ^ 64).toNat ++ bytesField 0x12 message.data

inductive CompressType where
  | uncompress
  | snappy
  deriving DecidableEq, Repr

/-- `CompressType as i32`. -/
def CompressType.code : CompressType → Int
  | uncompress => 0
  | snappy => 1

/-- `CompressType::try_from`. -/
def CompressType.ofCode (code : Int) : Option CompressType :=
  if code = 0 then some uncompress else if code = 1 then some snappy else none

/-- `CompressionError`; the errors of the compression itself are not told apart. -/
inductive CompressionError where
  | unknown (type : Int)
  | tooLarge
  | snappy
  deriving DecidableEq

/-- The protobuf decoders and the compression. -/
structure Codecs where
  decodeKeepAlive : Bytes → Option KeepAliveMessage
  decodeDisconnect : Bytes → Option Int
  decodeCompress : Bytes → Option CompressMessage
  compress : Bytes → Option Bytes
  decompressLen : Bytes → Option Nat
  decompress : Bytes → Option Bytes

/-- What is documented of them: a decoder reads back what was encoded, and decompression inverts
compression. -/
structure Codecs.Lawful (codecs : Codecs) : Prop where
  keepAlive : ∀ message : KeepAliveMessage, codecs.decodeKeepAlive message.encodeToVec = some message
  compressMessage : ∀ (type : CompressType) (data : Bytes),
    codecs.decodeCompress (CompressMessage.encodeToVec ⟨type.code, data⟩) = some ⟨type.code, data⟩
  decompress : ∀ data compressed, codecs.compress data = some compressed →
    codecs.decompressLen compressed = some data.length ∧ codecs.decompress compressed = some data

def envelope (codecs : Codecs) (data : Bytes) (snappy : Bool) :
    Except CompressionError CompressMessage :=
  if maxFrameSize < data.length then .error .tooLarge
  else if snappy then
    match codecs.compress data with
    | some compressed => .ok ⟨CompressType.snappy.code, compressed⟩
    | none => .error .snappy
  else .ok ⟨CompressType.uncompress.code, data⟩

/-- `open`. -/
def openEnvelope (codecs : Codecs) (message : CompressMessage) : Except CompressionError Bytes :=
  match CompressType.ofCode message.type with
  | none => .error (.unknown message.type)
  | some .uncompress =>
    if maxFrameSize < message.data.length then .error .tooLarge else .ok message.data
  | some .snappy =>
    match codecs.decompressLen message.data with
    | none => .error .snappy
    | some len =>
      if maxFrameSize < len then .error .tooLarge
      else
        match codecs.decompress message.data with
        | some data => .ok data
        | none => .error .snappy

/-! ### An established session -/

/-- `SessionEvent`, without the changes of state. -/
inductive SessionEvent where
  | message (bytes : Bytes)
  | ping (timestamp : Int)
  | pong (timestamp : Int)
  | disconnected (reason : DisconnectReason)
  deriving DecidableEq

/-- The errors of `SessionError` that an established session runs into here. -/
inductive SessionError where
  | io (error : IoError)
  | decode
  | compression (error : CompressionError)
  | rejected (reason : DisconnectReason)
  | protocol (text : String)
  deriving DecidableEq

/-- Why a session handles no more frames. -/
inductive SessionEnd where
  | failed (error : SessionError)
  /-- The peer took its leave. -/
  | left
  deriving DecidableEq

/-- The state of an established session, with what it emitted and what it wrote. -/
structure Established where
  compressed : Bool
  /-- The time stamp of its own ping that is not answered yet. -/
  awaitingPong : Option Int
  events : List SessionEvent
  written : Bytes

namespace Established

def emit (s : Established) (event : SessionEvent) : Established :=
  { s with events := s.events ++ [event] }

def writeFrame (s : Established) (frame : Bytes) : Except SessionError Unit × Established :=
  match encode frame with
  | .ok bytes => (.ok (), { s with written := s.written ++ bytes })
  | .error e => (.error (.io e), s)

def sendControl (s : Established) (control : Control) (body : Bytes) :
    Except SessionError Unit × Established :=
  s.writeFrame (control.byte :: body)

/-- The frame of `send_message`. -/
def messageFrame (codecs : Codecs) (compressed : Bool) (message : Bytes) :
    Except SessionError Bytes :=
  if compressed then
    match envelope codecs message true with
    | .ok m => .ok m.encodeToVec
    | .error e => .error (.compression e)
  else .ok message

def sendMessage (codecs : Codecs) (s : Established) (message : Bytes) :
    Except SessionError Unit × Established :=
  match messageFrame codecs s.compressed message with
  | .ok frame => s.writeFrame frame
  | .error e => (.error e, s)

def sendAppMessage (codecs : Codecs) (s : Established) (message : AppMessage) :
    Except SessionError Unit × Established :=
  s.sendMessage codecs message.sendBytes

/-- The payload of a message that is no control frame. -/
def openFrame (codecs : Codecs) (compressed : Bool) (frame : Bytes) : Except SessionError Bytes :=
  if compressed then
    match codecs.decodeCompress frame with
    | none => .error .decode
    | some m =>
      match openEnvelope codecs m with
      | .ok data => .ok data
      | .error e => .error (.compression e)
  else .ok frame

/-- `handle_frame`, where `Ok(false)` is `.left`. -/
def handleFrame (codecs : Codecs) (s : Established) (frame : Bytes) :
    Except SessionEnd Unit × Established :=
  match frame.head?.bind Control.parse with
  | some .keepAlivePing =>
    match codecs.decodeKeepAlive frame.tail with
    | none => (.error (.failed .decode), s)
    | some ping =>
      match s.sendControl .keepAlivePong ping.encodeToVec with
      | (.error e, s) => (.error (.failed e), s)
      | (.ok (), s) => (.ok (), s.emit (.ping ping.timestamp))
  | some .keepAlivePong =>
    match codecs.decodeKeepAlive frame.tail with
    | none => (.error (.failed .decode), s)
    | some pong =>
      let s := if s.awaitingPong = some pong.timestamp then { s with awaitingPong := none } else s
      (.ok (), s.emit (.pong pong.timestamp))
  | some .disconnect =>
    match codecs.decodeDisconnect frame.tail with
    | none => (.error (.failed .decode), s)
    | some code => (.error .left, s.emit (.disconnected (.ofCode code)))
  | some .handshakeHello =>
    let s := (s.sendControl .disconnect
      (numberField 0x08 DisconnectReason.dupHandshake.code.toNat)).2
    (.error (.failed (.rejected .dupHandshake)), s.emit (.disconnected .dupHandshake))
  | some .status => (.error (.failed (.protocol "duplicate status")), s)
  | none =>
    if frame.head? = some 0xfa then (.error (.failed (.protocol "duplicate upgrade")), s)
    else
      match openFrame codecs s.compressed frame with
      | .ok data => (.ok (), s.emit (.message data))
      | .error e => (.error (.failed e), s)

/-- The decoder of `read_frame`, whose errors end the session. -/
def decodeFrame (src : Bytes) : Except SessionEnd (Option Bytes) × Bytes :=
  match decode src with
  | (.ok frame, rest) => (.ok frame, rest)
  | (.error e, rest) => (.error (.failed (.io e)), rest)

/-- Chunks are read, and the frames that they complete are handled. -/
def receiveAll (codecs : Codecs) (s : Established) (buffer : Bytes) (chunks : List Bytes) :
    Except SessionEnd Unit × Established × Bytes :=
  Stream.feedAll decodeFrame (handleFrame codecs) s buffer chunks

end Established

end RustTron.Network
