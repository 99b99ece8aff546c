import RustTron.Network.Transport
import Mathlib

/-!
# What is sent is delivered

A frame ends where its length says, so that it does not matter how the bytes of frames are cut. The
first byte tells a message of the application from a control frame: it is the code of a message, or
the tag of the first field of an envelope.

## Main definitions

* `MalformedLength`, `LengthAbove`: the lengths that are turned down
* `frameCodec`: the frames as a codec
* `Sends`: messages and keep-alives that were sent one after the other

## Main results

* `Established.delivers`: the other end emits what was sent
-/

namespace RustTron.Network

open Consensus.Pbft (varint varintGroups numberField bytesField varintGroups_of_lt
  toNat_ofNat_of_lt)

/-! ### Lengths -/

section Lengths

/-- The number that groups of seven bits stand for, least significant first. -/
def groupsValue : Bytes → Nat
  | [] => 0
  | b :: bytes => b.toNat % 128 + 128 * groupsValue bytes

/-- Four bytes say that the length goes on, and the fifth is above what 32 bits leave. -/
def MalformedLength (src : Bytes) : Prop :=
  ∃ groups last rest, src = groups ++ last :: rest ∧ groups.length = 4 ∧
    (∀ b ∈ groups, 128 ≤ b.toNat) ∧ 15 < last.toNat

/-- The length is above the limit of a frame. -/
def LengthAbove (src : Bytes) : Prop :=
  ∃ groups last rest, src = groups ++ last :: rest ∧ groups.length ≤ 4 ∧
    (∀ b ∈ groups, 128 ≤ b.toNat) ∧ last.toNat < 128 ∧ maxFrameSize < groupsValue (groups ++ [last])

theorem or_shiftLeft {len i : Nat} (h : len < 2 ^ (7 * i)) (d : Nat) :
    len ||| d <<< (7 * i) = len + d * 2 ^ (7 * i) := by
  rw [Nat.or_comm, Nat.shiftLeft_eq, Nat.mul_comm, ← Nat.two_pow_add_eq_or_of_lt h, Nat.add_comm]

theorem length_varintGroups {k : Nat} (hk : 0 < k) :
    ∀ {fuel n : Nat}, n < 128 ^ k → (varintGroups fuel n).length ≤ k := by
  induction k with
  | zero => omega
  | succ k ih =>
    intro fuel n hn
    by_cases hlt : n < 128
    · rw [varintGroups_of_lt _ hlt]
      simp
    · cases fuel with
      | zero => simp [varintGroups]
      | succ fuel =>
        have hp : 0 < k := by
          rcases Nat.eq_zero_or_pos k with rfl | hp
          · omega
          · exact hp
        rw [varintGroups, if_neg hlt, List.length_cons]
        refine Nat.succ_le_succ (ih hp ?_)
        rw [Nat.pow_succ] at hn
        omega

theorem length_varint {n : Nat} (h : n ≤ maxFrameSize) : (varint n).length ≤ 4 := by
  refine length_varintGroups (by decide) (h.trans_lt ?_)
  decide

theorem readPrefix_last {rest : Bytes} {i len n : Nat} (hn : n < 128) (hle : len < 2 ^ (7 * i))
    (hb : n < 2 ^ (32 - 7 * i)) :
    readPrefix i len (UInt8.ofNat n :: rest) = .length (len + n * 2 ^ (7 * i)) (i + 1) := by
  have hl : ¬(i = maxVarintBytes - 1 ∧ (128 ≤ n ∨ 15 < n)) := by
    rintro ⟨rfl, h⟩
    have h16 : 2 ^ (32 - 7 * (maxVarintBytes - 1)) = 16 := by decide
    omega
  rw [readPrefix, toNat_ofNat_of_lt (by omega), if_neg hl, or_shiftLeft hle,
    Nat.mod_eq_of_lt hn]
  dsimp only
  rw [if_pos hn]

theorem readPrefix_varintGroups {rest : Bytes} :
    ∀ {fuel i len n : Nat}, n ≤ fuel → i ≤ 4 → len < 2 ^ (7 * i) → n < 2 ^ (32 - 7 * i) →
      readPrefix i len (varintGroups fuel n ++ rest) =
        .length (len + n * 2 ^ (7 * i)) (i + (varintGroups fuel n).length) := by
  intro fuel
  induction fuel with
  | zero =>
    intro i len n hn hi hl hb
    rw [varintGroups_of_lt _ (by omega)]
    exact readPrefix_last (by omega) hl hb
  | succ fuel ih =>
    intro i len n hn hi hl hb
    by_cases hlt : n < 128
    · rw [varintGroups_of_lt _ hlt]
      exact readPrefix_last hlt hl hb
    · have hi4 : i < 4 := by
        rcases Nat.lt_or_eq_of_le hi with h | rfl
        · exact h
        · have h16 : 2 ^ (32 - 7 * 4) = 16 := by decide
          omega
      have hp : 2 ^ (32 - 7 * i) = 2 ^ (32 - 7 * (i + 1)) * 128 := by
        rw [show 32 - 7 * i = 32 - 7 * (i + 1) + 7 by omega, Nat.pow_add]
      have hp' : 2 ^ (7 * (i + 1)) = 2 ^ (7 * i) * 128 := by
        rw [show 7 * (i + 1) = 7 * i + 7 by omega, Nat.pow_add]
      rw [varintGroups, if_neg hlt, List.cons_append, readPrefix, toNat_ofNat_of_lt (by omega)]
      have hla : ¬(i = maxVarintBytes - 1 ∧ (128 ≤ 128 + n % 128 ∨ 15 < 128 + n % 128)) := by
        rintro ⟨rfl, -⟩
        exact absurd hi4 (by decide)
      rw [if_neg hla, or_shiftLeft hl]
      dsimp only
      rw [if_neg (by omega), show (128 + n % 128) % 128 = n % 128 by omega]
      have hm : n % 128 < 128 := Nat.mod_lt _ (by decide)
      rw [ih (by omega) (by omega) ?_ (by rw [hp] at hb; omega), List.length_cons]
      · have hn : n = 128 * (n / 128) + n % 128 := (Nat.div_add_mod n 128).symm
        have hv : len + n % 128 * 2 ^ (7 * i) + n / 128 * 2 ^ (7 * (i + 1)) =
            len + n * 2 ^ (7 * i) := by
          rw [hp']
          conv_rhs => rw [hn]
          ring
        rw [hv, Nat.add_assoc, Nat.add_comm 1]
      · rw [hp']
        have := Nat.mul_le_mul_right (2 ^ (7 * i)) (Nat.le_of_lt_succ hm)
        omega

theorem readPrefix_append {bytes : Bytes} :
    ∀ {i len : Nat}, readPrefix i len bytes ≠ .unfinished → ∀ more,
      readPrefix i len (bytes ++ more) = readPrefix i len bytes := by
  induction bytes with
  | nil => exact fun h => absurd rfl h
  | cons b bytes ih =>
    intro i len h more
    rw [List.cons_append]
    unfold readPrefix at h ⊢
    split
    · rfl
    · rename_i hl
      rw [if_neg hl] at h
      dsimp only at h ⊢
      split
      · rfl
      · rename_i hm
        rw [if_neg hm] at h
        exact ih h more

theorem readPrefix_ne_unfinished {bytes : Bytes} :
    ∀ {i len : Nat}, i ≤ 4 → 5 ≤ i + bytes.length → readPrefix i len bytes ≠ .unfinished := by
  induction bytes with
  | nil =>
    intro i len hi hl
    rw [List.length_nil] at hl
    omega
  | cons b bytes ih =>
    intro i len hi hl
    rw [List.length_cons] at hl
    unfold readPrefix
    split
    · exact fun h => nomatch h
    · rename_i hla
      dsimp only
      split
      · exact fun h => nomatch h
      · rename_i hm
        refine ih ?_ (by omega)
        by_contra hi4
        have hi : i = maxVarintBytes - 1 := by
          unfold maxVarintBytes
          omega
        exact hla ⟨hi, .inl (by omega)⟩

theorem readPrefix_eq_malformed {bytes : Bytes} :
    ∀ {i len : Nat}, readPrefix i len bytes = .malformed →
      ∃ groups last rest, bytes = groups ++ last :: rest ∧ i + groups.length = 4 ∧
        (∀ b ∈ groups, 128 ≤ b.toNat) ∧ 15 < last.toNat := by
  induction bytes with
  | nil => exact fun h => nomatch h
  | cons b bytes ih =>
    intro i len h
    unfold readPrefix at h
    split at h
    · rename_i hl
      refine ⟨[], b, bytes, rfl, hl.1, fun _ hb => (nomatch hb), ?_⟩
      omega
    · dsimp only at h
      split at h
      · cases h
      · rename_i hm
        obtain ⟨groups, last, rest, rfl, hle, hg, hl⟩ := ih h
        refine ⟨b :: groups, last, rest, rfl, ?_, ?_, hl⟩
        · rw [List.length_cons]
          omega
        · rintro c (_ | ⟨_, hc⟩)
          · omega
          · exact hg c hc

theorem readPrefix_eq_length {bytes : Bytes} {n p : Nat} :
    ∀ {i len : Nat}, i ≤ 4 → len < 2 ^ (7 * i) → readPrefix i len bytes = .length n p →
      ∃ groups last rest, bytes = groups ++ last :: rest ∧ i + groups.length ≤ 4 ∧
        (∀ b ∈ groups, 128 ≤ b.toNat) ∧ last.toNat < 128 ∧
          n = len + groupsValue (groups ++ [last]) * 2 ^ (7 * i) := by
  induction bytes with
  | nil => exact fun _ _ h => nomatch h
  | cons b bytes ih =>
    intro i len hi hle h
    unfold readPrefix at h
    split at h
    · cases h
    · rename_i hl
      dsimp only at h
      rw [or_shiftLeft hle] at h
      split at h
      · rename_i he
        cases h
        refine ⟨[], b, bytes, rfl, hi, fun _ hb => (nomatch hb), he, ?_⟩
        simp [groupsValue]
      · rename_i hmo
        have hi4 : i + 1 ≤ 4 := by
          by_contra hi4
          have hi : i = maxVarintBytes - 1 := by
            unfold maxVarintBytes
            omega
          exact hl ⟨hi, .inl (by omega)⟩
        have hp : 2 ^ (7 * (i + 1)) = 2 ^ (7 * i) * 128 := by
          rw [show 7 * (i + 1) = 7 * i + 7 by omega, Nat.pow_add]
        have hm : b.toNat % 128 < 128 := Nat.mod_lt _ (by decide)
        have hbo : len + b.toNat % 128 * 2 ^ (7 * i) < 2 ^ (7 * (i + 1)) := by
          have := Nat.mul_le_mul_right (2 ^ (7 * i)) (Nat.le_of_lt_succ hm)
          rw [hp]
          omega
        obtain ⟨groups, last, rest, rfl, hlength, hg, he, hn⟩ := ih hi4 hbo h
        refine ⟨b :: groups, last, rest, rfl, ?_, ?_, he, ?_⟩
        · rw [List.length_cons]
          omega
        · rintro c (_ | ⟨_, hc⟩)
          · omega
          · exact hg c hc
        · rw [hn, hp, List.cons_append, groupsValue]
          ring

end Lengths

/-! ### Frames -/

section Frames

variable {src : Bytes}

theorem decode_of_length {len prefixLen : Nat}
    (hl : readPrefix 0 0 (src.take maxVarintBytes) = .length len prefixLen)
    (hf : len ≤ maxFrameSize) (hw : prefixLen + len ≤ src.length) :
    decode src = (.ok (some ((src.drop prefixLen).take len)), (src.drop prefixLen).drop len) := by
  unfold decode
  rw [hl]
  dsimp only
  rw [if_neg (by omega), if_neg (by omega)]

theorem decode_eq_frame {frame rest : Bytes} (h : decode src = (.ok (some frame), rest)) :
    ∃ len prefixLen, readPrefix 0 0 (src.take maxVarintBytes) = .length len prefixLen ∧
      len ≤ maxFrameSize ∧ prefixLen + len ≤ src.length ∧
        frame = (src.drop prefixLen).take len ∧ rest = (src.drop prefixLen).drop len := by
  unfold decode at h
  split at h
  · cases h
  · split at h <;> cases h
  · rename_i len prefixLen hl
    split at h
    · cases h
    split at h
    · cases h
    cases h
    exact ⟨len, prefixLen, hl, by omega, by omega, rfl, rfl⟩

theorem decode_eq_error {e : IoError} {rest : Bytes} (h : decode src = (.error e, rest)) :
    (readPrefix 0 0 (src.take maxVarintBytes) = .malformed ∧ e = .malformedLength) ∨
      ∃ len prefixLen, readPrefix 0 0 (src.take maxVarintBytes) = .length len prefixLen ∧
        maxFrameSize < len ∧ e = .frameTooLarge .invalidData := by
  unfold decode at h
  split at h
  · rename_i hl
    cases h
    exact .inl ⟨hl, rfl⟩
  · rename_i hl
    split at h
    · rename_i hle
      refine absurd hl (readPrefix_ne_unfinished (by decide) ?_)
      rw [List.length_take]
      unfold maxVarintBytes at hle ⊢
      omega
    · cases h
  · rename_i len prefixLen hl
    split at h
    · rename_i hla
      cases h
      exact .inr ⟨len, prefixLen, hl, hla, rfl⟩
    · split at h <;> cases h

theorem decode_eq_none {rest : Bytes} (h : decode src = (.ok none, rest)) : rest = src := by
  unfold decode at h
  split at h
  · cases h
  · split at h
    · cases h
    · cases h
      rfl
  · split at h
    · cases h
    · split at h
      · cases h
        rfl
      · cases h

theorem malformed_or_above {e : IoError} {rest : Bytes} (h : decode src = (.error e, rest)) :
    MalformedLength src ∨ LengthAbove src := by
  -- What is looked at begins the input.
  have hw : ∀ {groups : Bytes} {last : UInt8} {more : Bytes},
      src.take maxVarintBytes = groups ++ last :: more →
        src = groups ++ last :: (more ++ src.drop maxVarintBytes) := by
    intro groups last more hb
    calc src = src.take maxVarintBytes ++ src.drop maxVarintBytes :=
          (List.take_append_drop _ _).symm
      _ = groups ++ last :: (more ++ src.drop maxVarintBytes) := by
          rw [hb, List.append_assoc, List.cons_append]
  rcases decode_eq_error h with ⟨hlo, -⟩ | ⟨len, prefixLen, hlo, hla, -⟩
  · obtain ⟨groups, last, more, hb, hle, hg, hl⟩ := readPrefix_eq_malformed hlo
    exact .inl ⟨groups, last, _, hw hb, by omega, hg, hl⟩
  · obtain ⟨groups, last, more, hb, hle, hg, hl, hlen⟩ :=
      readPrefix_eq_length (by decide) (by decide) hlo
    exact .inr ⟨groups, last, _, hw hb, by omega, hg, hl, by omega⟩

theorem take_append_of_ne_unfinished {more : Bytes}
    (h : readPrefix 0 0 (src.take maxVarintBytes) ≠ .unfinished) :
    readPrefix 0 0 ((src ++ more).take maxVarintBytes) =
      readPrefix 0 0 (src.take maxVarintBytes) := by
  rw [List.take_append]
  exact readPrefix_append h _

theorem decode_frame_append {frame rest : Bytes} (h : decode src = (.ok (some frame), rest))
    (more : Bytes) : decode (src ++ more) = (.ok (some frame), rest ++ more) := by
  obtain ⟨len, prefixLen, hlo, hf, hw, rfl, rfl⟩ := decode_eq_frame h
  have hl' : readPrefix 0 0 ((src ++ more).take maxVarintBytes) = .length len prefixLen := by
    rw [take_append_of_ne_unfinished (by rw [hlo]; exact fun h => nomatch h), hlo]
  have hd : (src ++ more).drop prefixLen = src.drop prefixLen ++ more :=
    List.drop_append_of_le_length (by omega)
  have hl : len ≤ (src.drop prefixLen).length := by
    rw [List.length_drop]
    omega
  rw [decode_of_length hl' hf (by rw [List.length_append]; omega), hd,
    List.take_append_of_le_length hl, List.drop_append_of_le_length hl]

theorem decode_error_append {e : IoError} {rest : Bytes} (h : decode src = (.error e, rest))
    (more : Bytes) : decode (src ++ more) = (.error e, src ++ more) := by
  rcases decode_eq_error h with ⟨hl, rfl⟩ | ⟨len, prefixLen, hl, hla, rfl⟩
  · unfold decode
    rw [take_append_of_ne_unfinished (by rw [hl]; exact fun h => nomatch h), hl]
  · unfold decode
    rw [take_append_of_ne_unfinished (by rw [hl]; exact fun h => nomatch h), hl]
    dsimp only
    rw [if_pos hla]

theorem decode_encode {frame : Bytes} (hf : frame.length ≤ maxFrameSize) (rest : Bytes) :
    decode (varint frame.length ++ frame ++ rest) = (.ok (some frame), rest) := by
  have hle := length_varint hf
  have hl : readPrefix 0 0 ((varint frame.length ++ frame ++ rest).take maxVarintBytes) =
      .length frame.length (varint frame.length).length := by
    rw [List.append_assoc, List.take_append, List.take_of_length_le (by
      unfold maxVarintBytes
      omega)]
    have hr : readPrefix 0 0 (varintGroups frame.length frame.length ++
        (frame ++ rest).take (maxVarintBytes - (varint frame.length).length)) = _ :=
      readPrefix_varintGroups (le_refl frame.length) (by decide) (by decide)
        (hf.trans_lt (by decide))
    simpa [varint] using hr
  rw [decode_of_length hl hf (by rw [List.length_append, List.length_append]; omega),
    List.append_assoc, List.drop_left, List.take_left, List.drop_left]

/-- The frames of a session. -/
def frameCodec : Stream.FrameCodec UInt8 Bytes SessionEnd where
  decode := Established.decodeFrame
  encode frame := varint frame.length ++ frame
  Fits frame := frame.length ≤ maxFrameSize
  decode_nil := rfl
  decode_encode frame rest hfits := by
    unfold Established.decodeFrame
    rw [decode_encode hfits rest]
  frame_append := by
    intro src frame rest h more
    unfold Established.decodeFrame at h ⊢
    rcases hdecode : decode src with ⟨e | found, left⟩ <;> rw [hdecode] at h <;> cases h
    rw [decode_frame_append hdecode more]
  error_append := by
    intro src e rest h more
    unfold Established.decodeFrame at h ⊢
    rcases hdecode : decode src with ⟨e | found, left⟩ <;> rw [hdecode] at h <;> cases h
    exact ⟨_, by rw [decode_error_append hdecode more]⟩
  none_rest := by
    intro src rest h
    unfold Established.decodeFrame at h
    rcases hdecode : decode src with ⟨e | found, left⟩ <;> rw [hdecode] at h <;> cases h
    exact decode_eq_none hdecode

end Frames

/-! ### Messages -/

section Messages

variable {codecs : Codecs}

theorem AppMessageType.fromByte_byte (kind : AppMessageType) :
    AppMessageType.fromByte kind.byte = some kind := by
  cases kind <;> rfl

/-- The first byte of a message is none of the bytes of control frames and not that of the upgrade
frame. -/
theorem AppMessageType.byte_plain (kind : AppMessageType) :
    Control.parse kind.byte = none ∧ kind.byte ≠ 0xfa := by
  cases kind <;> exact ⟨rfl, by decide⟩

theorem AppMessage.parse_sendBytes (message : AppMessage) :
    AppMessage.parse message.sendBytes = .ok message := by
  unfold AppMessage.parse AppMessage.sendBytes
  dsimp only
  rw [AppMessageType.fromByte_byte]
  dsimp only
  rw [dif_neg fun h => h.2 (message.keepAlive h.1)]

theorem openEnvelope_envelope (hl : codecs.Lawful) {data : Bytes} {m : CompressMessage}
    (h : envelope codecs data true = .ok m) :
    ∃ compressed, m = ⟨CompressType.snappy.code, compressed⟩ ∧ openEnvelope codecs m = .ok data := by
  unfold envelope at h
  split at h
  · cases h
  rename_i hs
  rw [if_pos rfl] at h
  split at h
  · rename_i compressed hc
    cases h
    obtain ⟨hle, hd⟩ := hl.decompress data compressed hc
    refine ⟨compressed, rfl, ?_⟩
    have ht : CompressType.ofCode CompressType.snappy.code = some .snappy := rfl
    unfold openEnvelope
    dsimp only
    rw [ht, hle]
    dsimp only
    rw [if_neg hs, hd]
  · cases h

namespace Established

/-- The frame of a message is opened to the message, and begins like no control frame. -/
theorem openFrame_messageFrame (hl : codecs.Lawful) {compressed : Bool} {message : AppMessage}
    {frame : Bytes} (h : messageFrame codecs compressed message.sendBytes = .ok frame) :
    openFrame codecs compressed frame = .ok message.sendBytes ∧
      frame.head?.bind Control.parse = none ∧ frame.head? ≠ some 0xfa := by
  unfold messageFrame at h
  unfold openFrame
  cases compressed with
  | false =>
    rw [if_neg (by decide)] at h ⊢
    cases h
    obtain ⟨hc, hu⟩ := message.kind.byte_plain
    exact ⟨rfl, hc, fun h => hu (Option.some.inj h)⟩
  | true =>
    rw [if_pos rfl] at h ⊢
    split at h
    · rename_i m he
      cases h
      obtain ⟨data, rfl, ho⟩ := openEnvelope_envelope hl he
      rw [hl.compressMessage]
      dsimp only
      rw [ho]
      -- An envelope begins with the tag of its type, which is not the default.
      exact ⟨rfl, rfl, fun h => absurd (Option.some.inj h) (by decide)⟩
    · cases h

end Established

end Messages

/-! ### Delivery -/

/-- What an established session sends while it is not ended: a message, or a keep-alive. -/
inductive Sent where
  | message (message : AppMessage)
  | ping (ping : KeepAliveMessage)
  | pong (pong : KeepAliveMessage)

/-- The message of the application, if it is one. -/
def Sent.appMessage : Sent → Option AppMessage
  | .message m => some m
  | .ping _ => none
  | .pong _ => none

def SessionEvent.appMessage : SessionEvent → Except AppMessageError (Option AppMessage)
  | .message frame => (AppMessage.parse frame).map some
  | _ => .ok none

namespace Established

/-- One item is sent. -/
def send (codecs : Codecs) (s : Established) : Sent → Except SessionError Unit × Established
  | .message m => s.sendAppMessage codecs m
  | .ping k => s.sendControl .keepAlivePing k.encodeToVec
  | .pong k => s.sendControl .keepAlivePong k.encodeToVec

/-- Items are sent one after the other, each with the result `Ok`. -/
inductive Sends (codecs : Codecs) : Established → List Sent → Established → Prop
  | nil (s : Established) : Sends codecs s [] s
  | cons {s mid last : Established} {item : Sent} {items : List Sent} :
    send codecs s item = (.ok (), mid) → Sends codecs mid items last →
      Sends codecs s (item :: items) last

section Delivery

variable {codecs : Codecs} {s t : Established}

theorem writeFrame_eq_ok {frame : Bytes} (h : s.writeFrame frame = (.ok (), t)) :
    frame.length ≤ maxFrameSize ∧
      t = { s with written := s.written ++ (varint frame.length ++ frame) } := by
  unfold writeFrame encode at h
  by_cases hl : maxFrameSize < frame.length
  · rw [if_pos hl] at h
    cases h
  · rw [if_neg hl] at h
    cases h
    exact ⟨not_lt.mp hl, rfl⟩

theorem writeFrame_of_fits {frame : Bytes} (h : frame.length ≤ maxFrameSize) :
    s.writeFrame frame =
      (.ok (), { s with written := s.written ++ (varint frame.length ++ frame) }) := by
  unfold writeFrame encode
  rw [if_neg (not_lt.mpr h)]

/-- The other end handles a frame and emits an item. -/
def Emits (codecs : Codecs) (r : Established) (frame : Bytes) (item : Sent) : Prop :=
  ∃ r' event, handleFrame codecs r frame = (.ok (), r') ∧ r'.compressed = r.compressed ∧
    r'.events = r.events ++ [event] ∧ event.appMessage = .ok item.appMessage

theorem handleFrame_message (hl : codecs.Lawful) {r : Established} {frame : Bytes}
    {m : AppMessage} (h : messageFrame codecs r.compressed m.sendBytes = .ok frame) :
    handleFrame codecs r frame = (.ok (), r.emit (.message m.sendBytes)) := by
  obtain ⟨ho, hc, hu⟩ := openFrame_messageFrame hl h
  unfold handleFrame
  rw [hc]
  dsimp only
  rw [if_neg hu, ho]

theorem handleFrame_ping (hl : codecs.Lawful) {r : Established} (k : KeepAliveMessage)
    (h : (Control.keepAlivePong.byte :: k.encodeToVec).length ≤ maxFrameSize) :
    ∃ written, handleFrame codecs r (Control.keepAlivePing.byte :: k.encodeToVec) =
      (.ok (), emit { r with written := written } (.ping k.timestamp)) := by
  have hc : (Control.keepAlivePing.byte :: k.encodeToVec).head?.bind Control.parse =
      some .keepAlivePing := rfl
  let pong := Control.keepAlivePong.byte :: k.encodeToVec
  refine ⟨r.written ++ (varint pong.length ++ pong), ?_⟩
  unfold handleFrame
  rw [hc]
  dsimp only
  rw [List.tail_cons, hl.keepAlive]
  dsimp only
  rw [sendControl, writeFrame_of_fits h]

theorem handleFrame_pong (hl : codecs.Lawful) {r : Established} (k : KeepAliveMessage) :
    ∃ awaiting, handleFrame codecs r (Control.keepAlivePong.byte :: k.encodeToVec) =
      (.ok (), emit { r with awaitingPong := awaiting } (.pong k.timestamp)) := by
  have hc : (Control.keepAlivePong.byte :: k.encodeToVec).head?.bind Control.parse =
      some .keepAlivePong := rfl
  refine ⟨if r.awaitingPong = some k.timestamp then none else r.awaitingPong, ?_⟩
  unfold handleFrame
  rw [hc]
  dsimp only
  rw [List.tail_cons, hl.keepAlive]
  dsimp only
  split <;> rfl

theorem send_eq_ok (hl : codecs.Lawful) {item : Sent} (h : send codecs s item = (.ok (), t)) :
    ∃ frame, frame.length ≤ maxFrameSize ∧
      t = { s with written := s.written ++ (varint frame.length ++ frame) } ∧
        ∀ r : Established, r.compressed = s.compressed → Emits codecs r frame item := by
  cases item with
  | message m =>
    unfold send sendAppMessage sendMessage at h
    dsimp only at h
    split at h
    · rename_i frame hfr
      obtain ⟨hf, rfl⟩ := writeFrame_eq_ok h
      refine ⟨frame, hf, rfl, fun r hr => ?_⟩
      have hh := handleFrame_message hl (r := r) (hr ▸ hfr)
      refine ⟨_, _, hh, rfl, rfl, ?_⟩
      change Except.map some (AppMessage.parse m.sendBytes) = _
      rw [m.parse_sendBytes]
      rfl
    · cases h
  | ping k =>
    obtain ⟨hf, rfl⟩ := writeFrame_eq_ok h
    refine ⟨_, hf, rfl, fun r _ => ?_⟩
    obtain ⟨written, hh⟩ := handleFrame_ping hl (r := r) k hf
    exact ⟨_, _, hh, rfl, rfl, rfl⟩
  | pong k =>
    obtain ⟨hf, rfl⟩ := writeFrame_eq_ok h
    refine ⟨_, hf, rfl, fun r _ => ?_⟩
    obtain ⟨awaiting, hh⟩ := handleFrame_pong hl (r := r) k
    exact ⟨_, _, hh, rfl, rfl, rfl⟩

/-- What is written for items is their frames, which the other end handles in turn. -/
theorem Sends.frames (hl : codecs.Lawful) {items : List Sent} (h : Sends codecs s items t) :
    ∃ frames, (∀ frame ∈ frames, frameCodec.Fits frame) ∧
      t.written = s.written ++ frameCodec.encodeAll frames ∧
        ∀ r : Established, r.compressed = s.compressed →
          ∃ r', Stream.Handles (handleFrame codecs) r frames r' ∧
            r'.events.map SessionEvent.appMessage =
              r.events.map SessionEvent.appMessage ++ items.map fun item => .ok item.appMessage := by
  induction h with
  | nil s =>
    refine ⟨[], fun _ h => (nomatch h), (List.append_nil _).symm, fun r _ => ⟨r, .nil r, ?_⟩⟩
    exact (List.append_nil _).symm
  | cons hs _ ih =>
    obtain ⟨frame, hfi, rfl, hem⟩ := send_eq_ok hl hs
    obtain ⟨frames, hfr, hw, hre⟩ := ih
    refine ⟨frame :: frames, ?_, ?_, fun r hr => ?_⟩
    · rintro f (_ | ⟨_, hf⟩)
      · exact hfi
      · exact hfr f hf
    · rw [hw, Stream.FrameCodec.encodeAll, Stream.FrameCodec.encodeAll, List.flatMap_cons,
        List.append_assoc]
      rfl
    · obtain ⟨r₁, event, hha, hc, he, hev⟩ := hem r hr
      obtain ⟨r₂, hh, ha⟩ := hre r₁ (hc.trans hr)
      refine ⟨r₂, .cons hha hh, ?_⟩
      rw [ha, he, List.map_append, List.append_assoc, List.map_singleton, hev,
        List.map_cons, List.singleton_append]

/-- **The transport delivers what was sent.** However the bytes that the items were written as are
cut, the other end, which agreed on the same compression, handles them without an error and without
anything left, and emits the items in their order; no message begins like a control or the upgrade
frame. The decoder takes nothing when it has no frame, and turns a stream down only for a length. -/
theorem delivers (hlawful : codecs.Lawful) {items : List Sent} (hsends : Sends codecs s items t)
    (receiver : Established) (hcompressed : receiver.compressed = s.compressed)
    (chunks : List Bytes) (hcut : s.written ++ chunks.flatten = t.written) :
    (∃ r, receiveAll codecs receiver [] chunks = (.ok (), r, []) ∧
      r.events.map SessionEvent.appMessage =
        receiver.events.map SessionEvent.appMessage ++ items.map fun item => .ok item.appMessage) ∧
      (∀ (m : AppMessage) frame, messageFrame codecs s.compressed m.sendBytes = .ok frame →
        frame.head?.bind Control.parse = none ∧ frame.head? ≠ some 0xfa) ∧
      (∀ src rest, decode src = (.ok none, rest) → rest = src) ∧
      ∀ src e rest, decode src = (.error e, rest) → MalformedLength src ∨ LengthAbove src := by
  refine ⟨?_, fun m frame h => (openFrame_messageFrame hlawful h).2, fun _ _ => decode_eq_none,
    fun _ _ _ => malformed_or_above⟩
  obtain ⟨frames, hfits, hwritten, hrest⟩ := hsends.frames hlawful
  obtain ⟨r, hhandles, hevents⟩ := hrest receiver hcompressed
  refine ⟨r, ?_, hevents⟩
  apply frameCodec.feedAll_encode hfits ?_ frameCodec.decode_nil hhandles
  exact List.append_cancel_left (hcut.trans hwritten)

end Delivery

/-! #### A short conversation -/

/-- A varint is read. -/
def readVarint : Bytes → Option (Nat × Bytes)
  | [] => none
  | b :: bytes =>
    if b.toNat < 128 then some (b.toNat, bytes)
    else (readVarint bytes).map fun r => (b.toNat - 128 + 128 * r.1, r.2)

theorem readVarint_varintGroups {rest : Bytes} :
    ∀ {fuel n : Nat}, n ≤ fuel → readVarint (varintGroups fuel n ++ rest) = some (n, rest) := by
  intro fuel
  induction fuel with
  | zero =>
    intro n hn
    obtain rfl : n = 0 := Nat.le_zero.mp hn
    rfl
  | succ fuel ih =>
    intro n hn
    by_cases hlt : n < 128
    · rw [varintGroups_of_lt _ hlt, List.singleton_append, readVarint,
        toNat_ofNat_of_lt (by omega), if_pos hlt]
    · rw [varintGroups, if_neg hlt, List.cons_append, readVarint, toNat_ofNat_of_lt (by omega),
        if_neg (by omega), ih (by omega), Option.map_some]
      congr 2
      omega

/-- The first field of a message, a number. -/
def readNumberField : Bytes → Option (Nat × Bytes)
  | 0x08 :: bytes => readVarint bytes
  | bytes => some (0, bytes)

/-- Decoders for messages without unknown fields, and a compression of short messages, which it
writes as one literal. -/
def shortCodecs : Codecs where
  decodeKeepAlive bytes :=
    match readNumberField bytes with
    | some (n, []) =>
      let timestamp : Int := if n < 2 ^ 63 then n else n - 2 ^ 64
      if h : InI64 timestamp then some ⟨timestamp, h⟩ else none
    | _ => none
  decodeDisconnect bytes :=
    match readNumberField bytes with
    | some (n, []) => some n
    | _ => none
  decodeCompress bytes :=
    match readNumberField bytes with
    | some (type, []) => some ⟨type, []⟩
    | some (type, 0x12 :: field) =>
      match readVarint field with
      | some (len, data) => if data.length = len then some ⟨type, data⟩ else none
      | none => none
    | _ => none
  compress data :=
    if 60 < data.length then none
    else if data = [] then some [0]
    else some (UInt8.ofNat data.length :: UInt8.ofNat (4 * (data.length - 1)) :: data)
  decompressLen bytes := bytes.head?.map UInt8.toNat
  decompress bytes := some (bytes.drop 2)

theorem readNumberField_numberField (n : Nat) {rest : Bytes} (hr : rest.head? ≠ some 0x08) :
    readNumberField (numberField 0x08 n ++ rest) = some (n, rest) := by
  unfold numberField
  split
  · next h =>
    subst h
    rw [List.nil_append]
    unfold readNumberField
    split
    · exact absurd rfl hr
    · rfl
  · exact readVarint_varintGroups le_rfl

theorem lawful_shortCodecs : shortCodecs.Lawful where
  keepAlive message := by
    obtain ⟨timestamp, hra⟩ := message
    have hr : readNumberField (numberField 0x08 (timestamp % 2 ^ 64).toNat ++ []) = _ :=
      readNumberField_numberField _ fun h => nomatch h
    rw [List.append_nil] at hr
    have hv : (if (timestamp % 2 ^ 64).toNat < 2 ^ 63 then ((timestamp % 2 ^ 64).toNat : Int)
        else (timestamp % 2 ^ 64).toNat - 2 ^ 64) = timestamp := by
      simp only [InI64, i64Min, i64Max] at hra
      split <;> omega
    unfold shortCodecs KeepAliveMessage.encodeToVec
    dsimp only
    rw [hr]
    dsimp only
    rw [dif_pos (by rw [hv]; exact hra)]
    simp only [hv]
  compressMessage type data := by
    have hc : (((type.code % 2 ^ 64).toNat : Nat) : Int) = type.code := by
      cases type <;> rfl
    have ht : (bytesField 0x12 data).head? ≠ some 0x08 := by
      unfold bytesField Consensus.Pbft.presentField
      split
      · exact fun h => nomatch h
      · exact fun h => absurd (Option.some.inj h) (by decide)
    unfold shortCodecs CompressMessage.encodeToVec
    dsimp only
    rw [readNumberField_numberField _ ht]
    by_cases hd : data = []
    · subst hd
      rw [bytesField, if_pos rfl]
      dsimp only
      rw [hc]
    · rw [bytesField, if_neg hd, Consensus.Pbft.presentField]
      have hr : readVarint (varint data.length ++ data) = some (data.length, data) :=
        readVarint_varintGroups le_rfl
      simp only [hr, hc, if_true]
  decompress data compressed h := by
    unfold shortCodecs at h ⊢
    dsimp only at h ⊢
    split at h
    · cases h
    rename_i hs
    split at h
    · next hn =>
      cases h
      subst hn
      exact ⟨rfl, rfl⟩
    · cases h
      refine ⟨?_, rfl⟩
      rw [List.head?_cons, Option.map_some, toNat_ofNat_of_lt (by omega)]

/-- A ping of the application, a keep-alive, and a block. -/
def conversation : List Sent :=
  [.message ⟨.ping, [0xc0], fun _ => rfl⟩, .ping ⟨7, by decide⟩,
    .message ⟨.block, [1, 2, 3], fun h => absurd h (by decide)⟩]

/-- The bytes of the conversation, with compression. -/
def conversationBytes : Bytes :=
  [8, 0x08, 1, 0x12, 4, 2, 4, 0x22, 0xc0, 3, 0xff, 0x08, 7, 10, 0x08, 1, 0x12, 6, 4, 12, 0x02, 1, 2,
    3]

theorem delivers_conversation :
    ∃ r, receiveAll shortCodecs ⟨true, none, [], []⟩ [] (conversationBytes.map fun b => [b]) =
        (.ok (), r, []) ∧
      r.events.map SessionEvent.appMessage = conversation.map fun item => .ok item.appMessage := by
  have hsends : Sends shortCodecs ⟨true, none, [], []⟩ conversation
      ⟨true, none, [], conversationBytes⟩ := by
    exact .cons rfl (.cons rfl (.cons rfl (.nil _)))
  exact (delivers lawful_shortCodecs hsends ⟨true, none, [], []⟩ rfl
    (conversationBytes.map fun b => [b]) (by decide)).1

end Established

end RustTron.Network
