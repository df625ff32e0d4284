import Mathlib
import SolBroker.Lib.Framing
import SolBroker.Wire.Payload

/-!
# Where a packet ends

A control packet is a header byte, a length field, and as many bytes as the field says. No
packet begins another, so a stream of packets can be cut into them in one way only. What the
pack functions return is a block of the size of its packet, whatever the lengths recorded in
it; a PUBLISH fills its block exactly if topic and payload are as long as recorded.
-/

namespace SolBroker

open Framing

/-- The control packets, byte by byte. -/
def controlPackets : Set (List UInt8) :=
  { bytes | ∃ byte body, body.length < 2 ^ 28 ∧
      bytes = byte :: (mqttEncodeLength body.length ++ body) }

/-- The length field says where a packet ends. -/
theorem instantaneous_controlPackets : Instantaneous controlPackets := by
  rintro x ⟨byte, body, fits, rfl⟩ y ⟨byte', body', fits', rfl⟩ ⟨rest, same⟩
  rw [List.cons_append, List.cons.injEq, List.append_assoc] at same
  obtain ⟨rfl, same⟩ := same
  have first := mqttDecodeLength_encode fits (body ++ rest)
  have second := mqttDecodeLength_encode fits' body'
  rw [same, second] at first
  obtain ⟨length, tail⟩ := Prod.mk.inj (Except.ok.inj first)
  have none_ : rest = [] := by
    have lengths := congrArg List.length tail
    rw [List.length_append] at lengths
    exact List.length_eq_zero_iff.mp (by omega)
  rw [none_, List.append_nil] at tail
  rw [tail]

theorem nil_notMem_controlPackets : [] ∉ controlPackets := by
  rintro ⟨_, _, _, same⟩
  cases same

/-! ## Blocks -/

namespace Packed

/-- The block has the size of the packet that it begins with. -/
structure OnePacket (p : Packed) : Prop where
  fits : p.written.length ≤ p.size
  framed : ∃ byte len body, len < 2 ^ 28 ∧ p.written = byte :: (mqttEncodeLength len ++ body) ∧
    p.size = 1 + (mqttEncodeLength len).length + len

variable {p : Packed}

theorem OnePacket.exists_holds (one : p.OnePacket) : ∃ bytes, p.Holds bytes := by
  refine ⟨p.written ++ List.replicate (p.size - p.written.length) 0, ?_, List.prefix_append ..⟩
  rw [List.length_append, List.length_replicate]
  have fits := one.fits
  omega

/-- Whatever the memory was before, the block is a packet. -/
theorem OnePacket.holds_mem (one : p.OnePacket) {bytes : List UInt8} (holds : p.Holds bytes) :
    bytes ∈ controlPackets := by
  obtain ⟨byte, len, body, small, written, size⟩ := one.framed
  obtain ⟨length, rest, same⟩ := holds
  rw [written, List.cons_append, List.append_assoc] at same
  have whole : (body ++ rest).length = len := by
    have lengths := congrArg List.length same
    rw [List.length_cons, List.length_append, length, size] at lengths
    omega
  exact ⟨byte, body ++ rest, whole.symm ▸ small, by rw [whole, same]⟩

/-- A packet that has been written to its end. -/
theorem onePacket_of_mem {bytes : List UInt8} (packet : bytes ∈ controlPackets) {size : Nat}
    (full : size = bytes.length) : (⟨size, bytes⟩ : Packed).OnePacket := by
  obtain ⟨byte, body, small, rfl⟩ := packet
  refine ⟨full.ge, byte, body.length, body, small, rfl, ?_⟩
  show size = _
  rw [full, List.length_cons, List.length_append]
  omega

end Packed

/-! ## Writers -/

/-- The writer keeps to its block. -/
def KeepsWithin (writer : ByteWriter Unit) : Prop :=
  ∀ p u p', p.written.length ≤ p.size → writer p = .ok (u, p') → p'.written.length ≤ p'.size

namespace KeepsWithin

theorem put (bytes : List UInt8) : KeepsWithin (SolBroker.put bytes) := by
  intro p u p' _ run
  rw [SolBroker.put] at run
  split at run
  · rename_i fits
    cases run
    rwa [List.length_append]
  · cases run

theorem packU16If (flag : Bool) (val : UInt16) : KeepsWithin (SolBroker.packU16If flag val) := by
  cases flag with
  | true => exact put _
  | false =>
      intro p u p' within run
      cases run
      exact within

theorem seq {first second : ByteWriter Unit} (hfirst : KeepsWithin first)
    (hsecond : KeepsWithin second) : KeepsWithin (do first; second) := by
  intro p u p' within run
  change (first p >>= fun r => second r.2) = _ at run
  obtain ⟨⟨u₁, p₁⟩, ran, rest⟩ := bind_eq_ok.mp run
  exact hsecond p₁ u p' (hfirst p u₁ p₁ within ran) rest

theorem packInto {writer : ByteWriter Unit} (within : KeepsWithin writer) {size : Nat}
    {packed : Packed} (run : packInto size writer = .ok packed) :
    packed.written.length ≤ packed.size := by
  rw [SolBroker.packInto] at run
  cases ran : writer ⟨size, []⟩ with
  | error e =>
      rw [ran] at run
      cases run
  | ok r =>
      rw [ran] at run
      cases run
      exact within _ r.1 r.2 (Nat.zero_le _) ran

end KeepsWithin

/-! ## What is packed -/

/-- An acknowledgement, or any packet with two bytes after its length. -/
theorem onePacket_four (byte a b : UInt8) : (⟨4, [byte, 2, a, b]⟩ : Packed).OnePacket ∧
    (⟨4, [byte, 2, a, b]⟩ : Packed).Determined := by
  have length : mqttEncodeLength [a, b].length = [2] := by
    show mqttEncodeLength 2 = [2]
    decide
  refine ⟨Packed.onePacket_of_mem ⟨byte, [a, b], ?_, ?_⟩ rfl, ?_⟩
  · show 2 < 2 ^ 28
    decide
  · rw [length]
    rfl
  · rw [Packed.determined_iff]
    exact le_rfl

/-- A SUBACK that is packed fills its block. -/
theorem packMqttSuback_onePacket {pkt : MqttSuback} {packed : Packed}
    (counted : pkt.rcs.length = pkt.rcslen.toNat) (packs : packMqttSuback pkt = .ok packed) :
    packed.OnePacket ∧ packed.Determined := by
  rw [packMqttSuback_eq pkt counted] at packs
  split at packs
  · rename_i few
    cases packs
    have small : 2 + pkt.rcslen.toNat < 2 ^ 28 := by omega
    have width : (mqttEncodeLength (2 + pkt.rcslen.toNat)).length = 1 := by
      rw [length_mqttEncodeLength small, if_pos (by omega)]
    have length : (u16Bytes pkt.pktId ++ pkt.rcs).length = 2 + pkt.rcslen.toNat := by
      rw [List.length_append, length_u16Bytes, counted]
    have full : mqttHeaderLen + 2 + pkt.rcslen.toNat = ([pkt.header.byte] ++
        (mqttEncodeLength (2 + pkt.rcslen.toNat) ++ (u16Bytes pkt.pktId ++ pkt.rcs))).length := by
      rw [List.length_append, List.length_append, length, width, List.length_singleton,
        mqttHeaderLen]
      omega
    refine ⟨Packed.onePacket_of_mem
      ⟨pkt.header.byte, u16Bytes pkt.pktId ++ pkt.rcs, ?_, ?_⟩ full, ?_⟩
    · rw [length]
      exact small
    · rw [length]
      rfl
    · rw [Packed.determined_iff]
      exact full.le
  · cases packs

/-- Topic and payload, up to their first NUL, have the lengths that are recorded. -/
def MqttPublish.Filled (pkt : MqttPublish) : Prop :=
  (cstr pkt.topic).bytes.length + (cstr pkt.payload).bytes.length =
    pkt.topiclen.toNat + pkt.payloadlen.toNat

instance (pkt : MqttPublish) : Decidable pkt.Filled :=
  inferInstanceAs (Decidable (_ = _))

section Publish

variable {pkt : MqttPublish} {packed : Packed}

/-- For a packet with consistent lengths this means that there is no NUL in it. -/
theorem MqttPublish.filled_iff (topicLen : pkt.topiclen.toNat = pkt.topic.length)
    (payloadLen : pkt.payloadlen.toNat = pkt.payload.length) :
    pkt.Filled ↔ 0 ∉ pkt.topic ∧ 0 ∉ pkt.payload := by
  have topic := cstr_length_le pkt.topic
  have payload := cstr_length_le pkt.payload
  rw [MqttPublish.Filled, topicLen, payloadLen]
  constructor
  · intro filled
    refine ⟨fun nul => ?_, fun nul => ?_⟩
    · have shorter := cstr_length_lt nul
      omega
    · have shorter := cstr_length_lt nul
      omega
  · rintro ⟨topicNulFree, payloadNulFree⟩
    rw [cstr_bytes_of_nulFree topicNulFree, cstr_bytes_of_nulFree payloadNulFree]

/-- A decoded packet is one of these. -/
theorem unpackMqttPublish_filled_iff {hdr : MqttHeader} {buf left : List UInt8} {len : UInt64}
    (run : unpackMqttPublish hdr buf = .ok ((len, .publish pkt), left)) :
    pkt.Filled ↔ 0 ∉ pkt.topic ∧ 0 ∉ pkt.payload := by
  obtain ⟨n, rest, topic, pktId, payload, _, _, fits, _, length, same, _⟩ :=
    unpackMqttPublish_eq_ok_iff.mp run
  cases same
  exact MqttPublish.filled_iff (UInt16.toNat_ofNat_of_lt' fits) length.symm

theorem packMqttPublish_within (packs : packMqttPublish pkt = .ok packed) :
    packed.written.length ≤ packed.size := by
  have within : KeepsWithin (do
      packU8 pkt.header.byte
      put (mqttEncodeLength (publishRemaining pkt))
      packU16 pkt.topiclen
      packBytes pkt.topic
      packU16If (atMostOnce < pkt.header.qos) pkt.pktId
      packBytes pkt.payload) :=
    .seq (.put _) (.seq (.put _) (.seq (.put _) (.seq (.put _) (.seq (.packU16If _ _) (.put _)))))
  rw [packMqttPublish] at packs
  simp only [publishRemaining_eq_sub] at packs
  exact within.packInto packs

/-- The size of the block of a PUBLISH. -/
theorem packMqttPublish_size (packs : packMqttPublish pkt = .ok packed) :
    packed.size = 1 + (mqttEncodeLength (publishRemaining pkt)).length + publishRemaining pkt := by
  rw [packMqttPublish_bytes packs, length_mqttEncodeLength_eq_offset (publishRemaining_lt pkt)]
  show publishLen pkt + remaininglenOffset (publishLen pkt) = _
  rw [publishLen_eq, mqttHeaderLen]
  omega

theorem packMqttPublish_onePacket (packs : packMqttPublish pkt = .ok packed) :
    packed.OnePacket := by
  have written := congrArg Packed.written (packMqttPublish_bytes packs)
  exact ⟨packMqttPublish_within packs, pkt.header.byte, publishRemaining pkt, _,
    publishRemaining_lt pkt, written, packMqttPublish_size packs⟩

/-- What is missing at the end of the block is what topic and payload fall short of. -/
theorem packMqttPublish_missing (packs : packMqttPublish pkt = .ok packed) :
    packed.written.length + (pkt.topiclen.toNat + pkt.payloadlen.toNat) =
      packed.size + ((cstr pkt.topic).bytes.length + (cstr pkt.payload).bytes.length) := by
  have length : packed.written.length = 1 + (mqttEncodeLength (publishRemaining pkt)).length + 2 +
      (cstr pkt.topic).bytes.length + (cstr pkt.payload).bytes.length +
        (if atMostOnce < pkt.header.qos then 2 else 0) := by
    rw [packMqttPublish_bytes packs]
    simp only [publishBytes, List.length_append, List.length_singleton, length_u16Bytes]
    by_cases acknowledged : atMostOnce < pkt.header.qos <;> simp [acknowledged] <;> omega
  rw [length, packMqttPublish_size packs]
  unfold publishRemaining
  omega

theorem packMqttPublish_returns_iff : (∃ packed, packMqttPublish pkt = .ok packed) ↔ pkt.Fits := by
  constructor
  · rintro ⟨packed, packs⟩
    have within := packMqttPublish_within packs
    have missing := packMqttPublish_missing packs
    rw [MqttPublish.Fits]
    omega
  · exact fun fits => ⟨_, fits.packs⟩

/-- A PUBLISH is written to the end of its block exactly if its lengths are right. -/
theorem packMqttPublish_determined_iff (packs : packMqttPublish pkt = .ok packed) :
    packed.Determined ↔ pkt.Filled := by
  have within := packMqttPublish_within packs
  have missing := packMqttPublish_missing packs
  rw [Packed.determined_iff, MqttPublish.Filled]
  omega

end Publish

end SolBroker
