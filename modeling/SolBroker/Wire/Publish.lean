import Mathlib
import SolBroker.Wire.Encode

/-!
# PUBLISH there and back

A `PublishValue` is a PUBLISH packet whose recorded lengths are those of its topic
and payload. Packing and unpacking compute lengths separately, in `size_t` and in
wrapping `uint16_t`, and agree on all of them. What they do not share is how a
payload ends: packing stops at a NUL that unpacking treats as data. The round trip
is exact for the payloads without a NUL and for no others.
-/

namespace SolBroker

open Reading

/-- A PUBLISH packet value with consistent lengths. -/
structure PublishValue where
  packet : MqttPublish
  isPublish : packet.header.isType .publish = true
  qosLegal : packet.header.qos ≤ exactlyOnce
  pktIdZero : packet.header.qos = atMostOnce → packet.pktId = 0
  topicLen : packet.topiclen.toNat = packet.topic.length
  payloadLen : packet.payloadlen.toNat = packet.payload.length
  topicNulFree : 0 ∉ packet.topic

/-- The packed buffer is fully written, and whatever block of memory holds it
unpacks to the same packet. -/
def RoundTrips (pkt : MqttPublish) : Prop :=
  ∃ packed, packMqttPacket (.publish pkt) .publish = .ok packed ∧ packed.Determined ∧
    ∀ bytes, packed.Holds bytes →
      ∃ len, unpackMqttPacket bytes = .ok ((len, .publish pkt), [])

theorem packMqttPacket_publish (pkt : MqttPublish) :
    packMqttPacket (.publish pkt) .publish = packMqttPublish pkt := rfl

/-- A PUBLISH header selects `unpack_mqtt_publish`. -/
theorem unpackMqttPacket_publish {h : MqttHeader} (isPublish : h.isType .publish = true)
    (buf : List UInt8) : unpackMqttPacket (h.byte :: buf) = unpackMqttPublish h buf :=
  unpackMqttPacket_isType isPublish rfl buf

/-- The wrapping computation of the message length gives the payload length. -/
theorem publishMessageLen_publishRemaining (pkt : MqttPublish) :
    publishMessageLen (publishRemaining pkt) pkt.header.qos pkt.topiclen = pkt.payloadlen := by
  have length (extra : Nat) : UInt16.ofNat (2 + pkt.topiclen.toNat + pkt.payloadlen.toNat + extra) =
      2 + pkt.topiclen + pkt.payloadlen + UInt16.ofNat extra := by
    simp only [UInt16.ofNat_add, UInt16.ofNat_toNat]
    rfl
  simp only [publishMessageLen, publishRemaining, length]
  split
  · change 2 + pkt.topiclen + pkt.payloadlen + 2 - 2 - (2 + pkt.topiclen) = _
    rw [add_sub_cancel_right, add_sub_cancel_left]
  · change 2 + pkt.topiclen + pkt.payloadlen + 0 - (2 + pkt.topiclen) = _
    rw [add_zero, add_sub_cancel_left]

namespace PublishValue

variable (p : PublishValue)

/-- What is written after the header byte when the payload has no NUL. -/
def afterHeader : List UInt8 :=
  mqttEncodeLength (publishRemaining p.packet) ++ (string16Bytes p.packet.topic ++
    ((if decide (atMostOnce < p.packet.header.qos) then u16Bytes p.packet.pktId else []) ++
      p.packet.payload))

theorem topiclen_eq : p.packet.topiclen = UInt16.ofNat p.packet.topic.length := by
  rw [← p.topicLen, UInt16.ofNat_toNat]

theorem publishBytes_eq {p : PublishValue} (nulFree : 0 ∉ p.packet.payload) :
    publishBytes p.packet = p.packet.header.byte :: p.afterHeader := by
  rw [publishBytes, cstr_bytes_of_nulFree p.topicNulFree, cstr_bytes_of_nulFree nulFree,
    p.topiclen_eq, afterHeader, string16Bytes, List.singleton_append, List.append_assoc]

/-- Unpacking the written bytes gives the packet back. -/
theorem unpack_afterHeader :
    unpackMqttPublish p.packet.header p.afterHeader =
      .ok ((UInt64.ofNat (publishRemaining p.packet), .publish p.packet), []) := by
  have topicFits : p.packet.topic.length < 65536 := by
    rw [← p.topicLen]
    exact p.packet.topiclen.toNat_lt
  have message : publishMessageLen (publishRemaining p.packet) p.packet.header.qos
      (UInt16.ofNat p.packet.topic.length) = p.packet.payloadlen := by
    rw [← p.topiclen_eq, publishMessageLen_publishRemaining]
  have payload : unpackBytes p.packet.payloadlen.toNat p.packet.payload =
      .ok (p.packet.payload, []) := by
    simpa [p.payloadLen] using unpackBytes_append p.packet.payload []
  rw [unpackMqttPublish, afterHeader, bind_ok (mqttDecodeLength_encode (publishRemaining_lt _) _),
    bind_ok (unpackString16_string16Bytes topicFits _)]
  by_cases acknowledged : atMostOnce < p.packet.header.qos
  · simp only [acknowledged, decide_true, if_true]
    rw [bind_ok (unpackU16_u16Bytes _ _), message, bind_ok payload, ← p.topiclen_eq, pure_apply]
  · have qosZero : p.packet.header.qos = atMostOnce := by
      rw [← UInt8.toNat_inj]
      have := mt UInt8.lt_iff_toNat_lt.mpr acknowledged
      change ¬ 0 < _ at this
      change _ = 0
      omega
    simp only [acknowledged, decide_false, if_false, Bool.false_eq_true, List.nil_append]
    rw [bind_ok (pure_apply _ _), message, bind_ok payload, ← p.topiclen_eq,
      ← p.pktIdZero qosZero, pure_apply]

/-- The packed block is full just when the payload reaches its recorded length. -/
theorem full_iff :
    publishLen p.packet + remaininglenOffset (publishLen p.packet) ≤
        (publishBytes p.packet).length ↔ 0 ∉ p.packet.payload := by
  have width := length_mqttEncodeLength_eq_offset (publishRemaining_lt p.packet)
  have copied : (publishBytes p.packet).length =
      publishLen p.packet + remaininglenOffset (publishLen p.packet) - p.packet.payload.length +
        (cstr p.packet.payload).bytes.length := by
    rw [publishLen_eq]
    simp only [publishBytes, List.length_append, List.length_singleton, width, length_u16Bytes,
      cstr_bytes_of_nulFree p.topicNulFree]
    unfold publishRemaining mqttHeaderLen
    rw [p.topicLen, p.payloadLen]
    by_cases h : atMostOnce < p.packet.header.qos <;> simp [h] <;> omega
  have room : p.packet.payload.length ≤
      publishLen p.packet + remaininglenOffset (publishLen p.packet) := by
    rw [publishLen_eq, publishRemaining, p.payloadLen]
    omega
  constructor
  · intro full nul
    have := cstr_length_lt nul
    omega
  · intro nulFree
    rw [cstr_bytes_of_nulFree nulFree] at copied
    omega

end PublishValue

/-- Packing and unpacking a PUBLISH packet gives it back, from a buffer every byte
of which the packet determines, exactly when its payload has no NUL byte. -/
theorem publish_roundTrips_iff (p : PublishValue) :
    RoundTrips p.packet ↔ 0 ∉ p.packet.payload := by
  have packs := packMqttPublish_eq _ p.topicLen p.payloadLen
  constructor
  · rintro ⟨packed, pack, determined, _⟩
    rw [packMqttPacket_publish, packs] at pack
    cases pack
    rw [Packed.determined_iff] at determined
    exact p.full_iff.mp determined
  · intro nulFree
    have full := p.full_iff.mpr nulFree
    refine ⟨_, (packMqttPacket_publish _).trans packs, (Packed.determined_iff _).mpr full, ?_⟩
    intro bytes holds
    refine ⟨UInt64.ofNat (publishRemaining p.packet), ?_⟩
    rw [holds.eq_written full]
    exact (congrArg unpackMqttPacket (PublishValue.publishBytes_eq nulFree)).trans
      ((unpackMqttPacket_publish p.isPublish _).trans p.unpack_afterHeader)

/-- A PUBLISH of the one-byte payload NUL to the topic `a`. -/
def publishNul : PublishValue where
  packet := { header := ⟨0x30⟩, topiclen := 1, topic := [97], payloadlen := 1, payload := [0] }
  isPublish := by decide
  qosLegal := by decide
  pktIdZero := fun _ => rfl
  topicLen := by decide
  payloadLen := by decide
  topicNulFree := by decide

theorem publishNul_not_roundTrips : ¬ RoundTrips publishNul.packet := by
  rintro ⟨packed, pack, determined, _⟩
  have packs : packMqttPacket (.publish publishNul.packet) .publish =
      .ok ⟨6, [0x30, 4, 0, 1, 97]⟩ := by decide
  rw [packs] at pack
  cases pack
  exact absurd determined (by rw [Packed.determined_iff]; decide)

end SolBroker
