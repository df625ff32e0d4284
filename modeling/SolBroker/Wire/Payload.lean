import Mathlib
import SolBroker.Wire.Publish

/-!
# Decoding PUBLISH

`PublishWire` is a well-formed PUBLISH packet on the wire. The decoder keeps the length of
the message in 16 bits, in which taking the variable header off the Remaining Length gives
the length of the payload modulo 65536, whatever wraps on the way. A payload is returned
whole exactly if its length is below that.
-/

namespace SolBroker

open Reading

/-- The packet identifier of a PUBLISH, if there is one. -/
def pktIdBytes (qos : UInt8) (pktId : UInt16) : List UInt8 :=
  if atMostOnce < qos then u16Bytes pktId else []

def publishBody (qos : UInt8) (topic : List UInt8) (pktId : UInt16) (payload : List UInt8) :
    List UInt8 :=
  string16Bytes topic ++ (pktIdBytes qos pktId ++ payload)

structure PublishWire where
  header : MqttHeader
  isPublish : header.isType .publish = true
  qosLegal : header.qos ≤ exactlyOnce
  topic : List UInt8
  pktId : UInt16
  payload : List UInt8
  topicFits : topic.length < 65536
  lengthFits : (publishBody header.qos topic pktId payload).length < 2 ^ 28

/-! ## What is read -/

/-- The packet identifier, and whatever is read after it. -/
theorem pktId_bind_eq_ok_iff {β : Type} {qos : UInt8} {g : UInt16 → ByteReader β} {buf : List UInt8}
    {result : β × List UInt8} :
    (if atMostOnce < qos then do
        let pktId ← unpackU16
        g pktId
      else do
        let pktId ← pure 0
        g pktId) buf = .ok result ↔
      ∃ pktId rest, (¬ atMostOnce < qos → pktId = 0) ∧ buf = pktIdBytes qos pktId ++ rest ∧
        g pktId rest = .ok result := by
  unfold pktIdBytes
  split
  · rename_i acknowledged
    constructor
    · intro run
      obtain ⟨pktId, rest, id, run⟩ := bind_eq_ok_iff.mp run
      exact ⟨pktId, rest, absurd acknowledged, unpackU16_eq_ok_iff.mp id, run⟩
    · rintro ⟨pktId, rest, -, front, run⟩
      exact bind_eq_ok_iff.mpr ⟨pktId, rest, unpackU16_eq_ok_iff.mpr front, run⟩
  · constructor
    · intro run
      exact ⟨0, buf, fun _ => rfl, rfl, run⟩
    · rintro ⟨pktId, rest, zero, rfl, run⟩
      rename_i unacknowledged
      obtain rfl := zero unacknowledged
      exact run

/-- The decoder returns what stands at the front of the body, with as much payload as the
16-bit length asks for. -/
theorem unpackMqttPublish_eq_ok_iff {hdr : MqttHeader} {buf left : List UInt8} {len : UInt64}
    {pkt : MqttPacket} :
    unpackMqttPublish hdr buf = .ok ((len, pkt), left) ↔
      ∃ n rest topic pktId payload, mqttDecodeLength buf = .ok (n, rest) ∧ len = UInt64.ofNat n ∧
        topic.length < 65536 ∧ (¬ atMostOnce < hdr.qos → pktId = 0) ∧
        payload.length = (publishMessageLen n hdr.qos (UInt16.ofNat topic.length)).toNat ∧
        pkt = .publish
          { header := hdr
            pktId
            topiclen := UInt16.ofNat topic.length
            topic
            payloadlen := publishMessageLen n hdr.qos (UInt16.ofNat topic.length)
            payload } ∧
        rest = publishBody hdr.qos topic pktId payload ++ left := by
  constructor
  · intro run
    obtain ⟨n, rest, length, run⟩ := bind_eq_ok_iff.mp run
    obtain ⟨⟨topiclen, topic⟩, afterTopic, name, run⟩ := bind_eq_ok_iff.mp run
    obtain ⟨pktId, afterId, zero, id, run⟩ := pktId_bind_eq_ok_iff.mp run
    obtain ⟨payload, _, bytes, run⟩ := bind_eq_ok_iff.mp run
    cases run
    obtain ⟨topicFits, rfl, front⟩ := unpackString16_eq_ok_iff.mp name
    obtain ⟨payloadSize, back⟩ := take_eq_ok_iff.mp bytes
    refine ⟨n, rest, topic, pktId, payload, length, rfl, topicFits, zero, payloadSize, rfl, ?_⟩
    rw [front, id, back, publishBody, List.append_assoc, List.append_assoc]
  · rintro ⟨n, rest, topic, pktId, payload, length, rfl, topicFits, zero, payloadSize, rfl, front⟩
    rw [publishBody, List.append_assoc, List.append_assoc] at front
    refine bind_eq_ok_iff.mpr ⟨n, rest, length, ?_⟩
    refine bind_eq_ok_iff.mpr
      ⟨(_, topic), _, unpackString16_eq_ok_iff.mpr ⟨topicFits, rfl, front⟩, ?_⟩
    refine pktId_bind_eq_ok_iff.mpr ⟨pktId, _, zero, rfl, ?_⟩
    exact bind_eq_ok_iff.mpr ⟨payload, left, take_eq_ok_iff.mpr ⟨payloadSize, rfl⟩, rfl⟩

/-- Taking the variable header off the Remaining Length, in 16 bits. -/
theorem publishMessageLen_publishBody (qos : UInt8) (topic : List UInt8) (pktId : UInt16)
    (payload : List UInt8) :
    publishMessageLen (publishBody qos topic pktId payload).length qos (UInt16.ofNat topic.length) =
      UInt16.ofNat payload.length := by
  have split (extra : Nat) : UInt16.ofNat (2 + topic.length + (extra + payload.length)) =
      2 + UInt16.ofNat topic.length + (UInt16.ofNat extra + UInt16.ofNat payload.length) := by
    simp only [UInt16.ofNat_add]
    rfl
  simp only [publishMessageLen, publishBody, pktIdBytes, List.length_append, length_string16Bytes]
  split_ifs
  · rw [length_u16Bytes, split]
    change 2 + UInt16.ofNat topic.length + (2 + UInt16.ofNat payload.length) - 2 -
      (2 + UInt16.ofNat topic.length) = _
    rw [add_left_comm, add_sub_cancel_left, add_sub_cancel_left]
  · rw [List.length_nil, split]
    change 2 + UInt16.ofNat topic.length + (0 + UInt16.ofNat payload.length) -
      (2 + UInt16.ofNat topic.length) = _
    rw [zero_add, add_sub_cancel_left]

/-! ## Packets on the wire -/

namespace PublishWire

variable (p : PublishWire)

def body : List UInt8 := publishBody p.header.qos p.topic p.pktId p.payload

def afterHeader : List UInt8 := mqttEncodeLength p.body.length ++ p.body

/-- The decoder returns the topic, the packet identifier if there is one, and the whole
payload, whatever follows the packet in the buffer. -/
def DecodesExactly (rest : List UInt8) : Prop :=
  ∃ len left pkt, unpackMqttPublish p.header (p.afterHeader ++ rest) =
      .ok ((len, .publish pkt), left) ∧
    pkt.topic = p.topic ∧ (atMostOnce < p.header.qos → pkt.pktId = p.pktId) ∧
      pkt.payload = p.payload

end PublishWire

/-- A PUBLISH packet is decoded as it is exactly if its payload is below 65536 bytes. -/
theorem publish_decodesExactly_iff (p : PublishWire) (rest : List UInt8) :
    p.DecodesExactly rest ↔ p.payload.length < 65536 := by
  have length : mqttDecodeLength (p.afterHeader ++ rest) = .ok (p.body.length, p.body ++ rest) := by
    rw [PublishWire.afterHeader, List.append_assoc]
    exact mqttDecodeLength_encode p.lengthFits _
  constructor
  · rintro ⟨len, left, pkt, run, topic, _, payload⟩
    obtain ⟨n, _, topic', _, payload', _, _, _, _, size, same, _⟩ :=
      unpackMqttPublish_eq_ok_iff.mp run
    cases same
    change payload' = p.payload at payload
    rw [← payload, size]
    exact UInt16.toNat_lt _
  · intro small
    have id : ∃ pktId, (¬ atMostOnce < p.header.qos → pktId = 0) ∧
        (atMostOnce < p.header.qos → pktId = p.pktId) ∧
        publishBody p.header.qos p.topic pktId p.payload = p.body := by
      by_cases acknowledged : atMostOnce < p.header.qos
      · exact ⟨p.pktId, absurd acknowledged, fun _ => rfl, rfl⟩
      · refine ⟨0, fun _ => rfl, fun h => absurd h acknowledged, ?_⟩
        simp only [PublishWire.body, publishBody, pktIdBytes, if_neg acknowledged]
    obtain ⟨pktId, zero, same, body⟩ := id
    have size : p.payload.length =
        (publishMessageLen p.body.length p.header.qos (UInt16.ofNat p.topic.length)).toNat := by
      rw [PublishWire.body, publishMessageLen_publishBody, UInt16.toNat_ofNat_of_lt' small]
    refine ⟨_, rest, _, unpackMqttPublish_eq_ok_iff.mpr ⟨_, _, p.topic, pktId,
      p.payload, length, rfl,
      p.topicFits, zero, size, rfl, ?_⟩, rfl, same, rfl⟩
    rw [body]

def largePayload : PublishWire where
  header := ⟨0x30⟩
  isPublish := by decide
  qosLegal := by decide
  topic := [97, 47]
  pktId := 0
  payload := List.replicate 65536 0
  topicFits := by decide
  lengthFits := by
    rw [publishBody, List.length_append, List.length_append, List.length_replicate]
    decide

/-- Nothing of it is returned. -/
theorem largePayload_not_decodesExactly : ¬ largePayload.DecodesExactly [] := by
  rintro ⟨len, left, pkt, run, -, -, payload⟩
  obtain ⟨n, _, topic, _, bytes, _, _, _, _, size, same, _⟩ := unpackMqttPublish_eq_ok_iff.mp run
  cases same
  have whole : bytes.length = 65536 :=
    (congrArg List.length (payload : bytes = List.replicate 65536 0)).trans List.length_replicate
  have := UInt16.toNat_lt (publishMessageLen n largePayload.header.qos (UInt16.ofNat topic.length))
  omega

end SolBroker
