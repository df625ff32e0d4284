import Mathlib
import SolBroker.Wire.Length
import SolBroker.Wire.Unpack

/-!
# Encoding control packets

The pack functions of mqtt.c and their table. Each allocates the size it computes
and then writes; `pack_mqtt_publish` computes its size from the recorded lengths
but copies topic and payload up to their first NUL.
-/

namespace SolBroker

def packMqttHeader (hdr : MqttHeader) : Except Fault Packed :=
  packInto mqttHeaderLen do
    packU8 hdr.byte
    put (mqttEncodeLength 0)

def packMqttAck (pkt : MqttAck) : Except Fault Packed :=
  packInto mqttAckLen do
    packU8 pkt.header.byte
    put (mqttEncodeLength mqttHeaderLen)
    packU16 pkt.pktId

def packMqttConnack (pkt : MqttConnack) : Except Fault Packed :=
  packInto mqttAckLen do
    packU8 pkt.header.byte
    put (mqttEncodeLength mqttHeaderLen)
    packU8 pkt.byte
    packU8 pkt.rc

def packMqttSuback (pkt : MqttSuback) : Except Fault Packed :=
  packInto (mqttHeaderLen + 2 + pkt.rcslen.toNat) do
    packU8 pkt.header.byte
    put (mqttEncodeLength (2 + pkt.rcslen.toNat))
    packU16 pkt.pktId
    put (pkt.rcs.take pkt.rcslen.toNat)

/-- The length bytes beyond the first that a PUBLISH of `pktlen` bytes is given. -/
def remaininglenOffset (pktlen : Nat) : Nat :=
  if 0x200000 < pktlen - 1 then 3
  else if 0x4000 < pktlen - 1 then 2
  else if 0x80 < pktlen - 1 then 1
  else 0

/-- The length of a PUBLISH packet before the extra length bytes, from the
lengths recorded in it. -/
def publishLen (pkt : MqttPublish) : Nat :=
  let pktlen := mqttHeaderLen + 2 + pkt.topiclen.toNat + pkt.payloadlen.toNat
  if atMostOnce < pkt.header.qos then pktlen + 2 else pktlen

def packMqttPublish (pkt : MqttPublish) : Except Fault Packed :=
  let offset := remaininglenOffset (publishLen pkt)
  let pktlen := publishLen pkt + offset
  packInto pktlen do
    packU8 pkt.header.byte
    put (mqttEncodeLength (pktlen - mqttHeaderLen - offset))
    packU16 pkt.topiclen
    packBytes pkt.topic
    packU16If (atMostOnce < pkt.header.qos) pkt.pktId
    packBytes pkt.payload

/-- The type of the pack functions. -/
abbrev MqttPackHandler := MqttPacket → Except Fault Packed

/-- Each pack function reads the union through its own member. -/
def packAck : MqttPackHandler
  | .ack pkt => packMqttAck pkt
  | _ => .error .wrongMember

def packConnack : MqttPackHandler
  | .connack pkt => packMqttConnack pkt
  | _ => .error .wrongMember

def packSuback : MqttPackHandler
  | .suback pkt => packMqttSuback pkt
  | _ => .error .wrongMember

def packPublish : MqttPackHandler
  | .publish pkt => packMqttPublish pkt
  | _ => .error .wrongMember

/-- `pack_handlers[13]`. -/
def packHandlers : List (Option MqttPackHandler) :=
  [none, none, some packConnack, some packPublish, some packAck, some packAck, some packAck,
    some packAck, none, some packSuback, none, some packAck, none]

/-- `pack_mqtt_packet`. -/
def packMqttPacket (pkt : MqttPacket) (type : PacketType) : Except Fault Packed :=
  if type = .pingreq ∨ type = .pingresp then
    match pkt with
    | .header hdr => packMqttHeader hdr
    | _ => .error .wrongMember
  else do
    let pack ← fetchEntry packHandlers type.code
    pack pkt

/-- An acknowledgement always fits its four bytes. -/
theorem packMqttAck_eq (pkt : MqttAck) :
    packMqttAck pkt = .ok ⟨mqttAckLen, pkt.header.byte :: 2 :: u16Bytes pkt.pktId⟩ := by
  have length : mqttEncodeLength mqttHeaderLen = [2] := by decide
  have writes : Writes (do
      packU8 pkt.header.byte
      put [2]
      packU16 pkt.pktId) ([pkt.header.byte] ++ ([2] ++ u16Bytes pkt.pktId)) :=
    .seq (.put _) (.seq (.put _) (.put _))
  rw [packMqttAck, length]
  exact writes.packInto (le_refl 4)

/-- A SUBACK has one byte for its length: a longer length field overruns the block. -/
theorem packMqttSuback_eq (pkt : MqttSuback) (counted : pkt.rcs.length = pkt.rcslen.toNat) :
    packMqttSuback pkt =
      if pkt.rcslen.toNat < 126 then
        .ok ⟨mqttHeaderLen + 2 + pkt.rcslen.toNat, [pkt.header.byte] ++
          (mqttEncodeLength (2 + pkt.rcslen.toNat) ++ (u16Bytes pkt.pktId ++ pkt.rcs))⟩
      else .error .heapOverflow := by
  have fits := pkt.rcslen.toNat_lt
  have width := length_mqttEncodeLength (show 2 + pkt.rcslen.toNat < 2 ^ 28 by omega)
  have codes : pkt.rcs.take pkt.rcslen.toNat = pkt.rcs := List.take_of_length_le counted.le
  have size : ([pkt.header.byte] ++ (mqttEncodeLength (2 + pkt.rcslen.toNat) ++
      (u16Bytes pkt.pktId ++ pkt.rcs))).length =
        3 + pkt.rcslen.toNat + (mqttEncodeLength (2 + pkt.rcslen.toNat)).length := by
    simp only [List.length_append, List.length_singleton, length_u16Bytes, counted]
    omega
  rw [packMqttSuback, codes]
  split
  · rename_i few
    refine Writes.packInto (.seq (.put _) (.seq (.put _) (.seq (.put _) (.put _)))) ?_
    rw [size, width, if_pos (by omega), mqttHeaderLen]
    omega
  · rename_i many
    refine Overruns.packInto (.seq (.put _) (.put _) (.seq (.put _) (.put _)
      (.seq (.put _) (.put _) (.put _)))) ?_
    rw [size, width, if_neg (by omega), mqttHeaderLen]
    split_ifs <;> omega

/-- The bytes of a SUBACK with these return codes. -/
def subackBytes (pktId : UInt16) (codes : List UInt8) : List UInt8 :=
  [subackByte] ++ (mqttEncodeLength (2 + codes.length) ++ (u16Bytes pktId ++ codes))

/-- A SUBACK that is packed has these bytes. -/
theorem packMqttSuback_bytes {pktId rcslen : UInt16} {codes : List UInt8} {packed : Packed}
    (counted : codes.length = rcslen.toNat)
    (packs : packMqttSuback (mqttPacketSuback subackByte pktId codes rcslen) = .ok packed) :
    packed.written = subackBytes pktId codes := by
  have yields : Yields (do
      packU8 subackByte
      put (mqttEncodeLength (2 + rcslen.toNat))
      packU16 pktId
      put (codes.take rcslen.toNat)) (subackBytes pktId codes) := by
    rw [subackBytes, counted, List.take_of_length_le counted.le]
    exact .seq (.put _) (.seq (.put _) (.seq (.put _) (.put _)))
  rw [yields.packInto packs]

/-- The width `pack_mqtt_publish` reserves is the width the encoder uses. -/
theorem length_mqttEncodeLength_eq_offset {len : Nat} (fits : len < 2 ^ 28) :
    (mqttEncodeLength len).length = 1 + remaininglenOffset (mqttHeaderLen + len) := by
  rw [length_mqttEncodeLength fits, remaininglenOffset, mqttHeaderLen]
  split_ifs <;> omega

/-- The Remaining Length of a PUBLISH packet. -/
def publishRemaining (pkt : MqttPublish) : Nat :=
  2 + pkt.topiclen.toNat + pkt.payloadlen.toNat + if atMostOnce < pkt.header.qos then 2 else 0

theorem publishLen_eq (pkt : MqttPublish) :
    publishLen pkt = mqttHeaderLen + publishRemaining pkt := by
  simp only [publishLen, publishRemaining]
  split <;> omega

/-- The length that `pack_mqtt_publish` encodes is what it takes off again. -/
theorem publishRemaining_eq_sub (pkt : MqttPublish) :
    publishLen pkt + remaininglenOffset (publishLen pkt) - mqttHeaderLen -
      remaininglenOffset (publishLen pkt) = publishRemaining pkt := by
  rw [publishLen_eq]
  omega

theorem publishRemaining_lt (pkt : MqttPublish) : publishRemaining pkt < 2 ^ 28 := by
  have := pkt.topiclen.toNat_lt
  have := pkt.payloadlen.toNat_lt
  unfold publishRemaining
  split <;> omega

/-- The bytes `pack_mqtt_publish` writes: topic and payload only up to a NUL. -/
def publishBytes (pkt : MqttPublish) : List UInt8 :=
  [pkt.header.byte] ++ (mqttEncodeLength (publishRemaining pkt) ++ (u16Bytes pkt.topiclen ++
    ((cstr pkt.topic).bytes ++ ((if decide (atMostOnce < pkt.header.qos) then u16Bytes pkt.pktId
      else []) ++ (cstr pkt.payload).bytes))))

/-- A PUBLISH that is packed has these bytes, whatever lengths are recorded in it. -/
theorem packMqttPublish_bytes {pkt : MqttPublish} {packed : Packed}
    (packs : packMqttPublish pkt = .ok packed) :
    packed = ⟨publishLen pkt + remaininglenOffset (publishLen pkt), publishBytes pkt⟩ := by
  have yields : Yields (do
      packU8 pkt.header.byte
      put (mqttEncodeLength (publishRemaining pkt))
      packU16 pkt.topiclen
      packBytes pkt.topic
      packU16If (atMostOnce < pkt.header.qos) pkt.pktId
      packBytes pkt.payload) (publishBytes pkt) :=
    .seq (.put _) (.seq (.put _) (.seq (.put _) (.seq (.put _) (.seq (.packU16If _ _) (.put _)))))
  rw [packMqttPublish] at packs
  simp only [publishRemaining_eq_sub] at packs
  exact yields.packInto packs

/-- Topic and payload, each up to a NUL, take together no more than is recorded for them. -/
def MqttPublish.Fits (pkt : MqttPublish) : Prop :=
  (cstr pkt.topic).bytes.length + (cstr pkt.payload).bytes.length ≤
    pkt.topiclen.toNat + pkt.payloadlen.toNat

/-- A PUBLISH that fits does not write past its block. -/
theorem MqttPublish.Fits.packs {pkt : MqttPublish} (fits : pkt.Fits) :
    packMqttPublish pkt =
      .ok ⟨publishLen pkt + remaininglenOffset (publishLen pkt), publishBytes pkt⟩ := by
  have writes : Writes (do
      packU8 pkt.header.byte
      put (mqttEncodeLength (publishRemaining pkt))
      packU16 pkt.topiclen
      packBytes pkt.topic
      packU16If (atMostOnce < pkt.header.qos) pkt.pktId
      packBytes pkt.payload) (publishBytes pkt) :=
    .seq (.put _) (.seq (.put _) (.seq (.put _) (.seq (.put _) (.seq (.packU16If _ _) (.put _)))))
  have within : (publishBytes pkt).length ≤
      publishLen pkt + remaininglenOffset (publishLen pkt) := by
    have width := length_mqttEncodeLength_eq_offset (publishRemaining_lt pkt)
    rw [MqttPublish.Fits] at fits
    rw [publishLen_eq]
    simp only [publishBytes, List.length_append, List.length_singleton, width, length_u16Bytes]
    unfold publishRemaining mqttHeaderLen
    by_cases h : atMostOnce < pkt.header.qos <;> simp [h] <;> omega
  rw [packMqttPublish]
  simp only [publishRemaining_eq_sub]
  exact writes.packInto within

/-- It fits as long as topic and payload are as long as recorded: a NUL inside them only makes
the copy shorter. -/
theorem packMqttPublish_eq (pkt : MqttPublish)
    (topicLen : pkt.topiclen.toNat = pkt.topic.length)
    (payloadLen : pkt.payloadlen.toNat = pkt.payload.length) :
    packMqttPublish pkt =
      .ok ⟨publishLen pkt + remaininglenOffset (publishLen pkt), publishBytes pkt⟩ := by
  have topic := cstr_length_le pkt.topic
  have payload := cstr_length_le pkt.payload
  have fits : pkt.Fits := by
    rw [MqttPublish.Fits]
    omega
  exact fits.packs

end SolBroker
