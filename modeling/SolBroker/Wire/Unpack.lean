import Mathlib
import SolBroker.Wire.Length

/-!
# Decoding control packets

The unpack functions of mqtt.c and their table. Each takes the header and reads
from the byte after it. Lengths are kept in the widths the source declares:
`size_t` for the Remaining Length and the byte counters, `uint16_t` for the
message length of a PUBLISH, so their wrap-around is the program's.
-/

namespace SolBroker

open Reading

/-- The type of the unpack functions: the Remaining Length they return, and the
packet they store. -/
abbrev MqttUnpackHandler := MqttHeader → ByteReader (UInt64 × MqttPacket)

/-- A string that is only on the wire when its flag is set. -/
def unpackIf (flag : Bool) : ByteReader (Option (List UInt8)) :=
  if flag then do
    let (_, str) ← unpackString16
    return some str
  else
    return none

def unpackMqttConnect : MqttUnpackHandler := fun hdr => do
  let init ← get
  let len ← mqttDecodeLength
  -- the protocol name is skipped by position, not by what was just decoded
  set (init.drop 8)
  let byte ← unpackU8
  let connect : MqttConnect := { header := hdr, byte }
  let keepalive ← unpackU16
  let cidLen ← unpackU16
  let clientId ← if 0 < cidLen then do
      let cid ← unpackBytes cidLen.toNat
      pure (some cid)
    else pure none
  let willTopic ← unpackIf connect.will
  let willMessage ← unpackIf connect.will
  let username ← unpackIf connect.username
  let password ← unpackIf connect.password
  return (UInt64.ofNat len, .connect { connect with
    payload := { keepalive, clientId, username, password, willTopic, willMessage } })

/-- The length left for the message after the variable header, in `uint16_t`. -/
def publishMessageLen (len : Nat) (qos : UInt8) (topiclen : UInt16) : UInt16 :=
  let messageLen := UInt16.ofNat len
  let messageLen := if atMostOnce < qos then messageLen - 2 else messageLen
  messageLen - (2 + topiclen)

def unpackMqttPublish : MqttUnpackHandler := fun hdr => do
  let len ← mqttDecodeLength
  let (topiclen, topic) ← unpackString16
  let pktId ← if atMostOnce < hdr.qos then unpackU16 else pure 0
  let payloadlen := publishMessageLen len hdr.qos topiclen
  let payload ← unpackBytes payloadlen.toNat
  return (UInt64.ofNat len, .publish { header := hdr, pktId, topiclen, topic, payloadlen, payload })

/-- The loop of `unpack_mqtt_subscribe`. The QoS byte is taken off `len`, not off
`remaining_bytes`. Every round reads from the buffer, so as many rounds as the
buffer has bytes are enough. -/
def subscribeLoop : Nat → UInt64 → UInt64 → List SubscribeTuple →
    ByteReader (UInt64 × List SubscribeTuple)
  | 0, _, _, _ => throw .noReturn
  | fuel + 1, len, remainingBytes, tuples =>
      if remainingBytes = 0 then pure (len, tuples)
      else do
        let (topicLen, topic) ← unpackString16
        let qos ← unpackU8
        subscribeLoop fuel (len - 1) (remainingBytes - 2 - topicLen.toUInt64)
          (tuples ++ [⟨topicLen, topic, qos⟩])

def unpackMqttSubscribe : MqttUnpackHandler := fun hdr => do
  let len ← mqttDecodeLength
  let pktId ← unpackU16
  let buf ← get
  let (len, tuples) ← subscribeLoop (buf.length + 1) (UInt64.ofNat len) (UInt64.ofNat len - 2) []
  return (len, .subscribe ⟨hdr, pktId, UInt16.ofNat tuples.length, tuples⟩)

/-- The loop of `unpack_mqtt_unsubscribe`. -/
def unsubscribeLoop : Nat → UInt64 → List UnsubscribeTuple → ByteReader (List UnsubscribeTuple)
  | 0, _, _ => throw .noReturn
  | fuel + 1, remainingBytes, tuples =>
      if remainingBytes = 0 then pure tuples
      else do
        let (topicLen, topic) ← unpackString16
        unsubscribeLoop fuel (remainingBytes - 2 - topicLen.toUInt64)
          (tuples ++ [⟨topicLen, topic⟩])

def unpackMqttUnsubscribe : MqttUnpackHandler := fun hdr => do
  let len ← mqttDecodeLength
  let pktId ← unpackU16
  let buf ← get
  let tuples ← unsubscribeLoop (buf.length + 1) (UInt64.ofNat len - 2) []
  return (UInt64.ofNat len, .unsubscribe ⟨hdr, pktId, UInt16.ofNat tuples.length, tuples⟩)

def unpackMqttAck : MqttUnpackHandler := fun hdr => do
  let len ← mqttDecodeLength
  let pktId ← unpackU16
  return (UInt64.ofNat len, .ack ⟨hdr, pktId⟩)

/-- `unpack_handlers[11]`; `none` is a NULL entry. -/
def unpackHandlers : List (Option MqttUnpackHandler) :=
  [none, some unpackMqttConnect, none, some unpackMqttPublish, some unpackMqttAck,
    some unpackMqttAck, some unpackMqttAck, some unpackMqttAck, some unpackMqttSubscribe, none,
    some unpackMqttUnsubscribe]

/-- Fetch a function from a table of function pointers in order to call it. -/
def fetchEntry {α : Type} (table : List (Option α)) (i : Nat) : Except Fault α :=
  match table[i]? with
  | none => .error .outOfBounds
  | some none => .error .nullCall
  | some (some f) => .ok f

/-- `unpack_mqtt_packet`. -/
def unpackMqttPacket : ByteReader (UInt64 × MqttPacket) := do
  let type ← unpackU8
  let header : MqttHeader := ⟨type⟩
  if header.isType .disconnect || header.isType .pingreq || header.isType .pingresp then
    return (0, .header header)
  else do
    let unpack ← liftM (fetchEntry unpackHandlers header.type.toNat)
    unpack header

theorem liftM_ok {α : Type} (a : α) (buf : List UInt8) :
    (liftM (Except.ok a : Except Fault α) : ByteReader α) buf = .ok (a, buf) := rfl

theorem liftM_error {α : Type} (e : Fault) (buf : List UInt8) :
    (liftM (Except.error e : Except Fault α) : ByteReader α) buf = .error e := rfl

theorem unpackMqttPacket_cons (b : UInt8) (buf : List UInt8) :
    unpackMqttPacket (b :: buf) =
      if (⟨b⟩ : MqttHeader).isType .disconnect || (⟨b⟩ : MqttHeader).isType .pingreq ||
          (⟨b⟩ : MqttHeader).isType .pingresp then
        .ok ((0, .header ⟨b⟩), buf)
      else
        match fetchEntry unpackHandlers (⟨b⟩ : MqttHeader).type.toNat with
        | .ok unpack => unpack ⟨b⟩ buf
        | .error e => .error e := by
  rw [unpackMqttPacket, bind_ok (show unpackU8 (b :: buf) = .ok (b, buf) from rfl)]
  split
  · rfl
  · cases h : fetchEntry unpackHandlers (⟨b⟩ : MqttHeader).type.toNat with
    | ok unpack => rw [bind_ok (liftM_ok unpack buf)]
    | error e => rw [bind_error (liftM_error e buf)]

/-- A header byte selects the entry of its type. -/
theorem unpackMqttPacket_isType {hdr : MqttHeader} {t : PacketType} {unpack : MqttUnpackHandler}
    (isType : hdr.isType t = true) (entry : fetchEntry unpackHandlers t.code = .ok unpack)
    (buf : List UInt8) : unpackMqttPacket (hdr.byte :: buf) = unpack hdr buf := by
  have code : hdr.type.toNat = t.code := by simpa [MqttHeader.isType] using isType
  have other {t' : PacketType} (different : t.code ≠ t'.code) : hdr.isType t' = false := by
    simpa [MqttHeader.isType, code] using different
  have inside : t.code < 11 := by
    by_contra outside
    rw [fetchEntry, List.getElem?_eq_none (not_lt.mp outside)] at entry
    cases entry
  have disconnect : t.code ≠ PacketType.disconnect.code := (inside.trans (by decide)).ne
  have pingreq : t.code ≠ PacketType.pingreq.code := (inside.trans (by decide)).ne
  have pingresp : t.code ≠ PacketType.pingresp.code := (inside.trans (by decide)).ne
  rw [unpackMqttPacket_cons]
  simp only [other disconnect, other pingreq, other pingresp, code, entry]
  rfl

theorem subscribeLoop_sequential (fuel : Nat) (len remainingBytes : UInt64)
    (tuples : List SubscribeTuple) : Sequential (subscribeLoop fuel len remainingBytes tuples) := by
  induction fuel generalizing len remainingBytes tuples with
  | zero =>
      intro buf a rest h
      cases h
  | succ fuel ih =>
      rw [subscribeLoop]
      split
      · exact .pure _
      · exact .bind unpackString16_sequential fun _ =>
          .bind unpackU8_sequential fun _ => ih _ _ _

end SolBroker
