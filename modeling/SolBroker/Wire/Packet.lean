import Mathlib
import SolBroker.Memory

/-!
# Control packets

The records of mqtt.h. A pointer to bytes is the block they were stored in,
without the NUL that `unpack_bytes` puts after it; `client_id` and the other
optional strings of a CONNECT are `none` while the pointer is NULL. The header
byte is kept as it is on the wire and its bit fields are read off it in the order
the compiler lays them out, lowest bit first.
-/

namespace SolBroker

/-- `enum packet_type`. -/
inductive PacketType
  | connect
  | connack
  | publish
  | puback
  | pubrec
  | pubrel
  | pubcomp
  | subscribe
  | suback
  | unsubscribe
  | unsuback
  | pingreq
  | pingresp
  | disconnect
deriving DecidableEq, Repr

namespace PacketType

/-- The number of a packet type, `CONNECT = 1` to `DISCONNECT = 14`. -/
def code : PacketType → Nat
  | .connect => 1
  | .connack => 2
  | .publish => 3
  | .puback => 4
  | .pubrec => 5
  | .pubrel => 6
  | .pubcomp => 7
  | .subscribe => 8
  | .suback => 9
  | .unsubscribe => 10
  | .unsuback => 11
  | .pingreq => 12
  | .pingresp => 13
  | .disconnect => 14

theorem code_pos (t : PacketType) : 1 ≤ t.code := by
  cases t <;> decide

end PacketType

/-- `union mqtt_header`. -/
structure MqttHeader where
  byte : UInt8
deriving DecidableEq, Repr

namespace MqttHeader

def qos (h : MqttHeader) : UInt8 := (h.byte >>> 1) &&& 3
def type (h : MqttHeader) : UInt8 := h.byte >>> 4

/-- The assignment `header.bits.qos = q`: only the two bits of the field change,
and only the two low bits of `q` are kept. -/
def withQos (h : MqttHeader) (q : UInt8) : MqttHeader :=
  ⟨(h.byte &&& (0xF9 : UInt8)) ||| ((q &&& (3 : UInt8)) <<< (1 : UInt8))⟩

/-- Is the type field `t`? -/
def isType (h : MqttHeader) (t : PacketType) : Bool := h.type.toNat == t.code

theorem type_toNat (h : MqttHeader) : h.type.toNat = h.byte.toNat / 16 := by
  simp [type, UInt8.toNat_shiftRight, Nat.shiftRight_eq_div_pow]

@[simp] theorem qos_withQos (h : MqttHeader) (q : UInt8) : (h.withQos q).qos = q &&& 3 := by
  simp only [qos, withQos]
  apply UInt8.eq_of_toBitVec_eq
  apply BitVec.eq_of_getLsbD_eq
  intro i hi
  interval_cases i <;> simp

/-- The QoS is not part of the type. -/
@[simp] theorem isType_withQos (h : MqttHeader) (q : UInt8) (t : PacketType) :
    (h.withQos q).isType t = h.isType t := by
  have same : (h.withQos q).type = h.type := by
    simp only [type, withQos]
    apply UInt8.eq_of_toBitVec_eq
    apply BitVec.eq_of_getLsbD_eq
    intro i hi
    interval_cases i <;> simp
  rw [isType, same, isType]

/-- The QoS set last is the one that counts. -/
@[simp] theorem withQos_withQos (h : MqttHeader) (q r : UInt8) :
    (h.withQos q).withQos r = h.withQos r := by
  have outside : ((q &&& (3 : UInt8)) <<< (1 : UInt8)) &&& (0xF9 : UInt8) = 0 := by
    apply UInt8.eq_of_toBitVec_eq
    apply BitVec.eq_of_getLsbD_eq
    intro i hi
    interval_cases i <;> simp
  have kept :
      (h.byte &&& (0xF9 : UInt8) ||| (q &&& (3 : UInt8)) <<< (1 : UInt8)) &&& (0xF9 : UInt8) =
      h.byte &&& (0xF9 : UInt8) &&& (0xF9 : UInt8) := by
    apply UInt8.eq_of_toBitVec_eq
    have apart := congrArg UInt8.toBitVec outside
    simp only [UInt8.toBitVec_and, UInt8.toBitVec_or] at apart ⊢
    rw [BitVec.and_or_distrib_right]
    exact (congrArg _ apart).trans BitVec.or_zero
  simp only [withQos, kept, UInt8.and_assoc, UInt8.and_self]

end MqttHeader

/-- `struct mqtt_ack`, also PUBACK, PUBREC, PUBREL, PUBCOMP and UNSUBACK. -/
structure MqttAck where
  header : MqttHeader
  pktId : UInt16
deriving DecidableEq, Repr

structure MqttConnack where
  header : MqttHeader
  byte : UInt8
  rc : UInt8
deriving DecidableEq, Repr

structure ConnectPayload where
  keepalive : UInt16 := 0
  clientId : Option (List UInt8) := none
  username : Option (List UInt8) := none
  password : Option (List UInt8) := none
  willTopic : Option (List UInt8) := none
  willMessage : Option (List UInt8) := none
deriving DecidableEq, Repr

structure MqttConnect where
  header : MqttHeader
  byte : UInt8 := 0
  payload : ConnectPayload := {}
deriving DecidableEq, Repr

namespace MqttConnect

/-- The flag bits of a CONNECT, bit 1 upwards. -/
def cleanSession (c : MqttConnect) : Bool := c.byte.toNat.testBit 1
def will (c : MqttConnect) : Bool := c.byte.toNat.testBit 2
def password (c : MqttConnect) : Bool := c.byte.toNat.testBit 6
def username (c : MqttConnect) : Bool := c.byte.toNat.testBit 7

end MqttConnect

structure SubscribeTuple where
  topicLen : UInt16
  topic : List UInt8
  qos : UInt8
deriving DecidableEq, Repr

structure MqttSubscribe where
  header : MqttHeader
  pktId : UInt16
  tuplesLen : UInt16
  tuples : List SubscribeTuple
deriving DecidableEq, Repr

structure UnsubscribeTuple where
  topicLen : UInt16
  topic : List UInt8
deriving DecidableEq, Repr

structure MqttUnsubscribe where
  header : MqttHeader
  pktId : UInt16
  tuplesLen : UInt16
  tuples : List UnsubscribeTuple
deriving DecidableEq, Repr

structure MqttSuback where
  header : MqttHeader
  pktId : UInt16
  rcslen : UInt16
  rcs : List UInt8
deriving DecidableEq, Repr

structure MqttPublish where
  header : MqttHeader
  pktId : UInt16 := 0
  topiclen : UInt16 := 0
  topic : List UInt8 := []
  payloadlen : UInt16 := 0
  payload : List UInt8 := []
deriving DecidableEq, Repr

/-- `union mqtt_packet`, with the member that was last stored. -/
inductive MqttPacket
  | ack (ack : MqttAck)
  | header (header : MqttHeader)
  | connect (connect : MqttConnect)
  | connack (connack : MqttConnack)
  | suback (suback : MqttSuback)
  | publish (publish : MqttPublish)
  | subscribe (subscribe : MqttSubscribe)
  | unsubscribe (unsubscribe : MqttUnsubscribe)
deriving DecidableEq, Repr

/-! ### The reply bytes and the packet builders -/

def mqttHeaderLen : Nat := 2
def mqttAckLen : Nat := 4

def connackByte : UInt8 := 0x20
def publishByte : UInt8 := 0x30
def pubackByte : UInt8 := 0x40
def pubrecByte : UInt8 := 0x50
def subackByte : UInt8 := 0x90
def unsubackByte : UInt8 := 0xB0

/-- `enum qos_level`. -/
def atMostOnce : UInt8 := 0
def atLeastOnce : UInt8 := 1
def exactlyOnce : UInt8 := 2

def mqttPacketAck (byte : UInt8) (pktId : UInt16) : MqttAck := ⟨⟨byte⟩, pktId⟩

def mqttPacketConnack (byte cflags rc : UInt8) : MqttConnack := ⟨⟨byte⟩, cflags, rc⟩

/-- `mqtt_packet_publish`, which stores two `size_t` lengths in 16 bits. -/
def mqttPacketPublish (byte : UInt8) (pktId : UInt16) (topiclen : Nat) (topic : List UInt8)
    (payloadlen : Nat) (payload : List UInt8) : MqttPublish :=
  ⟨⟨byte⟩, pktId, UInt16.ofNat topiclen, topic, UInt16.ofNat payloadlen, payload⟩

def mqttPacketSuback (byte : UInt8) (pktId : UInt16) (rcs : List UInt8) (rcslen : UInt16) :
    MqttSuback :=
  ⟨⟨byte⟩, pktId, rcslen, rcs⟩

end SolBroker
