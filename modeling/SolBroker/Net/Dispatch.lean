import Mathlib
import SolBroker.Net.Packet
import SolBroker.Wire.Unpack

/-!
# From received bytes to a handler call

`on_read` chains three gates that each have their own idea of a packet's type:
`recv_packet` compares the whole first byte with the packet numbers, the unpack
table and the handler table are indexed by its upper four bits. A first byte that
passes the first gate is at most 14, so its type bits are zero, and entry zero of
both tables is NULL. No packet of any type is ever handed to a handler.
-/

namespace SolBroker

open Reading

/-- The handlers declared in server.c. -/
inductive Handler
  | connectHandler
  | disconnectHandler
  | subscribeHandler
  | unsubscribeHandler
  | publishHandler
  | pubackHandler
  | pubrecHandler
  | pubrelHandler
  | pubcompHandler
  | pingreqHandler
deriving DecidableEq, Repr

/-- `handlers[15]`; the last cell has no initialiser and is NULL. -/
def handlers : List (Option Handler) :=
  [none, some .connectHandler, none, some .publishHandler, some .pubackHandler,
    some .pubrecHandler, some .pubcompHandler, some .subscribeHandler, none,
    some .unsubscribeHandler, none, some .pingreqHandler, none, some .disconnectHandler, none]

/-- How `on_read` ends: at `exit`, at `errdc`, or by calling a handler. -/
inductive OnRead
  | exit
  | errdc
  | handled (handler : Handler) (packet : MqttPacket)
deriving DecidableEq, Repr

/-- `on_read` up to the call of the handler. -/
def onReadDispatch (events : List RecvEvent) (block : List UInt8) : Except Fault OnRead := do
  let r ← recvPacket events block
  if r.nbytes = -errClientDC ∨ r.nbytes = -errMaxReqSize then return .exit
  else if r.nbytes = -errPacketErr then return .errdc
  else do
    let ((_, packet), _) ← unpackMqttPacket r.block
    let hdr : MqttHeader := ⟨r.command⟩
    let handler ← fetchEntry handlers hdr.type.toNat
    return .handled handler packet

/-! ### What the dispatch is meant to do -/

namespace PacketType

/-- The handler meant for each packet type that clients send. -/
def clientHandler : PacketType → Option Handler
  | .connect => some .connectHandler
  | .publish => some .publishHandler
  | .puback => some .pubackHandler
  | .pubrec => some .pubrecHandler
  | .pubrel => some .pubrelHandler
  | .pubcomp => some .pubcompHandler
  | .subscribe => some .subscribeHandler
  | .unsubscribe => some .unsubscribeHandler
  | .pingreq => some .pingreqHandler
  | .disconnect => some .disconnectHandler
  | _ => none

/-- The unpack function of each packet type; a PINGREQ or DISCONNECT is its header. -/
def unpackHandler : PacketType → MqttUnpackHandler
  | .connect => unpackMqttConnect
  | .publish => unpackMqttPublish
  | .subscribe => unpackMqttSubscribe
  | .unsubscribe => unpackMqttUnsubscribe
  | .pingreq | .pingresp | .disconnect => fun hdr => pure (0, .header hdr)
  | _ => unpackMqttAck

end PacketType

/-- `bytes` start with a complete control packet of type `t` with header byte
`byte` and body `body`, no longer than `max` in all. -/
structure StartsWith (max : Nat) (bytes : List UInt8) (t : PacketType) (byte : UInt8)
    (body : List UInt8) : Prop where
  isType : (⟨byte⟩ : MqttHeader).isType t = true
  lengthFits : body.length < 2 ^ 28
  front : byte :: mqttEncodeLength body.length ++ body <+: bytes
  size : (byte :: mqttEncodeLength body.length ++ body).length ≤ max

/-- The packet is decoded by the unpack function of its type and handed to the
handler of its type. -/
def Handled (t : PacketType) (byte : UInt8) (body : List UInt8) (h : Handler)
    (result : Except Fault OnRead) : Prop :=
  ∃ len packet rest, t.unpackHandler ⟨byte⟩ (mqttEncodeLength body.length ++ body) =
      .ok ((len, packet), rest) ∧ result = .ok (.handled h packet)

/-- What is asked of the dispatch on one stream: a client packet at its front is
handled, and no fault is reached, so that in particular no NULL entry is called and
no table is indexed past its end. -/
structure Dispatches (events : List RecvEvent) (block : List UInt8) : Prop where
  handled : ∀ t h byte body, t.clientHandler = some h →
    StartsWith block.length (arrived events) t byte body →
      Handled t byte body h (onReadDispatch events block)
  noFault : ∃ outcome, onReadDispatch events block = .ok outcome

/-- Some packet a client may send stands at the front of `bytes`. -/
def ClientPacketFirst (max : Nat) (bytes : List UInt8) : Prop :=
  ∃ t h byte body, PacketType.clientHandler t = some h ∧ StartsWith max bytes t byte body

/-! ### What it does -/

/-- A first byte that `recv_packet` lets through selects entry zero of the unpack
table, which is NULL. -/
theorem unpackMqttPacket_nullCall {byte : UInt8} (small : byte.toNat ≤ 14) (buf : List UInt8) :
    unpackMqttPacket (byte :: buf) = .error .nullCall := by
  have zero : (⟨byte⟩ : MqttHeader).type.toNat = 0 := by
    rw [MqttHeader.type_toNat]
    change byte.toNat / 16 = 0
    omega
  have other (t : PacketType) : (⟨byte⟩ : MqttHeader).isType t = false := by
    have := t.code_pos
    simp only [MqttHeader.isType, zero, beq_eq_false_iff_ne]
    omega
  rw [unpackMqttPacket_cons]
  simp only [other, zero]
  rfl

/-- Whatever `on_read` is handed as a packet, it faults on. -/
private theorem onRead_recvBody {byte : UInt8} (small : byte.toNat ≤ 14) {tlen : Nat}
    {block : List UInt8} (fits : ¬ block.length < tlen) (head : block.head? = some byte)
    (nbytes : Int) (positive : 0 < nbytes) (events : List RecvEvent) :
    (∃ e, recvBody tlen byte nbytes events block = .error e) ∨
      ∃ r, recvBody tlen byte nbytes events block = .ok r ∧ 0 < r.nbytes ∧
        unpackMqttPacket r.block = .error .nullCall := by
  have nullCall (block' : List UInt8)
      (stored : store block 2 (recvBytes events tlen).stored = .ok block') :
      unpackMqttPacket block' = .error .nullCall := by
    have head' : block'.head? = some byte := (head?_of_store (by decide) stored).trans head
    obtain ⟨tail, rfl⟩ := List.head?_eq_some_iff.mp head'
    exact unpackMqttPacket_nullCall small tail
  simp only [recvBody, if_neg fits]
  cases stored : store block 2 (recvBytes events tlen).stored with
  | error e => exact .inl ⟨e, rfl⟩
  | ok block' =>
      refine .inr ?_
      by_cases failed : (recvBytes events tlen).ret < 0
      · simp only [if_pos failed]
        exact ⟨_, rfl, positive, nullCall block' stored⟩
      · simp only [if_neg failed]
        exact ⟨_, rfl, by dsimp only; omega, nullCall block' stored⟩

theorem onReadDispatch_of_nullCall {events : List RecvEvent} {block : List UInt8}
    {r : RecvPacket} (received : recvPacket events block = .ok r) (positive : 0 < r.nbytes)
    (nullCall : unpackMqttPacket r.block = .error .nullCall) :
    onReadDispatch events block = .error .nullCall := by
  have exit : ¬ (r.nbytes = -errClientDC ∨ r.nbytes = -errMaxReqSize) := by
    unfold errClientDC errMaxReqSize
    omega
  have errdc : ¬ r.nbytes = -errPacketErr := by
    unfold errPacketErr
    omega
  simp only [onReadDispatch, received]
  change (if r.nbytes = -errClientDC ∨ r.nbytes = -errMaxReqSize then Except.ok OnRead.exit
    else if r.nbytes = -errPacketErr then Except.ok OnRead.errdc else _) = _
  rw [if_neg exit, if_neg errdc, nullCall]
  rfl

theorem onReadDispatch_of_rejected {events : List RecvEvent} {block : List UInt8}
    {r : RecvPacket} (received : recvPacket events block = .ok r)
    (rejected : r.nbytes = -errClientDC ∨ r.nbytes = -errMaxReqSize ∨ r.nbytes = -errPacketErr) :
    ∃ outcome, onReadDispatch events block = .ok outcome ∧
      ∀ h packet, outcome ≠ .handled h packet := by
  simp only [onReadDispatch, received]
  change ∃ outcome, (if r.nbytes = -errClientDC ∨ r.nbytes = -errMaxReqSize then
    Except.ok OnRead.exit else if r.nbytes = -errPacketErr then Except.ok OnRead.errdc else _) =
      _ ∧ _
  by_cases exit : r.nbytes = -errClientDC ∨ r.nbytes = -errMaxReqSize
  · rw [if_pos exit]
    exact ⟨.exit, rfl, by simp⟩
  · have errdc : r.nbytes = -errPacketErr := by tauto
    rw [if_neg exit, if_pos errdc]
    exact ⟨.errdc, rfl, by simp⟩

theorem onReadDispatch_of_error {events : List RecvEvent} {block : List UInt8} {e : Fault}
    (received : recvPacket events block = .error e) :
    onReadDispatch events block = .error e := by
  simp only [onReadDispatch, received]
  rfl

/-- The dispatch of any stream either turns it away or reaches a fault, and the
condition on the bytes that arrive tells which. -/
theorem onReadDispatch_spec (events : List RecvEvent) (block : List UInt8) :
    (TurnedAway block.length (arrived events) ∧ ∃ outcome,
        onReadDispatch events block = .ok outcome ∧ ∀ h packet, outcome ≠ .handled h packet) ∨
      (¬ TurnedAway block.length (arrived events) ∧ ∃ e,
        onReadDispatch events block = .error e) := by
  have read := recvPacket_read events block
  generalize received : recvPacket events block = result at read
  cases read with
  | away away rejected => exact .inl ⟨away, onReadDispatch_of_rejected received rejected⟩
  | fault notAway => exact .inr ⟨notAway, _, onReadDispatch_of_error received⟩
  | @header byte field events' block' header left stored =>
      refine .inr ⟨header.not_turnedAway, ?_⟩
      have head : block'.head? = some byte := by
        obtain ⟨_, rfl⟩ := store_eq_ok_iff.mp stored
        rfl
      have small : ¬ block'.length < lengthValue field := by
        rw [length_of_store stored]
        exact not_lt.mpr header.small
      obtain ⟨e, fault⟩ | ⟨r, body, positive, nullCall⟩ :=
        onRead_recvBody header.high small head (1 + field.length) (by omega) events'
      · exact ⟨e, onReadDispatch_of_error (received.trans fault)⟩
      · exact ⟨_, onReadDispatch_of_nullCall (received.trans body) positive nullCall⟩

/-- The dispatch meets what is asked of it on exactly the streams that start with
no client packet and are turned away: every client packet is refused by the test on
the first byte, and whatever passes that test runs into a NULL entry or overruns
one of the two buffers. -/
theorem dispatches_iff (events : List RecvEvent) (block : List UInt8) :
    Dispatches events block ↔ ¬ ClientPacketFirst block.length (arrived events) ∧
      TurnedAway block.length (arrived events) := by
  rcases onReadDispatch_spec events block with ⟨away, outcome, run, notHandled⟩ |
    ⟨notAway, e, fault⟩
  · constructor
    · intro meets
      refine ⟨?_, away⟩
      rintro ⟨t, h, byte, body, client, front⟩
      obtain ⟨_, packet, _, _, handled⟩ := meets.handled t h byte body client front
      rw [run] at handled
      exact notHandled h packet (Except.ok.inj handled)
    · rintro ⟨noPacket, _⟩
      exact ⟨fun t h byte body client front => absurd ⟨t, h, byte, body, client, front⟩ noPacket,
        outcome, run⟩
  · constructor
    · intro meets
      obtain ⟨outcome, run⟩ := meets.noFault
      rw [fault] at run
      cases run
    · rintro ⟨_, away⟩
      exact absurd away notAway

/-- A CONNECT of client `a` on a fresh connection, with a request size of 64. -/
def connectFromA : List UInt8 :=
  [0x10, 13, 0, 4, 77, 81, 84, 84, 4, 2, 0, 60, 0, 1, 97]

theorem connectFromA_refused :
    onReadDispatch [.data 0x10 connectFromA.tail] (List.replicate 64 0) = .ok .errdc ∧
      ¬ Dispatches [.data 0x10 connectFromA.tail] (List.replicate 64 0) := by
  have run : onReadDispatch [.data 0x10 connectFromA.tail] (List.replicate 64 0) =
      .ok .errdc := by decide
  refine ⟨run, fun meets => ?_⟩
  have front : StartsWith (List.replicate 64 (0 : UInt8)).length
      (arrived [.data 0x10 connectFromA.tail]) .connect 0x10
      [0, 4, 77, 81, 84, 84, 4, 2, 0, 60, 0, 1, 97] :=
    ⟨by decide, by decide, by decide, by decide⟩
  obtain ⟨_, _, _, _, handled⟩ := meets.handled .connect .connectHandler _ _ rfl front
  rw [run] at handled
  cases handled

end SolBroker
