import Mathlib
import SolBroker.Net.LengthField
import SolBroker.Wire.Connect
import SolBroker.Wire.Payload
import SolBroker.Wire.Unsubscribe

/-!
# Decoding hostile packets

A buffer holds a header byte, a length field and exactly as many bytes as the field
announces. The decoders check none of the lengths inside the body, so they stay within the
buffer and their counters above zero exactly if these lengths fit: the strings of a CONNECT
from where its decoder looks for them, the variable header of a PUBLISH in what 16 bits
keep of the Remaining Length, the filters of an UNSUBSCRIBE without a rest, and for a
SUBSCRIBE only if it has no filter at all.
-/

namespace SolBroker

open Reading

/-- The packet types that have an unpack function. -/
def decodedTypes : List PacketType :=
  [.connect, .publish, .puback, .pubrec, .pubrel, .pubcomp, .subscribe, .unsubscribe]

/-- The strings and the payload of a packet. -/
def MqttPacket.strings : MqttPacket → List (List UInt8)
  | .connect c => c.strings
  | .publish p => [p.topic, p.payload]
  | .subscribe s => s.tuples.map SubscribeTuple.topic
  | .unsubscribe s => s.tuples.map UnsubscribeTuple.topic
  | .suback s => [s.rcs]
  | .ack _ | .header _ | .connack _ => []

/-! ## Counters -/

/-- What the loop of `unpack_mqtt_subscribe` reads in a round, with the length it takes off
its counter. -/
def subscribeRound : ByteReader UInt16 := do
  let (topicLen, _) ← unpackString16
  let _ ← unpackU8
  return topicLen

/-- What the loop of `unpack_mqtt_unsubscribe` reads in a round. -/
def unsubscribeRound : ByteReader UInt16 := do
  let (topicLen, _) ← unpackString16
  return topicLen

/-- No round takes more off the counter than is left on it. A round takes off the two bytes
of a length first, and the length itself once it has been read. -/
inductive Counted (round : ByteReader UInt16) : Nat → List UInt8 → Prop
  | done {buf} : Counted round 0 buf
  | stuck {remaining buf e} (two : 2 ≤ remaining) (run : round buf = .error e) :
      Counted round remaining buf
  | more {remaining buf topicLen rest} (two : 2 ≤ remaining)
      (run : round buf = .ok (topicLen, rest)) (topic : topicLen.toNat ≤ remaining - 2)
      (next : Counted round (remaining - 2 - topicLen.toNat) rest) : Counted round remaining buf

/-- Taking the variable header off a message length of 16 bits does not go below zero. -/
def MessageLenHolds (len : Nat) (qos : UInt8) (topiclen : UInt16) : Prop :=
  (atMostOnce < qos → 2 ≤ len % 65536) ∧
    2 + topiclen.toNat ≤ if atMostOnce < qos then len % 65536 - 2 else len % 65536

/-- The subtractions of a decoder on a body stay above zero. -/
def CountersHold (t : PacketType) (qos : UInt8) (body : List UInt8) : Prop :=
  match t with
  | .publish => ∀ topiclen topic rest, unpackString16 body = .ok ((topiclen, topic), rest) →
      MessageLenHolds body.length qos topiclen
  | .subscribe => 2 ≤ body.length ∧ Counted subscribeRound (body.length - 2) (body.drop 2)
  | .unsubscribe => 2 ≤ body.length ∧ Counted unsubscribeRound (body.length - 2) (body.drop 2)
  | _ => True

/-- The buffer is parsed within its bounds: a packet is returned without a read behind the
end, its strings lie within the body, and no counter went below zero. -/
structure ParsesWithin (t : PacketType) (byte : UInt8) (field body : List UInt8) : Prop where
  returns : ∃ len packet left,
    unpackMqttPacket (byte :: (field ++ body)) = .ok ((len, packet), left) ∧
      ∀ str ∈ packet.strings, str <:+: body
  counters : CountersHold t (⟨byte⟩ : MqttHeader).qos body

/-- The lengths inside the packet fit. -/
def Contained (t : PacketType) (qos : UInt8) (field body : List UInt8) : Prop :=
  match t with
  | .connect => ∃ c : MqttConnect, c.Consistent ∧ c.fieldBytes <+: (field ++ body).drop 8
  | .publish => ∃ topic rest, body = string16Bytes topic ++ rest ∧ topic.length < 65536 ∧
      MessageLenHolds body.length qos (UInt16.ofNat topic.length)
  | .subscribe => body.length = 2
  | .unsubscribe => ∃ pktId topics, (∀ topic ∈ topics, topic.length < 65536) ∧
      body = u16Bytes pktId ++ filtersBytes topics
  | _ => 2 ≤ body.length

theorem lengthValue_lt (field : List UInt8) (few : field.length ≤ buffSize) :
    lengthValue field < 2 ^ 28 := by
  have most : 128 ^ field.length ≤ 128 ^ buffSize := Nat.pow_le_pow_right (by decide) few
  exact (lengthValue_lt_pow field).trans_le most

/-! ## The loops -/

section Loops

variable {fuel remaining : Nat} {len : UInt64} {buf left : List UInt8}

/-- As long as nothing wraps, a round takes off the machine counter what it takes off a
natural number. -/
theorem ofNat_round (two : 2 ≤ remaining) {topicLen : UInt16}
    (topic : topicLen.toNat ≤ remaining - 2) :
    UInt64.ofNat remaining - 2 - topicLen.toUInt64 =
      UInt64.ofNat (remaining - 2 - topicLen.toNat) := by
  obtain ⟨others, rfl⟩ : ∃ others, remaining = others + topicLen.toNat + 2 :=
    ⟨remaining - 2 - topicLen.toNat, by omega⟩
  have length : topicLen.toUInt64 = UInt64.ofNat topicLen.toNat := by
    rw [← UInt64.toNat_inj, UInt16.toNat_toUInt64,
      UInt64.toNat_ofNat_of_lt' (lt_trans topicLen.toNat_lt (by decide))]
  have rest : others + topicLen.toNat + 2 - 2 - topicLen.toNat = others := by omega
  rw [rest, length, UInt64.ofNat_add (others + topicLen.toNat), UInt64.ofNat_add others]
  change UInt64.ofNat others + UInt64.ofNat topicLen.toNat + 2 - 2 - UInt64.ofNat topicLen.toNat = _
  rw [add_sub_cancel_right, add_sub_cancel_right]

theorem ofNat_sub_two (two : 2 ≤ remaining) :
    UInt64.ofNat remaining - 2 = UInt64.ofNat (remaining - 2) := by
  obtain ⟨others, rfl⟩ := Nat.exists_eq_add_of_le' two
  rw [Nat.add_sub_cancel, UInt64.ofNat_add]
  exact add_sub_cancel_right _ _

/-- The loop of a SUBSCRIBE reads more than it counts, unless there is nothing to count. -/
theorem subscribeLoop_counted (counted : Counted subscribeRound remaining buf)
    (small : remaining < 2 ^ 64) {collected : List SubscribeTuple}
    {result : UInt64 × List SubscribeTuple}
    (run : subscribeLoop fuel len (UInt64.ofNat remaining) collected buf = .ok (result, left)) :
    remaining + left.length ≤ buf.length ∧
      (remaining ≠ 0 → remaining + left.length < buf.length) := by
  induction counted generalizing fuel len collected with
  | done =>
      cases fuel with
      | zero => cases run
      | succ fuel =>
          cases run
          exact ⟨by omega, fun h => absurd rfl h⟩
  | @stuck remaining buf e two stuck =>
      cases fuel with
      | zero => cases run
      | succ fuel =>
          rw [subscribeLoop, if_neg (ofNat_ne_zero (by omega) small)] at run
          obtain ⟨⟨topicLen, topic⟩, middle, string, run⟩ := bind_eq_ok_iff.mp run
          obtain ⟨qos, rest, byte, run⟩ := bind_eq_ok_iff.mp run
          rw [subscribeRound, bind_ok string] at stuck
          change (unpackU8 >>= fun _ => pure topicLen) middle = .error e at stuck
          rw [bind_ok byte] at stuck
          cases stuck
  | @more remaining buf topicLen rest two round topic next ih =>
      cases fuel with
      | zero => cases run
      | succ fuel =>
          rw [subscribeLoop, if_neg (ofNat_ne_zero (by omega) small)] at run
          obtain ⟨⟨topicLen', own⟩, middle, string, run⟩ := bind_eq_ok_iff.mp run
          obtain ⟨qos, rest', byte, run⟩ := bind_eq_ok_iff.mp run
          rw [subscribeRound, bind_ok string] at round
          change (unpackU8 >>= fun _ => pure topicLen') middle = .ok (topicLen, rest) at round
          rw [bind_ok byte] at round
          cases round
          obtain ⟨fits, size, front⟩ := unpackString16_eq_ok_iff.mp string
          have length : topicLen.toNat = own.length := by
            rw [size, UInt16.toNat_ofNat_of_lt' fits]
          change subscribeLoop fuel (len - 1) (UInt64.ofNat remaining - 2 - topicLen.toUInt64) _
              rest =
            _ at run
          rw [ofNat_round two topic] at run
          have others := (ih (by omega) run).1
          rw [front, next_eq_ok_iff.mp byte, List.length_append, length_string16Bytes,
            List.length_cons]
          omega

/-- The loop of an UNSUBSCRIBE reads what it counts, filter by filter. -/
theorem unsubscribeLoop_counted (counted : Counted unsubscribeRound remaining buf)
    (small : remaining < 2 ^ 64) {collected result : List UnsubscribeTuple}
    (run : unsubscribeLoop fuel (UInt64.ofNat remaining) collected buf = .ok (result, left)) :
    ∃ topics, (∀ topic ∈ topics, topic.length < 65536) ∧ buf = filtersBytes topics ++ left ∧
      remaining = (filtersBytes topics).length := by
  induction counted generalizing fuel collected with
  | done =>
      cases fuel with
      | zero => cases run
      | succ fuel =>
          cases run
          exact ⟨[], by simp, rfl, rfl⟩
  | @stuck remaining buf e two stuck =>
      cases fuel with
      | zero => cases run
      | succ fuel =>
          rw [unsubscribeLoop, if_neg (ofNat_ne_zero (by omega) small)] at run
          obtain ⟨⟨topicLen, topic⟩, middle, string, run⟩ := bind_eq_ok_iff.mp run
          rw [unsubscribeRound, bind_ok string] at stuck
          cases stuck
  | @more remaining buf topicLen rest two round topic next ih =>
      cases fuel with
      | zero => cases run
      | succ fuel =>
          rw [unsubscribeLoop, if_neg (ofNat_ne_zero (by omega) small)] at run
          obtain ⟨⟨topicLen', own⟩, middle, string, run⟩ := bind_eq_ok_iff.mp run
          rw [unsubscribeRound, bind_ok string] at round
          cases round
          obtain ⟨fits, size, front⟩ := unpackString16_eq_ok_iff.mp string
          have length : topicLen.toNat = own.length := by
            rw [size, UInt16.toNat_ofNat_of_lt' fits]
          change unsubscribeLoop fuel (UInt64.ofNat remaining - 2 - topicLen.toUInt64) _ rest =
            _ at run
          rw [ofNat_round two topic] at run
          obtain ⟨topics, topicsFit, back, total⟩ := ih (by omega) run
          refine ⟨own :: topics, ?_, ?_, ?_⟩
          · rintro other member
            obtain rfl | member := List.mem_cons.mp member
            · exact fits
            · exact topicsFit other member
          · rw [front, back]
            simp [filtersBytes]
          · simp only [filtersBytes, List.flatMap_cons, List.length_append,
              length_string16Bytes] at total ⊢
            omega

theorem counted_filters {topics : List (List UInt8)}
    (topicsFit : ∀ topic ∈ topics, topic.length < 65536) :
    Counted unsubscribeRound (filtersBytes topics).length (filtersBytes topics) := by
  induction topics with
  | nil => exact .done
  | cons topic topics ih =>
      have fits := topicsFit topic List.mem_cons_self
      have others := ih fun t member => topicsFit t (List.mem_cons_of_mem _ member)
      have size : (filtersBytes (topic :: topics)).length =
          2 + topic.length + (filtersBytes topics).length := by
        simp [filtersBytes]
      have length := UInt16.toNat_ofNat_of_lt' fits
      have round : unsubscribeRound (filtersBytes (topic :: topics)) =
          .ok (UInt16.ofNat topic.length, filtersBytes topics) := by
        rw [unsubscribeRound, filtersBytes, List.flatMap_cons,
          bind_ok (unpackString16_string16Bytes fits _)]
        rfl
      refine .more (by omega) round (by omega) ?_
      rw [length, size, Nat.add_assoc, Nat.add_sub_cancel_left, Nat.add_sub_cancel_left]
      exact others

end Loops

/-! ## The decoders -/

section Decoders

variable {hdr : MqttHeader} {field body : List UInt8}

theorem exists_u16Bytes_append_iff {buf : List UInt8} :
    (∃ val rest, buf = u16Bytes val ++ rest) ↔ 2 ≤ buf.length := by
  constructor
  · rintro ⟨val, rest, rfl⟩
    simp
  · intro two
    obtain ⟨hi, lo, rest, rfl⟩ : ∃ hi lo rest, buf = hi :: lo :: rest := by
      match buf, two with
      | hi :: lo :: rest, _ => exact ⟨hi, lo, rest, rfl⟩
    exact ⟨UInt16.ofNat (hi.toNat * 256 + lo.toNat), rest,
      unpackU16_eq_ok_iff.mp (show unpackU16 (hi :: lo :: rest) = _ from rfl)⟩

theorem string16Bytes_within {strs : List (List UInt8)} {str : List UInt8} (member : str ∈ strs) :
    str <:+: strs.flatMap string16Bytes := by
  obtain ⟨front, back, rfl⟩ := List.append_of_mem member
  rw [List.flatMap_append, List.flatMap_cons, string16Bytes]
  refine ⟨front.flatMap string16Bytes ++ u16Bytes (UInt16.ofNat str.length),
    back.flatMap string16Bytes, ?_⟩
  simp

/-- Every string of a CONNECT stands in its fields. -/
theorem MqttConnect.strings_within {c : MqttConnect} {str : List UInt8} (member : str ∈ c.strings) :
    str <:+: c.fieldBytes :=
  (string16Bytes_within member).trans
    ((List.suffix_append _ _).isInfix.trans (List.suffix_cons _ _).isInfix)

/-- The 16-bit length of the message while it does not wrap. -/
theorem publishMessageLen_toNat {len : Nat} {qos : UInt8} {topiclen : UInt16}
    (holds : MessageLenHolds len qos topiclen) :
    (publishMessageLen len qos topiclen).toNat + 2 + topiclen.toNat +
      (if atMostOnce < qos then 2 else 0) = len % 65536 := by
  obtain ⟨two, header⟩ := holds
  have whole : (UInt16.ofNat len).toNat = len % 65536 := UInt16.toNat_ofNat'
  have small : len % 65536 < 65536 := Nat.mod_lt _ (by decide)
  have header_toNat (size : 2 + topiclen.toNat < 65536) :
      (2 + topiclen).toNat = 2 + topiclen.toNat := by
    rw [UInt16.toNat_add]
    exact Nat.mod_eq_of_lt size
  simp only [publishMessageLen]
  split at header
  · rename_i acknowledged
    have first : (UInt16.ofNat len - 2).toNat = len % 65536 - 2 := by
      rw [UInt16.toNat_sub_of_le, whole]
      · rfl
      · exact UInt16.le_iff_toNat_le.mpr (by rw [whole]; exact two acknowledged)
    have size := header_toNat (by omega)
    rw [if_pos acknowledged, if_pos acknowledged, UInt16.toNat_sub_of_le, first, size]
    · have := two acknowledged
      omega
    · exact UInt16.le_iff_toNat_le.mpr (by rw [first, size]; exact header)
  · rename_i unacknowledged
    have size := header_toNat (by omega)
    rw [if_neg unacknowledged, if_neg unacknowledged, UInt16.toNat_sub_of_le, whole, size]
    · omega
    · exact UInt16.le_iff_toNat_le.mpr (by rw [whole, size]; exact header)

/-- The packet identifier of a PUBLISH that has room for one. -/
theorem exists_pktIdBytes_append {qos : UInt8} {buf : List UInt8}
    (room : (if atMostOnce < qos then 2 else 0) ≤ buf.length) :
    ∃ pktId rest, (¬ atMostOnce < qos → pktId = 0) ∧ buf = pktIdBytes qos pktId ++ rest := by
  unfold pktIdBytes
  split at room
  · rename_i acknowledged
    obtain ⟨pktId, rest, front⟩ := exists_u16Bytes_append_iff.mpr room
    exact ⟨pktId, rest, absurd acknowledged, by rw [if_pos acknowledged, front]⟩
  · rename_i unacknowledged
    exact ⟨0, buf, fun _ => rfl, by rw [if_neg unacknowledged, List.nil_append]⟩

/-- A packet identifier is the first two bytes. -/
theorem unpackU16_front {rest : List UInt8} {val : UInt16}
    (id : unpackU16 body = .ok (val, rest)) :
    body = u16Bytes val ++ rest ∧ body.drop 2 = rest ∧ body.length = 2 + rest.length := by
  have front := unpackU16_eq_ok_iff.mp id
  refine ⟨front, ?_, ?_⟩
  · rw [front]
    rfl
  · rw [front, List.length_append, length_u16Bytes]

variable (complete : IsLengthField field) (few : field.length ≤ buffSize)
  (length : lengthValue field = body.length)
include complete few

theorem parsesWithin_connect (isType : hdr.isType .connect = true) :
    ParsesWithin .connect hdr.byte field body ↔ Contained .connect hdr.qos field body := by
  have decoded := mqttDecodeLength_field_append complete few body
  have run := @unpackMqttPacket_isType hdr _ unpackMqttConnect isType rfl (field ++ body)
  constructor
  · rintro ⟨⟨len, packet, left, returns, -⟩, -⟩
    rw [run] at returns
    obtain ⟨_, _, c, _, _, _, _, consistent, front⟩ := unpackMqttConnect_eq_ok_iff.mp returns
    exact ⟨c, consistent, front ▸ List.prefix_append _ _⟩
  · rintro ⟨c, consistent, left, front⟩
    have consistent' : ({ c with header := hdr } : MqttConnect).Consistent :=
      ⟨consistent.clientId, consistent.willTopic, consistent.willMessage, consistent.username,
        consistent.password, consistent.fits⟩
    refine ⟨⟨_, _, left, run.trans (unpackMqttConnect_eq_ok_iff.mpr
      ⟨_, _, { c with header := hdr }, decoded, rfl, rfl, rfl, consistent', front.symm⟩),
      fun str member => ?_⟩, trivial⟩
    have inside : (field ++ body).drop 8 <:+ body := by
      have skipped : field.length ≤ 8 := few.trans (by decide)
      rw [List.drop_append, List.drop_of_length_le skipped, List.nil_append]
      exact List.drop_suffix _ _
    have start : c.fieldBytes <+: (field ++ body).drop 8 := ⟨left, front⟩
    exact (MqttConnect.strings_within member).trans (start.isInfix.trans inside.isInfix)

include length

theorem parsesWithin_publish (isType : hdr.isType .publish = true) :
    ParsesWithin .publish hdr.byte field body ↔ Contained .publish hdr.qos field body := by
  have decoded := mqttDecodeLength_field_append complete few body
  rw [length] at decoded
  have run := @unpackMqttPacket_isType hdr _ unpackMqttPublish isType rfl (field ++ body)
  constructor
  · rintro ⟨⟨len, packet, left, returns, -⟩, counters⟩
    rw [run] at returns
    obtain ⟨n, rest, topic, pktId, payload, decoded', -, topicFits, -, -, -, front⟩ :=
      unpackMqttPublish_eq_ok_iff.mp returns
    cases decoded.symm.trans decoded'
    rw [publishBody, List.append_assoc] at front
    exact ⟨topic, _, front, topicFits,
      counters _ topic _ (unpackString16_eq_ok_iff.mpr ⟨topicFits, rfl, front⟩)⟩
  · rintro ⟨topic, rest, front, topicFits, holds⟩
    have total := publishMessageLen_toNat holds
    have topicLen := UInt16.toNat_ofNat_of_lt' topicFits
    have size := congrArg List.length front
    rw [List.length_append, length_string16Bytes] at size
    have kept := Nat.mod_le body.length 65536
    obtain ⟨pktId, rest, zero, rfl⟩ := @exists_pktIdBytes_append hdr.qos rest (by omega)
    have idSize : (pktIdBytes hdr.qos pktId).length = if atMostOnce < hdr.qos then 2 else 0 := by
      unfold pktIdBytes
      split <;> rfl
    rw [List.length_append, idSize] at size
    set payloadlen := publishMessageLen body.length hdr.qos (UInt16.ofNat topic.length)
    have payloadSize : (rest.take payloadlen.toNat).length = payloadlen.toNat :=
      List.length_take_of_le (by omega)
    have parts : body = publishBody hdr.qos topic pktId (rest.take payloadlen.toNat) ++
        rest.drop payloadlen.toNat := by
      rw [publishBody, List.append_assoc, List.append_assoc, List.take_append_drop]
      exact front
    refine ⟨⟨_, _, _, run.trans (unpackMqttPublish_eq_ok_iff.mpr ⟨_, _, topic, pktId, _, decoded,
      rfl,
      topicFits, zero, payloadSize, rfl, parts⟩), fun str member => ?_⟩, ?_⟩
    · have inside {part : List UInt8} (within : part <:+: publishBody hdr.qos topic pktId
          (rest.take payloadlen.toNat)) : part <:+: body := by
        rw [parts]
        exact within.trans (List.prefix_append _ _).isInfix
      obtain rfl | member := List.mem_cons.mp member
      · refine inside (List.IsInfix.trans ?_ (List.prefix_append _ _).isInfix)
        exact (List.suffix_append _ _).isInfix
      · rw [List.mem_singleton.mp member]
        refine inside (List.IsInfix.trans ?_ (List.suffix_append _ _).isInfix)
        exact (List.suffix_append _ _).isInfix
    · intro topiclen topic' rest' string
      obtain ⟨fits', rfl, front'⟩ := unpackString16_eq_ok_iff.mp string
      have same := (unpackString16_string16Bytes fits' rest').symm.trans
        ((congrArg unpackString16 (front'.symm.trans front)).trans
          (unpackString16_string16Bytes topicFits _))
      have sameLen : UInt16.ofNat topic'.length = UInt16.ofNat topic.length :=
        congrArg Prod.fst (congrArg Prod.fst (Except.ok.inj same))
      rw [sameLen]
      exact holds

theorem parsesWithin_subscribe (isType : hdr.isType .subscribe = true) :
    ParsesWithin .subscribe hdr.byte field body ↔ Contained .subscribe hdr.qos field body := by
  have decoded := mqttDecodeLength_field_append complete few body
  have small := lengthValue_lt field few
  rw [length] at decoded small
  have run := @unpackMqttPacket_isType hdr _ unpackMqttSubscribe isType rfl (field ++ body)
  constructor
  · rintro ⟨⟨len, packet, left, returns, -⟩, two, counted⟩
    rw [run, unpackMqttSubscribe, bind_ok decoded] at returns
    obtain ⟨pktId, rest, id, returns⟩ := bind_eq_ok_iff.mp returns
    obtain ⟨_, _, here, returns⟩ := bind_eq_ok_iff.mp returns
    cases here
    obtain ⟨_, _, loop, returns⟩ := bind_eq_ok_iff.mp returns
    cases returns
    rw [ofNat_sub_two two] at loop
    obtain ⟨_, tail, size⟩ := unpackU16_front id
    rw [tail] at counted
    have beyond := (subscribeLoop_counted counted (by omega) loop).2
    show body.length = 2
    omega
  · intro two
    change body.length = 2 at two
    obtain ⟨pktId, rest, front⟩ := exists_u16Bytes_append_iff.mpr two.ge
    have size := congrArg List.length front
    rw [List.length_append, length_u16Bytes] at size
    obtain rfl : rest = [] := List.eq_nil_of_length_eq_zero (by omega)
    have returns : unpackMqttSubscribe hdr (field ++ body) =
        .ok ((UInt64.ofNat 2, .subscribe ⟨hdr, pktId, 0, []⟩), []) := by
      rw [unpackMqttSubscribe, bind_ok decoded, bind_ok (unpackU16_eq_ok_iff.mpr front),
        bind_ok (a := []) rfl, two]
      rfl
    refine ⟨⟨_, _, _, run.trans returns, by simp [MqttPacket.strings]⟩, two.ge, ?_⟩
    rw [two]
    exact .done

theorem parsesWithin_unsubscribe (isType : hdr.isType .unsubscribe = true) :
    ParsesWithin .unsubscribe hdr.byte field body ↔ Contained .unsubscribe hdr.qos field body := by
  have decoded := mqttDecodeLength_field_append complete few body
  have small := lengthValue_lt field few
  rw [length] at decoded small
  have run := @unpackMqttPacket_isType hdr _ unpackMqttUnsubscribe isType rfl (field ++ body)
  constructor
  · rintro ⟨⟨len, packet, left, returns, -⟩, two, counted⟩
    rw [run, unpackMqttUnsubscribe, bind_ok decoded] at returns
    obtain ⟨pktId, rest, id, returns⟩ := bind_eq_ok_iff.mp returns
    obtain ⟨_, _, here, returns⟩ := bind_eq_ok_iff.mp returns
    cases here
    obtain ⟨_, _, loop, returns⟩ := bind_eq_ok_iff.mp returns
    cases returns
    rw [ofNat_sub_two two] at loop
    obtain ⟨front, tail, size⟩ := unpackU16_front id
    rw [tail] at counted
    obtain ⟨topics, topicsFit, rfl, total⟩ := unsubscribeLoop_counted counted (by omega) loop
    rw [List.length_append] at size
    obtain rfl : left = [] := List.eq_nil_of_length_eq_zero (by omega)
    exact ⟨pktId, topics, topicsFit, by rw [front, List.append_nil]⟩
  · rintro ⟨pktId, topics, topicsFit, front⟩
    have size := congrArg List.length front
    rw [List.length_append, length_u16Bytes] at size
    have decoded' : mqttDecodeLength (field ++ body) =
        .ok (2 + (filtersBytes topics).length, u16Bytes pktId ++ (filtersBytes topics ++ [])) := by
      rw [decoded, size, front, List.append_nil]
    have returns := @unpackMqttUnsubscribe_filters hdr _ _ _ _ topicsFit (size ▸ small) decoded'
    refine ⟨⟨_, _, _, run.trans returns, fun str member => ?_⟩, by omega, ?_⟩
    · obtain ⟨tuple, listed, rfl⟩ := List.mem_map.mp member
      obtain ⟨topic, given, rfl⟩ := List.mem_map.mp listed
      rw [front]
      exact (string16Bytes_within given).trans (List.suffix_append _ _).isInfix
    · have tail : body.drop 2 = filtersBytes topics := by
        rw [front]
        rfl
      rw [tail, size, Nat.add_sub_cancel_left]
      exact counted_filters topicsFit

theorem parsesWithin_ack {t : PacketType} (isType : hdr.isType t = true)
    (entry : fetchEntry unpackHandlers t.code = .ok unpackMqttAck)
    (counters : CountersHold t hdr.qos body) :
    ParsesWithin t hdr.byte field body ↔ 2 ≤ body.length := by
  have decoded := mqttDecodeLength_field_append complete few body
  rw [length] at decoded
  have run := unpackMqttPacket_isType isType entry (field ++ body)
  rw [← exists_u16Bytes_append_iff]
  constructor
  · rintro ⟨⟨len, packet, left, returns, -⟩, -⟩
    rw [run, unpackMqttAck, bind_ok decoded] at returns
    obtain ⟨pktId, rest, id, -⟩ := bind_eq_ok_iff.mp returns
    exact ⟨pktId, rest, unpackU16_eq_ok_iff.mp id⟩
  · rintro ⟨pktId, rest, front⟩
    have returns : unpackMqttAck hdr (field ++ body) =
        .ok ((UInt64.ofNat body.length, .ack ⟨hdr, pktId⟩), rest) := by
      rw [unpackMqttAck, bind_ok decoded, bind_ok (unpackU16_eq_ok_iff.mpr front)]
      rfl
    exact ⟨⟨_, _, _, run.trans returns, by simp [MqttPacket.strings]⟩, counters⟩

end Decoders

/-- A packet of any decoded type is parsed within its bounds exactly if the lengths inside it
fit. -/
theorem parsesWithin_iff {t : PacketType} (isDecoded : t ∈ decodedTypes) {byte : UInt8}
    (isType : (⟨byte⟩ : MqttHeader).isType t = true) {field body : List UInt8}
    (complete : IsLengthField field) (few : field.length ≤ buffSize)
    (length : lengthValue field = body.length) :
    ParsesWithin t byte field body ↔ Contained t (⟨byte⟩ : MqttHeader).qos field body := by
  simp only [decodedTypes, List.mem_cons, List.not_mem_nil, or_false] at isDecoded
  obtain rfl | rfl | rfl | rfl | rfl | rfl | rfl | rfl := isDecoded
  · exact parsesWithin_connect complete few isType
  · exact parsesWithin_publish complete few length isType
  · exact parsesWithin_ack complete few length isType rfl trivial
  · exact parsesWithin_ack complete few length isType rfl trivial
  · exact parsesWithin_ack complete few length isType rfl trivial
  · exact parsesWithin_ack complete few length isType rfl trivial
  · exact parsesWithin_subscribe complete few length isType
  · exact parsesWithin_unsubscribe complete few length isType

/-- A PUBACK is. -/
theorem puback_parsesWithin : ParsesWithin .puback 0x40 [2] [0, 7] :=
  (parsesWithin_iff (by decide) (by decide) (isLengthField_singleton (by decide))
    (by decide) rfl).mpr
    (show 2 ≤ 2 from le_refl 2)

/-- The subscription to `a`, alone in its buffer. -/
theorem subscribeToA_not_parsesWithin : ¬ ParsesWithin .subscribe 0x82 [6] [0, 1, 0, 1, 97, 0] := by
  rintro ⟨⟨len, packet, left, returns, -⟩, -⟩
  have fault : unpackMqttPacket [0x82, 6, 0, 1, 0, 1, 97, 0] = .error .outOfBounds := by decide
  rw [show unpackMqttPacket (0x82 :: ([6] ++ [0, 1, 0, 1, 97, 0])) = _ from fault] at returns
  cases returns

end SolBroker
