import Mathlib
import SolBroker.Wire.Subscribe

/-!
# Decoding UNSUBSCRIBE

`UnsubscribeWire` is a well-formed UNSUBSCRIBE packet. Every round of the decoder's loop
takes exactly the bytes it has read off `remaining_bytes`, so the loop ends at the end of
the packet and has all filters. Their number is stored in 16 bits.
-/

namespace SolBroker

open Reading

/-- The filters of an UNSUBSCRIBE on the wire. -/
def filtersBytes (topics : List (List UInt8)) : List UInt8 := topics.flatMap string16Bytes

/-- A well-formed UNSUBSCRIBE packet. -/
structure UnsubscribeWire where
  header : MqttHeader
  isUnsubscribe : header.isType .unsubscribe = true
  pktId : UInt16
  topics : List (List UInt8)
  nonempty : topics ≠ []
  topicsFit : ∀ topic ∈ topics, topic.length < 65536
  lengthFits : 2 + (filtersBytes topics).length < 2 ^ 28

def decodedFilter (topic : List UInt8) : UnsubscribeTuple :=
  ⟨UInt16.ofNat topic.length, topic⟩

/-- The loop collects the filters that are counted and stops behind them. -/
theorem unsubscribeLoop_filters (topics : List (List UInt8))
    (topicsFit : ∀ topic ∈ topics, topic.length < 65536) (fuel : Nat)
    (enough : topics.length < fuel)
    (small : (filtersBytes topics).length < 2 ^ 64) (collected : List UnsubscribeTuple)
    (rest : List UInt8) :
    unsubscribeLoop fuel (UInt64.ofNat (filtersBytes topics).length) collected
        (filtersBytes topics ++ rest) =
      .ok (collected ++ topics.map decodedFilter, rest) := by
  induction topics generalizing fuel collected with
  | nil =>
      obtain ⟨fuel, rfl⟩ := Nat.exists_eq_add_one_of_ne_zero enough.ne_bot
      simp [unsubscribeLoop, filtersBytes, pure_apply]
  | cons topic topics ih =>
      obtain ⟨fuel, rfl⟩ := Nat.exists_eq_add_one_of_ne_zero enough.ne_bot
      have topicFits := topicsFit topic List.mem_cons_self
      have size : (filtersBytes (topic :: topics)).length =
          2 + topic.length + (filtersBytes topics).length := by
        simp [filtersBytes]
      have counting : UInt64.ofNat (filtersBytes (topic :: topics)).length ≠ 0 :=
        ofNat_ne_zero (by omega) small
      have bytes : filtersBytes (topic :: topics) ++ rest =
          string16Bytes topic ++ (filtersBytes topics ++ rest) := by
        simp [filtersBytes]
      have others := ih (fun t member => topicsFit t (List.mem_cons_of_mem _ member)) fuel
        (Nat.lt_of_succ_lt_succ enough) (by omega) (collected ++ [decodedFilter topic])
      rw [unsubscribeLoop, if_neg counting, bytes,
        bind_ok (unpackString16_string16Bytes topicFits _), size]
      change unsubscribeLoop fuel
        (UInt64.ofNat _ - 2 - (UInt16.ofNat topic.length).toUInt64) _ _ = _
      rw [remaining_string16 topicFits]
      simpa [decodedFilter] using others

theorem length_le_filtersBytes (topics : List (List UInt8)) :
    topics.length ≤ (filtersBytes topics).length := by
  induction topics with
  | nil => simp
  | cons topic topics ih =>
      simp only [filtersBytes, List.flatMap_cons, List.length_append, length_string16Bytes,
        List.length_cons] at ih ⊢
      omega

/-- Everything but the number of the filters is returned as it stands in the body. -/
theorem unpackMqttUnsubscribe_filters {hdr : MqttHeader} {buf rest : List UInt8} {pktId : UInt16}
    {topics : List (List UInt8)} (topicsFit : ∀ topic ∈ topics, topic.length < 65536)
    (small : 2 + (filtersBytes topics).length < 2 ^ 28)
    (length : mqttDecodeLength buf =
      .ok (2 + (filtersBytes topics).length, u16Bytes pktId ++ (filtersBytes topics ++ rest))) :
    unpackMqttUnsubscribe hdr buf =
      .ok ((UInt64.ofNat (2 + (filtersBytes topics).length), .unsubscribe
        ⟨hdr, pktId, UInt16.ofNat topics.length, topics.map decodedFilter⟩), rest) := by
  have counter : UInt64.ofNat (2 + (filtersBytes topics).length) - 2 =
      UInt64.ofNat (filtersBytes topics).length := by
    rw [UInt64.ofNat_add]
    exact add_sub_cancel_left _ _
  have enough : topics.length < (filtersBytes topics ++ rest).length + 1 := by
    have := length_le_filtersBytes topics
    rw [List.length_append]
    omega
  have loop := unsubscribeLoop_filters topics topicsFit _ enough (by omega) [] rest
  rw [unpackMqttUnsubscribe, bind_ok length, bind_ok (unpackU16_u16Bytes _ _),
    bind_ok (a := filtersBytes topics ++ rest) rfl, counter, bind_ok loop]
  simp [pure_apply]

namespace UnsubscribeWire

variable (p : UnsubscribeWire)

/-- The packet after its header byte. -/
def afterHeader : List UInt8 :=
  mqttEncodeLength (2 + (filtersBytes p.topics).length) ++
    (u16Bytes p.pktId ++ filtersBytes p.topics)

/-- The decoder returns the packet identifier, the filters and their number, and stops at
`rest`, the bytes that follow the packet in the buffer. -/
def DecodesExactly (rest : List UInt8) : Prop :=
  ∃ len pkt, unpackMqttUnsubscribe p.header (p.afterHeader ++ rest) =
      .ok ((len, .unsubscribe pkt), rest) ∧
    pkt.pktId = p.pktId ∧ pkt.tuples = p.topics.map decodedFilter ∧
    pkt.tuplesLen.toNat = p.topics.length

theorem mqttDecodeLength_afterHeader (rest : List UInt8) :
    mqttDecodeLength (p.afterHeader ++ rest) =
      .ok (2 + (filtersBytes p.topics).length,
        u16Bytes p.pktId ++ (filtersBytes p.topics ++ rest)) := by
  rw [afterHeader, List.append_assoc, List.append_assoc]
  exact mqttDecodeLength_encode p.lengthFits _

end UnsubscribeWire

/-- An UNSUBSCRIBE packet is decoded as it is exactly if its filters can be counted in 16
bits. -/
theorem unsubscribe_decodesExactly_iff (p : UnsubscribeWire) (rest : List UInt8) :
    p.DecodesExactly rest ↔ p.topics.length < 65536 := by
  constructor
  · rintro ⟨len, pkt, run, -, -, counted⟩
    rw [← counted]
    exact pkt.tuplesLen.toNat_lt
  · intro few
    have run := @unpackMqttUnsubscribe_filters p.header _ _ _ _ p.topicsFit p.lengthFits
      (p.mqttDecodeLength_afterHeader rest)
    exact ⟨_, _, run, rfl, rfl, UInt16.toNat_ofNat_of_lt' few⟩

theorem length_filtersBytes_replicate (n : Nat) (topic : List UInt8) :
    (filtersBytes (List.replicate n topic)).length = n * (2 + topic.length) := by
  simp [filtersBytes, List.length_flatMap]

/-- As many filters as 16 bits can count and one more. -/
def manyFilters : UnsubscribeWire where
  header := ⟨0xA2⟩
  isUnsubscribe := by decide
  pktId := 1
  topics := List.replicate 65536 [97]
  nonempty := List.ne_nil_of_length_pos (by rw [List.length_replicate]; decide)
  topicsFit := fun topic member => by
    rw [List.eq_of_mem_replicate member]
    decide
  lengthFits := by
    rw [length_filtersBytes_replicate]
    decide

/-- They are counted as none. -/
theorem manyFilters_not_decodesExactly : ¬ manyFilters.DecodesExactly [] := by
  rintro ⟨len, pkt, run, -, -, counted⟩
  have number : manyFilters.topics.length = 65536 := List.length_replicate
  have := pkt.tuplesLen.toNat_lt
  omega

end SolBroker
