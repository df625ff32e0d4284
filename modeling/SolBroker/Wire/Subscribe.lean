import Mathlib
import SolBroker.Wire.Unpack

/-!
# Decoding SUBSCRIBE

`SubscribeWire` is a well-formed SUBSCRIBE packet together with its encoding. The
decoder's loop takes two bytes and the topic off `remaining_bytes` in each round
and leaves the QoS byte on it, so after the last tuple as many bytes are counted
as remaining as there were tuples. The loop therefore goes on into whatever
follows the packet, for every packet that has a tuple.
-/

namespace SolBroker

open Reading

/-- A well-formed SUBSCRIBE packet. -/
structure SubscribeWire where
  header : MqttHeader
  pktId : UInt16
  tuples : List (List UInt8 × UInt8)
  nonempty : tuples ≠ []
  few : tuples.length ≤ 65535
  topicsFit : ∀ tuple ∈ tuples, tuple.1.length ≤ 65535
  lengthFits : 2 + (tuples.map fun tuple => tuple.1.length + 3).sum < 2 ^ 28

namespace SubscribeWire

/-- One tuple on the wire: the topic with its length, then the QoS byte. -/
def tupleBytes (tuple : List UInt8 × UInt8) : List UInt8 :=
  string16Bytes tuple.1 ++ [tuple.2]

def tuplesBytes (tuples : List (List UInt8 × UInt8)) : List UInt8 :=
  tuples.flatMap tupleBytes

/-- The number of bytes of the tuples. -/
def tuplesSize (tuples : List (List UInt8 × UInt8)) : Nat :=
  (tuples.map fun tuple => tuple.1.length + 3).sum

/-- The packet after its header byte. -/
def afterHeader (p : SubscribeWire) : List UInt8 :=
  mqttEncodeLength (2 + tuplesSize p.tuples) ++ (u16Bytes p.pktId ++ tuplesBytes p.tuples)

/-- The whole packet. -/
def wire (p : SubscribeWire) : List UInt8 := p.header.byte :: p.afterHeader

def decodedTuple (tuple : List UInt8 × UInt8) : SubscribeTuple :=
  ⟨UInt16.ofNat tuple.1.length, tuple.1, tuple.2⟩

/-- The record that stands for the packet. -/
def decoded (p : SubscribeWire) : MqttSubscribe :=
  ⟨p.header, p.pktId, UInt16.ofNat p.tuples.length, p.tuples.map decodedTuple⟩

/-- The decoder returns the packet's own id and tuples and stops at `rest`, the
bytes that follow the packet in the buffer. -/
def DecodesExactly (p : SubscribeWire) (rest : List UInt8) : Prop :=
  ∃ len, unpackMqttSubscribe p.header (p.afterHeader ++ rest) =
    .ok ((len, .subscribe p.decoded), rest)

theorem length_tuplesBytes (tuples : List (List UInt8 × UInt8)) :
    (tuplesBytes tuples).length = tuplesSize tuples := by
  induction tuples with
  | nil => rfl
  | cons tuple tuples ih =>
      simp only [tuplesBytes, tuplesSize, List.flatMap_cons, List.length_append, List.map_cons,
        List.sum_cons] at ih ⊢
      rw [ih]
      simp [tupleBytes]
      omega

theorem length_le_tuplesSize (tuples : List (List UInt8 × UInt8)) :
    tuples.length ≤ tuplesSize tuples := by
  induction tuples with
  | nil => simp
  | cons tuple tuples ih =>
      simp only [tuplesSize, List.map_cons, List.sum_cons, List.length_cons] at ih ⊢
      omega

end SubscribeWire

open SubscribeWire

theorem toUInt64_ofNat {n : Nat} (h : n < 65536) :
    (UInt16.ofNat n).toUInt64 = UInt64.ofNat n := by
  rw [← UInt64.toNat_inj, UInt16.toNat_toUInt64, UInt16.toNat_ofNat_of_lt' h,
    UInt64.toNat_ofNat_of_lt' (lt_trans h (by decide))]

theorem ofNat_ne_zero {n : Nat} (positive : 0 < n) (small : n < 2 ^ 64) :
    UInt64.ofNat n ≠ 0 := by
  intro zero
  have value := congrArg UInt64.toNat zero
  rw [UInt64.toNat_ofNat_of_lt' small] at value
  exact absurd value positive.ne'

/-- A round takes a string with its length off the counter. -/
theorem remaining_string16 {topicLen : Nat} (fits : topicLen < 65536) (others : Nat) :
    UInt64.ofNat (2 + topicLen + others) - 2 - (UInt16.ofNat topicLen).toUInt64 =
      UInt64.ofNat others := by
  have split : 2 + topicLen + others = others + topicLen + 2 := by omega
  rw [toUInt64_ofNat fits, split, UInt64.ofNat_add (others + topicLen), UInt64.ofNat_add others]
  change UInt64.ofNat others + UInt64.ofNat topicLen + 2 - 2 - UInt64.ofNat topicLen = _
  rw [add_sub_cancel_right, add_sub_cancel_right]

/-- One round of the loop. -/
private theorem subscribeLoop_round {fuel : Nat} {len remainingBytes : UInt64}
    {collected : List SubscribeTuple} {buf middle topic : List UInt8} {topicLen : UInt16}
    {qos : UInt8} (counting : remainingBytes ≠ 0)
    (string : unpackString16 buf = .ok ((topicLen, topic), qos :: middle)) :
    subscribeLoop (fuel + 1) len remainingBytes collected buf =
      subscribeLoop fuel (len - 1) (remainingBytes - 2 - topicLen.toUInt64)
        (collected ++ [⟨topicLen, topic, qos⟩]) middle := by
  rw [subscribeLoop, if_neg counting, bind_ok string]
  rfl

/-- The loop over tuples that are all there: it collects them, and every one of
them leaves one byte on the counter. -/
theorem subscribeLoop_tuples (tuples : List (List UInt8 × UInt8))
    (topicsFit : ∀ tuple ∈ tuples, tuple.1.length ≤ 65535) (fuel extra : Nat) (len : UInt64)
    (small : tuplesSize tuples + extra < 2 ^ 64) (collected : List SubscribeTuple)
    (rest : List UInt8) :
    ∃ len', subscribeLoop (tuples.length + fuel) len (UInt64.ofNat (tuplesSize tuples + extra))
        collected (tuplesBytes tuples ++ rest) =
      subscribeLoop fuel len' (UInt64.ofNat (tuples.length + extra))
        (collected ++ tuples.map decodedTuple) rest := by
  induction tuples generalizing extra len collected with
  | nil => exact ⟨len, by simp [tuplesBytes, tuplesSize]⟩
  | cons tuple tuples ih =>
      have topicFits : tuple.1.length < 65536 := by
        have := topicsFit tuple (by simp)
        omega
      have size : tuplesSize (tuple :: tuples) + extra =
          2 + tuple.1.length + (tuplesSize tuples + (extra + 1)) := by
        rw [tuplesSize, List.map_cons, List.sum_cons, ← tuplesSize]
        omega
      obtain ⟨len', others⟩ := ih (fun t member => topicsFit t (List.mem_cons_of_mem _ member))
        (extra + 1) (len - 1) (by omega) (collected ++ [decodedTuple tuple])
      refine ⟨len', ?_⟩
      have counter : UInt64.ofNat (tuplesSize (tuple :: tuples) + extra) ≠ 0 :=
        ofNat_ne_zero (by omega) small
      have bytes : tuplesBytes (tuple :: tuples) ++ rest =
          string16Bytes tuple.1 ++ (tuple.2 :: (tuplesBytes tuples ++ rest)) := by
        simp [tuplesBytes, tupleBytes]
      rw [List.length_cons, Nat.add_right_comm, bytes,
        subscribeLoop_round counter (unpackString16_string16Bytes topicFits _), size,
        remaining_string16 topicFits]
      simpa [decodedTuple, Nat.add_right_comm, Nat.add_assoc] using others

/-- While the counter is not zero the loop reads at least one more byte. -/
theorem subscribeLoop_length_lt {fuel : Nat} {len remainingBytes : UInt64}
    {collected : List SubscribeTuple} (counting : remainingBytes ≠ 0) {buf left : List UInt8}
    {result : UInt64 × List SubscribeTuple}
    (run : subscribeLoop fuel len remainingBytes collected buf = .ok (result, left)) :
    left.length < buf.length := by
  cases fuel with
  | zero => cases run
  | succ fuel =>
      rw [subscribeLoop, if_neg counting] at run
      obtain ⟨topic, middle, string, afterTopic⟩ := bind_eq_ok_iff.mp run
      have shorter := unpackString16_sequential.length_le string
      exact lt_of_lt_of_le
        (length_lt_of_next (fun _ => subscribeLoop_sequential _ _ _ _) afterTopic) shorter

/-- Whenever the decoder returns from a well-formed packet, it has read bytes
that lie behind the packet. -/
theorem unpackMqttSubscribe_overreads (p : SubscribeWire) (rest left : List UInt8)
    (result : UInt64 × MqttPacket)
    (run : unpackMqttSubscribe p.header (p.afterHeader ++ rest) = .ok (result, left)) :
    left.length < rest.length := by
  have fits : 2 + tuplesSize p.tuples < 2 ^ 28 := p.lengthFits
  rw [unpackMqttSubscribe, afterHeader, List.append_assoc,
    bind_ok (mqttDecodeLength_encode fits _), List.append_assoc,
    bind_ok (unpackU16_u16Bytes _ _), bind_ok (a := tuplesBytes p.tuples ++ rest) rfl] at run
  obtain ⟨⟨len, tuples⟩, middle, loop, last⟩ := bind_eq_ok_iff.mp run
  cases last
  -- the rounds of the loop: one for each tuple, and at least one more
  have rounds : (tuplesBytes p.tuples ++ rest).length + 1 =
      p.tuples.length + (tuplesSize p.tuples - p.tuples.length + rest.length + 1) := by
    have := length_le_tuplesSize p.tuples
    rw [List.length_append, length_tuplesBytes]
    omega
  have counter : UInt64.ofNat (2 + tuplesSize p.tuples) - 2 =
      UInt64.ofNat (tuplesSize p.tuples + 0) := by
    rw [Nat.add_comm, UInt64.ofNat_add]
    exact add_sub_cancel_right _ _
  obtain ⟨len', collects⟩ := subscribeLoop_tuples p.tuples p.topicsFit
    (tuplesSize p.tuples - p.tuples.length + rest.length + 1) 0
    (UInt64.ofNat (2 + tuplesSize p.tuples)) (by omega) [] rest
  rw [rounds, counter, collects] at loop
  have counting : UInt64.ofNat (p.tuples.length + 0) ≠ 0 :=
    ofNat_ne_zero (by simpa using List.length_pos_of_ne_nil p.nonempty)
      (lt_of_le_of_lt (by simpa using p.few) (by decide))
  exact subscribeLoop_length_lt counting loop

/-- No well-formed SUBSCRIBE packet is decoded from its own bytes. -/
theorem not_decodesExactly (p : SubscribeWire) (rest : List UInt8) :
    ¬ p.DecodesExactly rest := by
  rintro ⟨len, run⟩
  exact absurd (unpackMqttSubscribe_overreads p rest rest _ run) (lt_irrefl _)

/-- A subscription to `a` with QoS 0 and packet id 1, alone in its buffer: the
second round reads behind the buffer. -/
def subscribeToA : SubscribeWire where
  header := ⟨0x82⟩
  pktId := 1
  tuples := [([97], 0)]
  nonempty := by decide
  few := by decide
  topicsFit := by decide
  lengthFits := by decide

theorem subscribeToA_outOfBounds :
    unpackMqttSubscribe subscribeToA.header (subscribeToA.afterHeader ++ []) =
        .error .outOfBounds ∧
      ¬ subscribeToA.DecodesExactly [] := by
  have run : unpackMqttSubscribe subscribeToA.header (subscribeToA.afterHeader ++ []) =
      .error .outOfBounds := by decide
  refine ⟨run, ?_⟩
  rintro ⟨len, exact⟩
  rw [run] at exact
  cases exact

end SolBroker
