import Mathlib
import SolBroker.Broker.Tuples
import SolBroker.Broker.Replies

/-!
# The answer to a SUBSCRIBE

The length of a SUBACK is computed three times: for the block `pack_mqtt_suback` allocates, by
the encoder for what is written to it, and for the copy that `subscribe_handler` leaves with the
closure. The first and the last leave one byte for the length field, so that they agree with what
is written up to 125 return codes.
-/

namespace SolBroker

open Transition

variable {T : Type → Type} {b : Broker T} {cb : ClosureRef} {closure : Closure}
  {pkt : MqttSubscribe}

/-- The length of the copy that `subscribe_handler` makes. -/
def subackCopied (pkt : MqttSubscribe) : Nat := mqttHeaderLen + 2 + pkt.tuplesLen.toNat

def MqttSubscribe.codes (pkt : MqttSubscribe) : List UInt8 :=
  pkt.tuples.map SubscribeTuple.qos

/-- The reply is the SUBACK of the packet and nothing else, and packing it stays in its block. -/
structure AnswersSuback (b : Broker T) (cb : ClosureRef) (closure : Closure)
    (pkt : MqttSubscribe) : Prop where
  answer : ∃ b', subscribeHandler b cb pkt = .ok (rearmW, b') ∧
    b'.closureHeap = b.closureHeap.write cb
      { closure with payload := some ⟨subackCopied pkt, subackBytes pkt.pktId pkt.codes⟩ }
  copied : subackCopied pkt = (subackBytes pkt.pktId pkt.codes).length
  packs : packMqttSuback (mqttPacketSuback subackByte pkt.pktId pkt.codes pkt.tuplesLen) ≠
    .error .heapOverflow

/-- Every tuple has a name, none makes the handler free a string of the packet, and the length
fits into one byte. -/
structure Answerable (pkt : MqttSubscribe) : Prop where
  named : ∀ tuple ∈ pkt.tuples, tupleName tuple ≠ none
  strings : pkt.tuples.Along TakesString
  few : pkt.tuples.length < 126

section Packing

variable (counted : pkt.tuplesLen.toNat = pkt.tuples.length)
include counted

theorem codes_length : pkt.codes.length = pkt.tuplesLen.toNat :=
  (List.length_map ..).trans counted.symm

/-- The block is as long as the copy, and is filled by the SUBACK or overrun by it. -/
theorem packMqttSuback_copied :
    packMqttSuback (mqttPacketSuback subackByte pkt.pktId pkt.codes pkt.tuplesLen) =
      if pkt.tuples.length < 126 then .ok ⟨subackCopied pkt, subackBytes pkt.pktId pkt.codes⟩
      else .error .heapOverflow := by
  have packs := packMqttSuback_eq
    (mqttPacketSuback subackByte pkt.pktId pkt.codes pkt.tuplesLen) (codes_length counted)
  have rcslen : (mqttPacketSuback subackByte pkt.pktId pkt.codes pkt.tuplesLen).rcslen.toNat =
      pkt.tuples.length := counted
  rw [packs, rcslen, subackCopied, subackBytes, codes_length counted, counted]
  rfl

/-- Below 126 tuples the length field is one byte wide, as it is counted. -/
theorem length_subackBytes (few : pkt.tuples.length < 126) :
    subackCopied pkt = (subackBytes pkt.pktId pkt.codes).length := by
  have width : (mqttEncodeLength (2 + pkt.tuplesLen.toNat)).length = 1 := by
    rw [length_mqttEncodeLength (by omega), if_pos (by omega)]
  rw [subackCopied, subackBytes, codes_length counted]
  simp only [List.length_append, List.length_singleton, width, length_u16Bytes,
    codes_length counted, mqttHeaderLen]
  omega

end Packing

/-- The reply to a SUBSCRIBE is the SUBACK for it exactly if its client is connected and the packet
can be answered. -/
theorem answersSuback_iff (live : b.closureHeap.get? cb = some closure)
    (counted : pkt.tuplesLen.toNat = pkt.tuples.length) :
    AnswersSuback b cb closure pkt ↔
      (∃ c client, closure.obj = some c ∧ b.clientHeap.get? c = some client) ∧
        Answerable pkt := by
  have packs := packMqttSuback_copied counted
  constructor
  · intro answers
    obtain ⟨b', run, _⟩ := answers.answer
    obtain ⟨_, c, client, _, _, live', obj, held, _⟩ := subscribeHandler_eq_ok run
    obtain rfl := Option.some.inj (live.symm.trans live')
    have named (tuple : SubscribeTuple) (member : tuple ∈ pkt.tuples) : tupleName tuple ≠ none := by
      refine subscribeHandler_nameless run ?_
      rwa [counted, List.take_length]
    obtain ⟨st, rounds, strings⟩ := subscribeTuples_run b c named
    rw [subscribeHandler_of_rounds live obj held counted rounds] at run
    refine ⟨⟨c, client, obj, held⟩, named, strings.freed.mp ?_, ?_⟩
    · by_contra freed
      rw [if_pos (Bool.eq_true_of_not_eq_false freed)] at run
      cases run
    · by_contra many
      rw [if_neg many] at packs
      exact answers.packs packs
  · rintro ⟨⟨c, client, obj, held⟩, named, taken, few⟩
    obtain ⟨st, rounds, strings⟩ := subscribeTuples_run b c named
    have codes : st.rcs = pkt.codes := subscribeTuples_codes rounds
    have unfreed : ¬ st.ownFreed = true := by
      rw [strings.freed.mpr taken]
      exact Bool.false_ne_true
    obtain ⟨_, _, kept⟩ := subscribeTuples_keep rounds
    rw [if_pos few] at packs
    let packed : Packed := ⟨subackCopied pkt, subackBytes pkt.pktId pkt.codes⟩
    refine ⟨⟨(reply st.broker cb closure packed).2, ?_, ?_⟩, length_subackBytes counted few, ?_⟩
    · rw [subscribeHandler_of_rounds live obj held counted rounds, if_neg unfreed, codes, packs]
      rfl
    · show st.broker.closureHeap.write cb _ = _
      rw [kept]
    · rw [packs]
      exact nofun

theorem twoPlain_answersSuback :
    ∃ tr b closure, Run BrokerStep (startServer : Broker HashTable) tr b ∧
      tr.map Prod.snd = connectOnly ∧ AnswersSuback b 0 closure twoPlain := by
  obtain ⟨tr, b, closure, run, labels, live, _, obj, held, _⟩ := run_of_tableOfT replay_connectOnly
  refine ⟨tr, b, closure, run, labels, ?_⟩
  apply (answersSuback_iff live rfl).mpr
  refine ⟨⟨_, _, obj, held⟩, by decide, ?_, by decide⟩
  intro before tuple after split _
  have appended : twoPlain.tuples.all isAppended = true := by decide
  exact List.all_eq_true.mp appended tuple
    (split ▸ List.mem_append_right _ (List.mem_cons_self ..))

def manyTimes : MqttSubscribe where
  header := ⟨0x82⟩
  pktId := 1
  tuplesLen := 126
  tuples := List.replicate 126 ⟨1, [116], 0⟩

/-- Its SUBACK needs two bytes for the length. -/
theorem manyTimes_not_answersSuback :
    ¬ ∀ tr b, Run BrokerStep (startServer : Broker HashTable) tr b → ∀ cb closure c client,
      b.closureHeap.get? cb = some closure → closure.obj = some c →
      b.clientHeap.get? c = some client → ∀ pkt : MqttSubscribe,
      pkt.tuplesLen.toNat = pkt.tuples.length → 0 < pkt.tuplesLen →
      (∀ tuple ∈ pkt.tuples, tuple.topicLen.toNat = tuple.topic.length ∧ tuple.qos ≤ exactlyOnce) →
        AnswersSuback b cb closure pkt := by
  intro always
  obtain ⟨tr, b, closure, run, _, live, _, obj, held, _⟩ := run_of_tableOfT replay_connectOnly
  have counted : manyTimes.tuplesLen.toNat = manyTimes.tuples.length :=
    (List.length_replicate ..).symm
  have answers := always tr b run 0 closure 0 _ live obj held manyTimes counted (by decide) (by
    intro tuple member
    rw [List.eq_of_mem_replicate member]
    decide)
  refine answers.packs ((packMqttSuback_copied counted).trans (if_neg ?_))
  rw [← counted]
  decide

end SolBroker
