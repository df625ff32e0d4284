import Mathlib
import SolBroker.Wire.Publish
import SolBroker.Broker.Stats

/-!
# The packets of a PUBLISH

The length of a PUBLISH is computed in `publish_handler`, in `publish_message` and in
`pack_mqtt_publish`, each time with a cascade of its own that is to foresee the width of
the length field. All of them agree with what is written. So each packet that is sent
decodes again, to what the publisher sent but for the QoS, which is the subscriber's.
-/

namespace SolBroker

open Transition

variable {T : Type → Type}

/-- The header byte, the length field, and as many bytes as it says. -/
def publishSize (pkt : MqttPublish) : Nat :=
  1 + (mqttEncodeLength (publishRemaining pkt)).length + publishRemaining pkt

/-- The length asked for, the block and the bytes written to it are of the size of the packet
as it goes to the subscriber. -/
def SizedFor (pkt : MqttPublish) (sub : Subscriber) (send : Send) : Prop :=
  send.len = publishSize (pkt.to sub) ∧ send.buf.size = publishSize (pkt.to sub) ∧
    send.buf.written.length = publishSize (pkt.to sub)

/-! ## Lengths -/

section Lengths

variable {pkt : MqttPublish} {sub : Subscriber}

/-- The cascade gives the length field the width that is encoded. -/
theorem publishLen_add_offset (pkt : MqttPublish) :
    publishLen pkt + remaininglenOffset (publishLen pkt) = publishSize pkt := by
  have width := length_mqttEncodeLength_eq_offset (publishRemaining_lt pkt)
  rw [publishLen_eq, publishSize, width, mqttHeaderLen]
  omega

/-- The size is a matter of the recorded lengths and the QoS. -/
theorem publishSize_to_congr {pkt' : MqttPublish} (topiclen : pkt'.topiclen = pkt.topiclen)
    (payloadlen : pkt'.payloadlen = pkt.payloadlen) (sub : Subscriber) :
    publishSize (pkt'.to sub) = publishSize (pkt.to sub) := by
  have remaining : publishRemaining (pkt'.to sub) = publishRemaining (pkt.to sub) := by
    simp only [publishRemaining, MqttPublish.to, MqttHeader.qos_withQos, topiclen, payloadlen]
  rw [publishSize, publishSize, remaining]

variable (topicLen : pkt.topiclen.toNat = pkt.topic.length)
  (payloadLen : pkt.payloadlen.toNat = pkt.payload.length)
include topicLen payloadLen

theorem packMqttPublish_sized :
    packMqttPublish pkt = .ok ⟨publishSize pkt, publishBytes pkt⟩ := by
  rw [packMqttPublish_eq pkt topicLen payloadLen, publishLen_add_offset]

variable (topicNulFree : 0 ∉ pkt.topic) (payloadNulFree : 0 ∉ pkt.payload)
include topicNulFree payloadNulFree

/-- Without a NUL the block is filled to its end. -/
theorem length_publishBytes : (publishBytes pkt).length = publishSize pkt := by
  simp only [publishBytes, List.length_append, List.length_singleton, length_u16Bytes,
    cstr_bytes_of_nulFree topicNulFree, cstr_bytes_of_nulFree payloadNulFree, publishSize]
  unfold publishRemaining
  rw [topicLen, payloadLen]
  by_cases acknowledged : atMostOnce < pkt.header.qos <;> simp [acknowledged] <;> omega

theorem SendsTo.sized {clients : Heap SolClient} {send : Send}
    (sends : SendsTo clients pkt sub send) : SizedFor pkt sub send := by
  obtain ⟨client, _, _, packs, len⟩ := sends
  have packed : packMqttPublish (pkt.to sub) =
      .ok ⟨publishSize (pkt.to sub), publishBytes (pkt.to sub)⟩ :=
    packMqttPublish_sized topicLen payloadLen
  have buf : send.buf = ⟨publishSize (pkt.to sub), publishBytes (pkt.to sub)⟩ :=
    Except.ok.inj (packs.symm.trans packed)
  have written : (publishBytes (pkt.to sub)).length = publishSize (pkt.to sub) :=
    length_publishBytes topicLen payloadLen topicNulFree payloadNulFree
  exact ⟨len.trans (publishLen_add_offset _), by rw [buf], by rw [buf, written]⟩

end Lengths

/-- What `publish_handler` sends. -/
theorem publishHandler_sends {b b' : Broker T} {cb : ClosureRef} {pkt : MqttPublish}
    {results : List Int} {rc : Int} (run : publishHandler b cb pkt results = .ok (rc, b')) :
    ∃ name sends, publishTopic pkt = .ok name ∧ b'.sent = b.sent ++ sends ∧
      List.Forall₂ (SendsTo b.clientHeap pkt) (b.view.subscribers name) sends := by
  obtain ⟨_, _, _, name, _, _, _, _, named, loop, replies⟩ := publishHandler_eq_ok run
  obtain ⟨sends, sent, each⟩ := published_sends loop replies
  exact ⟨name, sends, named, sent, each⟩

/-- The packet that `publish_message` fills in. -/
def messagePublish (pktId topiclen : UInt16) (topic : CString) (payloadlen : UInt16)
    (payload : List UInt8) : MqttPublish :=
  mqttPacketPublish publishByte pktId topiclen.toNat topic.bytes payloadlen.toNat payload

theorem messagePublish_topiclen (pktId topiclen : UInt16) (topic : CString) (payloadlen : UInt16)
    (payload : List UInt8) :
    (messagePublish pktId topiclen topic payloadlen payload).topiclen = topiclen :=
  UInt16.ofNat_toNat

theorem messagePublish_payloadlen (pktId topiclen : UInt16) (topic : CString)
    (payloadlen : UInt16) (payload : List UInt8) :
    (messagePublish pktId topiclen topic payloadlen payload).payloadlen = payloadlen :=
  UInt16.ofNat_toNat

/-- What `publish_message` sends. -/
theorem publishMessage_sendsTo {b b' : Broker T} {pktId topiclen payloadlen : UInt16}
    {topic : CString} {payload : List UInt8} {results : List Int}
    (topicLen : topiclen.toNat = topic.bytes.length)
    (payloadLen : payloadlen.toNat = payload.length)
    (run : publishMessage b pktId topiclen topic payloadlen payload results = .ok b') :
    ∃ sends, b'.sent = b.sent ++ sends ∧
      List.Forall₂ (SendsTo b.clientHeap (messagePublish pktId topiclen topic payloadlen payload))
        (b.view.subscribers topic) sends := by
  have topics : b.view.topics = b.topics := rfl
  rw [publishMessage, solTopicGet] at run
  rw [View.subscribers, topics]
  cases found : trieFind b.topics topic with
  | none =>
      rw [found] at run
      cases run
      exact ⟨[], (List.append_nil _).symm, .nil⟩
  | some t =>
      rw [found] at run
      change publishMessageLoop (messagePublish _ _ _ _ _) _ _ _ = _ at run
      rw [publishMessageLoop_eq] at run
      · exact publishLoop_sends run
      · rw [messagePublish_topiclen]
        exact topicLen
      · rw [messagePublish_payloadlen]
        exact payloadLen

/-- The size of a PUBLISH is the same everywhere: what `pack_mqtt_publish` allocates and
writes, and what `publish_handler` and `publish_message` ask `send_bytes` to send, of the
packet as it goes to each subscriber. -/
theorem publish_lengths_agree (pkt : MqttPublish)
    (topicLen : pkt.topiclen.toNat = pkt.topic.length)
    (payloadLen : pkt.payloadlen.toNat = pkt.payload.length)
    (topicNulFree : 0 ∉ pkt.topic) (payloadNulFree : 0 ∉ pkt.payload) :
    (∃ packed, packMqttPublish pkt = .ok packed ∧ packed.size = publishSize pkt ∧
      packed.written.length = publishSize pkt) ∧
    (∀ (b : Broker T) cb results rc b', publishHandler b cb pkt results = .ok (rc, b') →
      ∃ name sends, publishTopic pkt = .ok name ∧ b'.sent = b.sent ++ sends ∧
        List.Forall₂ (SizedFor pkt) (b.view.subscribers name) sends) ∧
    ∀ (b : Broker T) pktId (topic : CString) results b', topic.bytes = pkt.topic →
      publishMessage b pktId pkt.topiclen topic pkt.payloadlen pkt.payload results = .ok b' →
      ∃ sends, b'.sent = b.sent ++ sends ∧
        List.Forall₂ (SizedFor pkt) (b.view.subscribers topic) sends := by
  refine ⟨⟨_, packMqttPublish_sized topicLen payloadLen, rfl, ?_⟩, ?_, ?_⟩
  · exact length_publishBytes topicLen payloadLen topicNulFree payloadNulFree
  · intro b cb results rc b' run
    obtain ⟨name, sends, named, sent, each⟩ := publishHandler_sends run
    refine ⟨name, sends, named, sent, each.imp fun sub send sends => ?_⟩
    exact sends.sized topicLen payloadLen topicNulFree payloadNulFree
  · intro b pktId topic results b' same run
    have length : pkt.topiclen.toNat = topic.bytes.length := by rw [same, topicLen]
    obtain ⟨sends, sent, each⟩ := publishMessage_sendsTo length payloadLen run
    refine ⟨sends, sent, each.imp fun sub send sends => ?_⟩
    have sized : SizedFor (messagePublish pktId pkt.topiclen topic pkt.payloadlen pkt.payload)
        sub send := by
      apply sends.sized
      · rw [messagePublish_topiclen]
        exact length
      · rw [messagePublish_payloadlen]
        exact payloadLen
      · exact topic.nulFree
      · exact payloadNulFree
    have size := publishSize_to_congr (messagePublish_topiclen pktId pkt.topiclen topic _ _)
      (messagePublish_payloadlen _ _ _ pkt.payloadlen pkt.payload) sub
    rw [SizedFor, size] at sized
    exact sized

/-- A PUBLISH of `x` to `a` takes six bytes. -/
theorem publishAX_length : ∃ packed,
    packMqttPublish (publishAtMostOnce (cstr [97]) (cstr [120])) = .ok packed ∧
      packed.size = 6 ∧ packed.written.length = 6 := by
  have six : publishSize (publishAtMostOnce (cstr [97]) (cstr [120])) = 6 := by decide
  obtain ⟨packed, packs, size, written⟩ := (publish_lengths_agree (T := HashTable)
    (publishAtMostOnce (cstr [97]) (cstr [120])) (by decide) (by decide) (by decide) (by decide)).1
  rw [six] at size written
  exact ⟨packed, packs, size, written⟩

/-! ## What the subscribers decode -/

/-- One packet to the descriptor of the subscriber, which decodes to the topic and the payload
of the publisher, with the subscriber's QoS and, if that asks for one, the packet id. -/
def DecodesFor (clients : Heap SolClient) (pkt : MqttPublish) (sub : Subscriber)
    (send : Send) : Prop :=
  ∃ client, clients.get? sub.client = some client ∧ send.fd = client.fd ∧
    send.len = send.buf.size ∧ send.buf.Determined ∧
    ∀ bytes, send.buf.Holds bytes → ∃ len pkt',
      unpackMqttPacket bytes = .ok ((len, .publish pkt'), []) ∧ pkt'.topic = pkt.topic ∧
      pkt'.payload = pkt.payload ∧ pkt'.header.qos = sub.qos ∧
      (atMostOnce < sub.qos → pkt'.pktId = pkt.pktId)

/-- The publisher is left no reply, a PUBACK or a PUBREC, by the QoS of its packet. -/
def Acknowledges (b b' : Broker T) (cb : ClosureRef) (closure : Closure) (pkt : MqttPublish) :
    Prop :=
  pkt.header.qos = atMostOnce ∧ b'.closureHeap = b.closureHeap ∨
    ∃ byte, (pkt.header.qos = atLeastOnce ∧ byte = pubackByte ∨
        pkt.header.qos = exactlyOnce ∧ byte = pubrecByte) ∧
      b'.closureHeap = b.closureHeap.write cb
        { closure with payload := some ⟨mqttAckLen, byte :: 2 :: u16Bytes pkt.pktId⟩ }

/-- A PUBLISH is handled, goes to every subscriber of its topic in order, and is acknowledged. -/
def FansOut (b : Broker T) (cb : ClosureRef) (closure : Closure) (pkt : MqttPublish)
    (results : List Int) : Prop :=
  ∃ rc b' sends, publishHandler b cb pkt results = .ok (rc, b') ∧ b'.sent = b.sent ++ sends ∧
    List.Forall₂ (DecodesFor b.clientHeap pkt)
      (b.view.subscribers (slashed (cstr pkt.topic))) sends ∧
    Acknowledges b b' cb closure pkt

/-- The packet as it is decoded by a subscriber. -/
def MqttPublish.received (pkt : MqttPublish) (sub : Subscriber) : MqttPublish :=
  { pkt.to sub with pktId := if atMostOnce < sub.qos then pkt.pktId else 0 }

theorem low_bits_of_legal {q : UInt8} (legal : q ≤ exactlyOnce) : q &&& 3 = q := by
  have few : q.toNat ≤ 2 := UInt8.le_iff_toNat_le.mp legal
  apply UInt8.toNat_inj.mp
  rw [UInt8.toNat_and]
  change q.toNat &&& 3 = _
  interval_cases q.toNat <;> rfl

section Received

variable {b : Broker T} {cb : ClosureRef} {closure : Closure} {pkt : MqttPublish} {sub : Subscriber}
  (isPublish : pkt.header.isType .publish = true) (topicLen : pkt.topiclen.toNat = pkt.topic.length)
  (payloadLen : pkt.payloadlen.toNat = pkt.payload.length) (topicNulFree : 0 ∉ pkt.topic)
  (payloadNulFree : 0 ∉ pkt.payload)

/-- An id that is not sent makes no difference. -/
theorem publishBytes_received (legal : sub.qos ≤ exactlyOnce) :
    publishBytes (pkt.received sub) = publishBytes (pkt.to sub) := by
  have qos : (pkt.to sub).header.qos = sub.qos := by
    rw [MqttPublish.to, MqttHeader.qos_withQos, low_bits_of_legal legal]
  have same : (pkt.received sub).header = (pkt.to sub).header := rfl
  simp only [publishBytes, publishRemaining, same, qos]
  by_cases acknowledged : atMostOnce < sub.qos
  · simp [MqttPublish.received, MqttPublish.to, acknowledged]
  · simp [MqttPublish.received, MqttPublish.to, acknowledged]

include isPublish topicLen payloadLen topicNulFree payloadNulFree

theorem unpack_received (legal : sub.qos ≤ exactlyOnce) :
    ∃ len, unpackMqttPacket (publishBytes (pkt.to sub)) =
      .ok ((len, .publish (pkt.received sub)), []) := by
  have qos : (pkt.received sub).header.qos = sub.qos := by
    show (pkt.header.withQos sub.qos).qos = _
    rw [MqttHeader.qos_withQos, low_bits_of_legal legal]
  let value : PublishValue :=
    { packet := pkt.received sub
      isPublish := (MqttHeader.isType_withQos ..).trans isPublish
      qosLegal := qos ▸ legal
      pktIdZero := fun zero => by
        rw [qos] at zero
        simp [MqttPublish.received, zero]
      topicLen, payloadLen, topicNulFree }
  have bytes : publishBytes (pkt.received sub) = _ := PublishValue.publishBytes_eq (p := value)
    payloadNulFree
  rw [← publishBytes_received legal, bytes, unpackMqttPacket_publish value.isPublish]
  exact ⟨_, value.unpack_afterHeader⟩

theorem SendsTo.decodesFor {clients : Heap SolClient} {send : Send} (legal : sub.qos ≤ exactlyOnce)
    (sends : SendsTo clients pkt sub send) : DecodesFor clients pkt sub send := by
  have sized := sends.sized topicLen payloadLen topicNulFree payloadNulFree
  obtain ⟨client, held, fd, packs, _⟩ := sends
  have full : send.buf.size ≤ send.buf.written.length := by
    rw [sized.2.1, sized.2.2]
  have packed : packMqttPublish (pkt.to sub) =
      .ok ⟨publishSize (pkt.to sub), publishBytes (pkt.to sub)⟩ :=
    packMqttPublish_sized topicLen payloadLen
  have buf : send.buf = ⟨publishSize (pkt.to sub), publishBytes (pkt.to sub)⟩ :=
    Except.ok.inj (packs.symm.trans packed)
  refine ⟨client, held, fd, sized.1.trans sized.2.1.symm, (Packed.determined_iff _).mpr full, ?_⟩
  intro bytes holds
  obtain ⟨len, decoded⟩ :=
    unpack_received isPublish topicLen payloadLen topicNulFree payloadNulFree legal
  refine ⟨len, pkt.received sub, ?_, rfl, rfl, ?_, fun acknowledged => if_pos acknowledged⟩
  · rw [holds.eq_written full, buf]
    exact decoded
  · show (pkt.header.withQos sub.qos).qos = _
    rw [MqttHeader.qos_withQos, low_bits_of_legal legal]

end Received

/-! ## The handler -/

/-- The byte before an empty topic is not read. -/
theorem publishTopic_empty {pkt : MqttPublish} (topicLen : pkt.topiclen.toNat = pkt.topic.length)
    (empty : pkt.topic = []) : publishTopic pkt = .error .outOfBounds := by
  have short : pkt.topiclen.toNat < 1 := by
    rw [topicLen, empty]
    exact Nat.one_pos
  rw [publishTopic, charBefore, if_pos short]
  rfl

section Handler

variable {b : Broker T} {cb : ClosureRef} {closure : Closure} {pkt : MqttPublish}

/-- The reply is left where the closure was. -/
theorem acknowledges_of_replies {b₁ b' : Broker T} {name : CString} {results : List Int} {rc : Int}
    (legal : pkt.header.qos ≤ exactlyOnce)
    (loop : publishLoop pkt ((b.published name).2.topicHeap[(b.published name).1]?.elim []
      fun topic => topic.subscribers.nodes) results (b.published name).2 = .ok b₁)
    (replies : publishReply b₁ cb closure pkt = .ok (rc, b')) :
    Acknowledges b b' cb closure pkt := by
  obtain ⟨_, _, _, published⟩ := b.published_keeps name
  obtain ⟨_, _, kept⟩ := publishLoop_keeps loop
  have heap : b₁.closureHeap = b.closureHeap := by rw [kept, published]
  obtain ⟨_, rfl, notOnce, notExactly⟩ | ⟨byte, _, rfl, asked⟩ := publishReply_eq_ok replies
  · refine .inl ⟨?_, heap⟩
    have few : pkt.header.qos.toNat ≤ 2 := UInt8.le_iff_toNat_le.mp legal
    have notOne : pkt.header.qos.toNat ≠ 1 := fun one => notOnce (UInt8.toNat_inj.mp one)
    have notTwo : pkt.header.qos.toNat ≠ 2 := fun two => notExactly (UInt8.toNat_inj.mp two)
    exact UInt8.toNat_inj.mp (show pkt.header.qos.toNat = 0 by omega)
  · exact .inr ⟨byte, asked, congrArg (Heap.write · cb _) heap⟩

/-- A PUBLISH without NULs fans out, whatever the kernel answers, exactly if its topic is not
empty, its client is connected, and the clients of all subscribers in the list exist. -/
theorem fansOut_iff (live : b.closureHeap.get? cb = some closure)
    (isPublish : pkt.header.isType .publish = true) (legal : pkt.header.qos ≤ exactlyOnce)
    (topicLen : pkt.topiclen.toNat = pkt.topic.length)
    (payloadLen : pkt.payloadlen.toNat = pkt.payload.length) (topicNulFree : 0 ∉ pkt.topic)
    (payloadNulFree : 0 ∉ pkt.payload)
    (subsLegal : ∀ sub ∈ b.view.subscribers (slashed (cstr pkt.topic)), sub.qos ≤ exactlyOnce)
    (results : List Int) :
    FansOut b cb closure pkt results ↔ pkt.topic ≠ [] ∧
      (∃ c client, closure.obj = some c ∧ b.clientHeap.get? c = some client) ∧
      ∀ sub ∈ b.view.subscribers (slashed (cstr pkt.topic)),
        ∃ client, b.clientHeap.get? sub.client = some client := by
  constructor
  · rintro ⟨rc, b', sends, run, _, each, _⟩
    obtain ⟨closure', c, client, name, _, live', isObj, held, named, _⟩ := publishHandler_eq_ok run
    obtain rfl := Option.some.inj (live.symm.trans live')
    refine ⟨fun empty => ?_, ⟨c, client, isObj, held⟩, fun sub member => ?_⟩
    · rw [publishTopic_empty topicLen empty] at named
      cases named
    · obtain ⟨send, _, client, held, _⟩ := each.exists_of_mem member
      exact ⟨client, held⟩
  · rintro ⟨nonempty, ⟨c, client, isObj, held⟩, alive⟩
    have is : IsTopic pkt.topiclen pkt.topic := ⟨topicLen, nonempty, topicNulFree⟩
    have named := is.publishTopic_eq
    obtain ⟨rc, b', run⟩ :=
      publishHandler_returns live isObj held named alive topicLen payloadLen results
    obtain ⟨closure', _, _, name, _, live', _, _, named', loop, replies⟩ := publishHandler_eq_ok run
    obtain rfl := Option.some.inj (live.symm.trans live')
    obtain rfl := Except.ok.inj (named.symm.trans named')
    obtain ⟨sends, sent, each⟩ := published_sends loop replies
    refine ⟨rc, b', sends, run, sent, ?_, acknowledges_of_replies legal loop replies⟩
    have both := (List.forall₂_and_left _ _).mpr ⟨subsLegal, each⟩
    apply both.imp
    intro sub send related
    exact related.2.decodesFor isPublish topicLen payloadLen topicNulFree payloadNulFree related.1

end Handler

/-- A PUBLISH of `x` to `t`. -/
def publishX : MqttPublish := publishAtMostOnce (cstr [116]) (cstr [120])

theorem publishX_isPublish : publishX.header.isType .publish = true := by
  decide

theorem slashed_publishX : slashed (cstr publishX.topic) = literal "t/" := by
  decide +kernel

/-- A client publishes to a topic it has subscribed to. -/
theorem publishX_fansOut :
    ∃ tr b closure, Run BrokerStep (startServer : Broker HashTable) tr b ∧
      tr.map Prod.snd = connectAndSubscribe ∧ FansOut b 0 closure publishX [] := by
  obtain ⟨tr, b, closure, run, labels, live, _, obj, held, subs⟩ :=
    run_of_tableOfT replay_connectAndSubscribe
  have iff_ := fansOut_iff live publishX_isPublish (by decide) (by decide) (by decide) (by decide)
    (by decide) (by simp [slashed_publishX, subs]) []
  refine ⟨tr, b, closure, run, labels, iff_.mpr ⟨by decide, ⟨_, _, obj, held⟩, ?_⟩⟩
  simp [slashed_publishX, subs, held]

/-- The first client subscribes to `t` and leaves, and a second one connects. -/
def leaveAndConnect : List Event :=
  subscribeAndLeave ++
    [.accept 6 (uuidOf 1), .ready 1 (.request (.connect (connectAs 98))) [], .ready 1 .dropped []]

theorem replay_leaveAndConnect :
    ((replay brokerNext (startServer : Broker HashTable) leaveAndConnect).bind fun r =>
      (r.2.closureHeap.get? 1).map fun closure =>
        (closure.obj, r.2.clientHeap.get? 1, r.2.clientHeap.get? 0,
          r.2.view.subscribers (literal "t/"))) =
      some (some 1, some (newClient (cstr [98]) 6 true), none, [⟨0, 0⟩]) := by
  decide +kernel

/-- What the second client publishes is to go to the first, which has been freed. -/
theorem leaveAndConnect_not_fansOut :
    ¬ ∀ tr b, Run BrokerStep (startServer : Broker HashTable) tr b → ∀ cb closure c client,
      b.closureHeap.get? cb = some closure → closure.obj = some c →
      b.clientHeap.get? c = some client → ∀ (pkt : MqttPublish) results,
      pkt.header.isType .publish = true → pkt.header.qos ≤ exactlyOnce →
      pkt.topiclen.toNat = pkt.topic.length → pkt.payloadlen.toNat = pkt.payload.length →
      0 ∉ pkt.topic → 0 ∉ pkt.payload →
      (∀ sub ∈ b.view.subscribers (slashed (cstr pkt.topic)), sub.qos ≤ exactlyOnce) →
      FansOut b cb closure pkt results := by
  intro always
  obtain ⟨tr, b, run, _, facts⟩ :=
    Run.of_replay_bind (fun _ _ _ => brokerNext_step) replay_leaveAndConnect
  obtain ⟨closure, live, facts⟩ := Option.map_eq_some_iff.mp facts
  simp only [Prod.mk.injEq] at facts
  obtain ⟨obj, held, gone, subs⟩ := facts
  obtain ⟨_, _, sends, _, _, each, _⟩ := always tr b run 1 closure 1 _ live obj held publishX []
    publishX_isPublish (by decide) (by decide) (by decide) (by decide) (by decide)
    (by simp [slashed_publishX, subs])
  rw [slashed_publishX, subs] at each
  obtain ⟨send, _, client, lives, _⟩ := each.exists_of_mem (List.mem_singleton_self _)
  rw [gone] at lives
  cases lives

end SolBroker
