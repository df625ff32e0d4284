import Mathlib
import SolBroker.Broker.Closures
import SolBroker.Broker.Topics

/-!
# What a PUBLISH sends

`publish_handler` walks the subscriber list of the topic it looked up and sends one
packet for each entry, to the descriptor of its client and with its QoS. It returns
as long as the clients in the list exist.
-/

namespace SolBroker

variable {T : Type → Type}

/-- The packet as it goes to a subscriber. -/
def MqttPublish.to (pkt : MqttPublish) (sub : Subscriber) : MqttPublish :=
  { pkt with header := pkt.header.withQos sub.qos }

/-- A send of the packet to a subscriber. -/
def SendsTo (clients : Heap SolClient) (pkt : MqttPublish) (sub : Subscriber)
    (send : Send) : Prop :=
  ∃ client, clients.get? sub.client = some client ∧ send.fd = client.fd ∧
    packMqttPacket (.publish (pkt.to sub)) .publish = .ok send.buf ∧
    send.len = publishLen (pkt.to sub) + remaininglenOffset (publishLen (pkt.to sub))

section Loop

variable {b b' : Broker T} {pkt : MqttPublish} {subs : List Subscriber} {results : List Int}

theorem MqttPublish.to_to (sub sub' : Subscriber) : (pkt.to sub).to sub' = pkt.to sub' := by
  simp only [MqttPublish.to, MqttHeader.withQos_withQos]

/-- One round of the loop. -/
theorem publishLoop_cons {sub : Subscriber} {packed : Packed} {client : SolClient}
    (packs : packMqttPacket (.publish (pkt.to sub)) .publish = .ok packed)
    (held : b.clientHeap.get? sub.client = some client) (subs : List Subscriber)
    (results : List Int) :
    ∃ info send, SendsTo b.clientHeap pkt sub send ∧ publishLoop pkt (sub :: subs) results b =
      publishLoop (pkt.to sub) subs results.tail { b with info, sent := b.sent ++ [send] } := by
  let len := publishLen (pkt.to sub) + remaininglenOffset (publishLen (pkt.to sub))
  let send : Send := ⟨client.fd, packed, len, results.headD len⟩
  let info : SolInfo :=
    { b.info with
      bytesSent := b.info.bytesSent + results.headD len
      messagesSent := b.info.messagesSent + 1 }
  have found : deref b.clientHeap sub.client = .ok client := deref_eq_ok.mpr held
  refine ⟨info, send, ⟨client, held, rfl, packs, rfl⟩, ?_⟩
  rw [publishLoop]
  show (packMqttPacket (.publish (pkt.to sub)) .publish >>= _) = _
  rw [packs]
  show (deref b.clientHeap sub.client >>= _) = _
  rw [found]
  rfl

/-- The loop sends one packet for each subscriber, in order. -/
theorem publishLoop_sends (run : publishLoop pkt subs results b = .ok b') :
    ∃ sends, b'.sent = b.sent ++ sends ∧ List.Forall₂ (SendsTo b.clientHeap pkt) subs sends := by
  induction subs generalizing pkt results b with
  | nil =>
      cases run
      exact ⟨[], (List.append_nil _).symm, .nil⟩
  | cons sub subs ih =>
      obtain ⟨packed, packs, rest⟩ := bind_eq_ok.mp run
      obtain ⟨client, held, _⟩ := bind_eq_ok.mp rest
      obtain ⟨info, send, first, round⟩ := publishLoop_cons packs (deref_eq_ok.mp held) subs results
      rw [round] at run
      obtain ⟨sends, sent, each⟩ := ih run
      refine ⟨send :: sends, sent.trans (List.append_assoc ..), .cons first ?_⟩
      apply each.imp
      intro sub' send' sends'
      rwa [SendsTo, MqttPublish.to_to] at sends'

/-- It returns if all clients exist and the lengths of the packet are right. -/
theorem publishLoop_returns
    (live : ∀ sub ∈ subs, ∃ client, b.clientHeap.get? sub.client = some client)
    (topicLen : pkt.topiclen.toNat = pkt.topic.length)
    (payloadLen : pkt.payloadlen.toNat = pkt.payload.length) (results : List Int) :
    ∃ b', publishLoop pkt subs results b = .ok b' := by
  induction subs generalizing pkt results b with
  | nil => exact ⟨b, rfl⟩
  | cons sub subs ih =>
      obtain ⟨client, held⟩ := live sub (List.mem_cons_self ..)
      have packs := packMqttPublish_eq (pkt.to sub) topicLen payloadLen
      obtain ⟨info, send, _, round⟩ := publishLoop_cons packs held subs results
      rw [round]
      apply ih
      · intro sub' member
        exact live sub' (List.mem_cons_of_mem _ member)
      · exact topicLen
      · exact payloadLen

/-- The first byte of what is sent carries the QoS of the subscriber. -/
theorem SendsTo.header {clients : Heap SolClient} {sub : Subscriber} {send : Send}
    (sends : SendsTo clients pkt sub send) :
    ∃ byte, send.buf.written.head? = some byte ∧ (⟨byte⟩ : MqttHeader).qos = sub.qos &&& 3 := by
  obtain ⟨client, _, _, packs, _⟩ := sends
  change packMqttPublish (pkt.to sub) = .ok send.buf at packs
  refine ⟨(pkt.to sub).header.byte, ?_, MqttHeader.qos_withQos ..⟩
  rw [packMqttPublish_bytes packs]
  rfl

end Loop

/-! ## The handler -/

section Handler

variable {b b' : Broker T} {cb : ClosureRef} {pkt : MqttPublish} {results : List Int}

/-- The subscribers of the topic of a PUBLISH, which has none if it is new. -/
theorem subscribers_publishedTopic (b : Broker T) (name : CString) :
    ((publishedTopic b name).2.topicHeap[(publishedTopic b name).1]?.elim []
      fun topic => topic.subscribers.nodes) = b.view.subscribers name := by
  have topics : b.view.topics = b.topics := rfl
  rw [View.subscribers, topics, publishedTopic, solTopicGet]
  cases trieFind b.topics name with
  | none =>
      show ((b.topicHeap ++ [topicInit name])[b.topicHeap.length]?.elim [] _) = _
      rw [List.getElem?_concat_length]
      rfl
  | some t => rfl

theorem Broker.subscribers_published (b : Broker T) (name : CString) :
    ((b.published name).2.topicHeap[(b.published name).1]?.elim []
      fun topic => topic.subscribers.nodes) = b.view.subscribers name :=
  subscribers_publishedTopic _ name

/-- The reply to a PUBLISH only changes a closure. -/
theorem publishReply_keeps {closure : Closure} {rc : Int}
    (run : publishReply b cb closure pkt = .ok (rc, b')) :
    ∃ closureHeap, b' = { b with closureHeap } := by
  obtain ⟨_, rfl, _⟩ | ⟨byte, _, rfl, _⟩ := publishReply_eq_ok run
  · exact ⟨_, rfl⟩
  · exact ⟨_, rfl⟩

theorem publishReply_returns (b : Broker T) (cb : ClosureRef) (closure : Closure)
    (pkt : MqttPublish) : ∃ rc b', publishReply b cb closure pkt = .ok (rc, b') := by
  rw [publishReply]
  split
  · exact ⟨_, _, bind_eq_ok.mpr ⟨_, packMqttAck_eq _, rfl⟩⟩
  · split
    · exact ⟨_, _, bind_eq_ok.mpr ⟨_, packMqttAck_eq _, rfl⟩⟩
    · exact ⟨_, _, rfl⟩

/-- What a PUBLISH sends: one packet for each subscriber of its topic, in order. -/
theorem published_sends {b₁ : Broker T} {name : CString} {closure : Closure} {rc : Int}
    (loop : publishLoop pkt ((b.published name).2.topicHeap[(b.published name).1]?.elim []
      fun topic => topic.subscribers.nodes) results (b.published name).2 = .ok b₁)
    (replies : publishReply b₁ cb closure pkt = .ok (rc, b')) :
    ∃ sends, b'.sent = b.sent ++ sends ∧
      List.Forall₂ (SendsTo b.clientHeap pkt) (b.view.subscribers name) sends := by
  rw [b.subscribers_published] at loop
  obtain ⟨sends, sent, each⟩ := publishLoop_sends loop
  obtain ⟨_, _, _, same⟩ := b.published_keeps name
  rw [same] at sent each
  obtain ⟨closureHeap, rfl⟩ := publishReply_keeps replies
  exact ⟨sends, sent, each⟩

/-- A PUBLISH of a connected client is handled if the subscribers of its topic exist. -/
theorem publishHandler_returns {closure : Closure} {c : ClientRef} {client : SolClient}
    {name : CString} (live : b.closureHeap.get? cb = some closure) (obj : closure.obj = some c)
    (held : b.clientHeap.get? c = some client) (named : publishTopic pkt = .ok name)
    (alive : ∀ sub ∈ b.view.subscribers name, ∃ client, b.clientHeap.get? sub.client = some client)
    (topicLen : pkt.topiclen.toNat = pkt.topic.length)
    (payloadLen : pkt.payloadlen.toNat = pkt.payload.length) (results : List Int) :
    ∃ rc b', publishHandler b cb pkt results = .ok (rc, b') := by
  let b₀ : Broker T := { b with info := { b.info with messagesRecv := b.info.messagesRecv + 1 } }
  obtain ⟨topics, topicHeap, same⟩ := publishedTopic_keeps b₀ name
  have alive₀ : ∀ sub ∈ b.view.subscribers name,
      ∃ client, (publishedTopic b₀ name).2.clientHeap.get? sub.client = some client := by
    rwa [same]
  obtain ⟨b₂, loop⟩ := publishLoop_returns alive₀ topicLen payloadLen results
  obtain ⟨rc, b', reply⟩ := publishReply_returns b₂ cb closure pkt
  refine ⟨rc, b', bind_eq_ok.mpr ⟨closure, deref_eq_ok.mpr live, ?_⟩⟩
  refine bind_eq_ok.mpr ⟨(c, client), derefObj_eq_ok.mpr ⟨obj, held⟩, ?_⟩
  refine bind_eq_ok.mpr ⟨name, named, bind_eq_ok.mpr ⟨b₂, ?_, reply⟩⟩
  show publishLoop pkt ((publishedTopic b₀ name).2.topicHeap[(publishedTopic b₀ name).1]?.elim []
    fun topic => topic.subscribers.nodes) results (publishedTopic b₀ name).2 = .ok b₂
  rw [subscribers_publishedTopic]
  exact loop

variable [KeyTable T] {fuel : Nat} {closure : Closure}

/-- A PUBLISH that is handled sends one packet to each subscriber of its topic. -/
theorem dispatch_publish_sends (live : b.closureHeap.get? cb = some closure)
    (reads : closure.call = .onRead)
    (run : dispatch fuel b (.ready cb (.request (.publish pkt)) results) = .ok b') :
    ∃ name sends, publishTopic pkt = .ok name ∧ b'.sent = b.sent ++ sends ∧
      List.Forall₂ (SendsTo b.clientHeap pkt) (b.view.subscribers name) sends := by
  rw [dispatch_reading live reads] at run
  obtain ⟨⟨rc, b₂⟩, handled, rest⟩ := bind_eq_ok.mp run
  have same : (readyToHandle b cb closure).view = b.view := view_setClosure_same live rfl
  have live₀ : (readyToHandle b cb closure).closureHeap.get? cb =
      some { closure with armed := none } :=
    get?_setClosure live _
  obtain ⟨name, sends, named, sent, each⟩ : ∃ name sends, publishTopic pkt = .ok name ∧
      b₂.sent = b.sent ++ sends ∧
        List.Forall₂ (SendsTo b.clientHeap pkt) (b.view.subscribers name) sends := by
    cases handle_eq_ok live₀ handled with
    | published _ _ named loop replies =>
        obtain ⟨sends, sent, each⟩ := published_sends loop replies
        rw [same] at each
        exact ⟨_, sends, named, sent, each⟩
  refine ⟨name, sends, named, ?_, each⟩
  refine Eq.trans ?_ sent
  change rearm b₂ cb rc = .ok b' at rest
  rw [rearm] at rest
  split at rest
  · obtain ⟨_, _, done⟩ := bind_eq_ok.mp rest
    cases done
    rfl
  · cases rest
    rfl

/-- A PUBLISH of a connected client is handled if the subscribers of its topic exist. -/
theorem dispatch_publish_returns {c : ClientRef} {client : SolClient} {name : CString}
    (live : b.closureHeap.get? cb = some closure) (reads : closure.call = .onRead)
    (obj : closure.obj = some c) (held : b.clientHeap.get? c = some client)
    (named : publishTopic pkt = .ok name)
    (alive : ∀ sub ∈ b.view.subscribers name, ∃ client, b.clientHeap.get? sub.client = some client)
    (topicLen : pkt.topiclen.toNat = pkt.topic.length)
    (payloadLen : pkt.payloadlen.toNat = pkt.payload.length) (fuel : Nat) (results : List Int) :
    ∃ b', dispatch fuel b (.ready cb (.request (.publish pkt)) results) = .ok b' := by
  have same : (readyToHandle b cb closure).view = b.view := view_setClosure_same live rfl
  have live₀ : (readyToHandle b cb closure).closureHeap.get? cb =
      some { closure with armed := none } :=
    get?_setClosure live _
  obtain ⟨rc, b₂, published⟩ := publishHandler_returns live₀ obj held named
    (by rwa [same]) topicLen payloadLen results
  have handled : handle fuel (readyToHandle b cb closure) cb results (.publish pkt) =
      .ok (rc, b₂) :=
    published
  obtain ⟨answer, _⟩ := handle_answer live₀ handled
  rw [dispatch_reading live reads]
  cases answer with
  | @reply _ obj payload heap =>
      have live₂ := (congrArg (Heap.get? · cb) heap).trans
        (by rw [Heap.get?_write live₀, if_pos rfl])
      exact ⟨_, bind_eq_ok.mpr ⟨(rearmW, b₂), handled,
        bind_eq_ok.mpr ⟨_, deref_eq_ok.mpr live₂, rfl⟩⟩⟩
  | leave => exact ⟨_, bind_eq_ok.mpr ⟨(-rearmW, b₂), handled, rfl⟩⟩
  | nothing => exact ⟨_, bind_eq_ok.mpr ⟨(rearmR, b₂), handled, rfl⟩⟩

end Handler

end SolBroker
