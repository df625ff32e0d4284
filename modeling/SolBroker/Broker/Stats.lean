import Mathlib
import SolBroker.Decimal
import SolBroker.Broker.Names
import SolBroker.Broker.Publish
import SolBroker.Broker.Unsubscribe

/-!
# The broker's own messages

`publish_stats` publishes the counters of the broker under names of its own through
`publish_message`, a second copy of what `publish_handler` does for a client. The copies
send the same to the same subscriber list. They do not look it up under the same name:
`publish_handler` adds a slash to a topic that has none, as `subscribe_handler` does, and
`publish_message` takes the topic as it is.
-/

namespace SolBroker

open Transition

variable {T : Type → Type}

/-! ## `publish_message` and `publish_stats` -/

/-- The loop of `publish_message`. What `send_bytes` returns is stored unsigned, so that a
failure is not noticed; added to `bytes_sent`, it still counts as -1. -/
def publishMessageLoop (pkt : MqttPublish) :
    List Subscriber → List Int → Broker T → Except Fault (Broker T)
  | [], _, b => .ok b
  | sub :: cur, results, b => do
      let len := mqttHeaderLen + 2 + pkt.topiclen.toNat + pkt.payloadlen.toNat
      let sc ← deref b.clientHeap sub.client
      let pkt := { pkt with header := pkt.header.withQos sub.qos }
      let len := if atMostOnce < pkt.header.qos then len + 2 else len
      let len := len + remaininglenOffset len
      let packed ← packMqttPacket (.publish pkt) .publish
      let (b, results, sent) := sendBytes b sc.fd packed len results
      publishMessageLoop pkt cur results { b with info := { b.info with
        bytesSent := b.info.bytesSent + sent, messagesSent := b.info.messagesSent + 1 } }

/-- `publish_message`. -/
def publishMessage (b : Broker T) (pktId topiclen : UInt16) (topic : CString) (payloadlen : UInt16)
    (payload : List UInt8) (results : List Int) : Except Fault (Broker T) :=
  match solTopicGet b topic with
  | none => .ok b
  | some t =>
      publishMessageLoop
        (mqttPacketPublish publishByte pktId topiclen.toNat topic.bytes payloadlen.toNat payload)
        (b.topicHeap[t]?.elim [] fun topic => topic.subscribers.nodes) results b

/-- `sys_topics[i]`. -/
def sysTopic (i : Nat) : CString := sysTopics.getD i (literal "")

/-- What `publish_stats` has printed before it publishes, with the names it publishes it
under. The uptime in seconds and the text of the uptime in sols are read off the clock. -/
def statsMessages (info : SolInfo) (uptime : Int) (solUptime : CString) :
    List (CString × CString) :=
  [(sysTopic 5, decimal uptime),
   (sysTopic 6, solUptime),
   (sysTopic 7, decimal info.nclients),
   (sysTopic 9, decimal info.bytesSent),
   (sysTopic 11, decimal info.messagesSent),
   (sysTopic 12, decimal info.messagesRecv)]

/-- One call of `publish_message` in `publish_stats`, with what the kernel answers in it. -/
def publishStat (b : Broker T) (message : (CString × CString) × List Int) :
    Except Fault (Broker T) :=
  let ((topic, text), results) := message
  publishMessage b 0 (UInt16.ofNat topic.bytes.length) topic (UInt16.ofNat text.bytes.length)
    text.bytes results

/-- `publish_stats`. Answers that are not given are that everything is accepted. -/
def publishStats (b : Broker T) (uptime : Int) (solUptime : CString) (results : List (List Int)) :
    Except Fault (Broker T) :=
  ((statsMessages b.info uptime solUptime).zip (results ++ List.replicate 6 [])).foldlM
    publishStat b

/-! ## What is compared -/

/-- The PUBLISH with QoS 0 of a client. -/
def publishAtMostOnce (topic payload : CString) : MqttPublish where
  header := ⟨publishByte⟩
  topiclen := UInt16.ofNat topic.bytes.length
  topic := topic.bytes
  payloadlen := UInt16.ofNat payload.bytes.length
  payload := payload.bytes

/-- What is handed to `send_bytes`. -/
def Send.packet (send : Send) : Int × Packed × Nat := (send.fd, send.buf, send.len)

/-- The packets that a call sends, if it returns. -/
def sendsOf (b : Broker T) (run : Except Fault (Broker T)) :
    Except Fault (List (Int × Packed × Nat)) :=
  run.map fun b' => (b'.sent.drop b.sent.length).map Send.packet

/-- `publish_message` and `publish_handler` for the client of `cb` send the same, whatever
the kernel answers. -/
def PathsAgree (b : Broker T) (cb : ClosureRef) (topic payload : CString) : Prop :=
  ∀ results results',
    sendsOf b (publishMessage b 0 (UInt16.ofNat topic.bytes.length) topic
        (UInt16.ofNat payload.bytes.length) payload.bytes results) =
      sendsOf b ((publishHandler b cb (publishAtMostOnce topic payload) results').map Prod.snd)

/-- The topic has subscribers under the name that `subscribe_handler` stores. -/
def HasSubscribers (b : Broker T) (topic : CString) : Prop :=
  ∃ name appended filter,
    tupleTopic ⟨UInt16.ofNat topic.bytes.length, topic.bytes, 0⟩ = .ok (name, appended, filter) ∧
      b.view.subscribers name ≠ []

/-- A topic with a slash at its end. -/
def slashed (topic : CString) : CString :=
  if topic.bytes.getLast? = some slashChar then topic else appendString topic slash 1

/-- The descriptor of a subscriber and the two bits that a header keeps of its QoS. -/
def addressed (clients : Heap SolClient) (sub : Subscriber) : Except Fault (Int × UInt8) :=
  (deref clients sub.client).map fun c => (c.fd, sub.qos &&& 3)

/-- Whom a packet under a name goes to, in order. -/
def audience (b : Broker T) (name : CString) : Except Fault (List (Int × UInt8)) :=
  (b.view.subscribers name).mapM (addressed b.clientHeap)

/-! ## What both send -/

/-- The packet as it is sent to a subscriber. -/
def packetTo (pkt : MqttPublish) (addressee : Int × UInt8) : Int × Packed × Nat :=
  let pkt := { pkt with header := pkt.header.withQos addressee.2 }
  let len := publishLen pkt + remaininglenOffset (publishLen pkt)
  (addressee.1, ⟨len, publishBytes pkt⟩, len)

/-- The addressee of a packet that is sent. -/
def addresseeOf (packet : Int × Packed × Nat) : Int × UInt8 :=
  (packet.1, (⟨packet.2.1.written.headD 0⟩ : MqttHeader).qos)

theorem addresseeOf_packetTo (pkt : MqttPublish) (addressee : Int × UInt8) :
    addresseeOf (packetTo pkt addressee) = (addressee.1, addressee.2 &&& 3) := by
  rw [addresseeOf, packetTo]
  exact congrArg (Prod.mk addressee.1) (MqttHeader.qos_withQos ..)

theorem withQos_low_bits (h : MqttHeader) (q : UInt8) : h.withQos (q &&& 3) = h.withQos q := by
  simp only [MqttHeader.withQos, UInt8.and_assoc, UInt8.and_self]

section Loops

variable {b : Broker T} {pkt : MqttPublish} {subs : List Subscriber} {results : List Int}

theorem packetTo_to (sub : Subscriber) : packetTo (pkt.to sub) = packetTo pkt := by
  funext addressee
  simp only [packetTo, MqttPublish.to, MqttHeader.withQos_withQos]

def findAndPack (pkt : MqttPublish) : Preparing := fun clients sub => do
  let sc ← deref clients sub.client
  let pkt := { pkt with header := pkt.header.withQos sub.qos }
  let packed ← packMqttPacket (.publish pkt) .publish
  return (sc, packed, publishLen pkt + remaininglenOffset (publishLen pkt))

theorem publishMessageLoop_eq_rounds (pkt : MqttPublish) (subs : List Subscriber)
    (results : List Int) (b : Broker T) :
    publishMessageLoop pkt subs results b = sendRounds (findAndPack pkt) subs results b := by
  induction subs generalizing pkt results b with
  | nil => rfl
  | cons sub subs ih =>
      have same : findAndPack { pkt with header := pkt.header.withQos sub.qos } =
          findAndPack pkt := by
        funext clients sub'
        simp only [findAndPack, MqttHeader.withQos_withQos]
      simp only [publishMessageLoop, sendRounds, findAndPack, bind_assoc, pure_bind, ih, same]
      rfl

/-- The two loops are the same but for the order in which they look things up. -/
theorem publishMessageLoop_eq (topicLen : pkt.topiclen.toNat = pkt.topic.length)
    (payloadLen : pkt.payloadlen.toNat = pkt.payload.length) :
    publishMessageLoop pkt subs results b = publishLoop pkt subs results b := by
  rw [publishMessageLoop_eq_rounds, publishLoop_eq_rounds]
  congr 1
  funext clients sub
  have packs : packMqttPacket (.publish (pkt.to sub)) .publish = .ok _ :=
    packMqttPublish_eq (pkt.to sub) topicLen payloadLen
  rw [MqttPublish.to] at packs
  rw [findAndPack, packAndFind]
  dsimp only
  rw [packs]
  cases deref clients sub.client <;> rfl

/-- The loop sends one packet for each subscriber, if they exist, and fails otherwise. -/
theorem publishLoop_outcome (topicLen : pkt.topiclen.toNat = pkt.topic.length)
    (payloadLen : pkt.payloadlen.toNat = pkt.payload.length) :
    (publishLoop pkt subs results b).map (fun b' => b'.sent.map Send.packet) =
      (subs.mapM (addressed b.clientHeap)).map fun addressees =>
        b.sent.map Send.packet ++ addressees.map (packetTo pkt) := by
  induction subs generalizing pkt results b with
  | nil =>
      show Except.ok (b.sent.map Send.packet) = Except.ok (b.sent.map Send.packet ++ [])
      rw [List.append_nil]
  | cons sub subs ih =>
      have packs : packMqttPacket (.publish (pkt.to sub)) .publish = .ok _ :=
        packMqttPublish_eq (pkt.to sub) topicLen payloadLen
      rw [List.mapM_cons, addressed]
      cases held : b.clientHeap.get? sub.client with
      | none =>
          have lost : deref b.clientHeap sub.client = .error .useAfterFree := by
            rw [deref, held]
          have fails : publishLoop pkt (sub :: subs) results b = .error .useAfterFree := by
            rw [publishLoop]
            show (packMqttPacket (.publish (pkt.to sub)) .publish >>= fun packed =>
              deref b.clientHeap sub.client >>= fun sc => _) = _
            rw [packs, lost]
            rfl
          rw [fails, lost]
          rfl
      | some client =>
          have found : deref b.clientHeap sub.client = .ok client := deref_eq_ok.mpr held
          obtain ⟨info, send, ⟨client', held', fd, packs', len⟩, round⟩ :=
            publishLoop_cons packs held subs results
          cases held.symm.trans held'
          have first : send.packet = packetTo pkt (client.fd, sub.qos &&& 3) := by
            rw [packs] at packs'
            rw [Send.packet, packetTo, withQos_low_bits, fd, len, ← Except.ok.inj packs']
            rfl
          rw [round, found, @ih _ (pkt.to sub) _ topicLen payloadLen, packetTo_to]
          show _ = Except.map _ ((subs.mapM (addressed b.clientHeap)).map
            fun addressees => (client.fd, sub.qos &&& 3) :: addressees)
          cases subs.mapM (addressed b.clientHeap) with
          | error e => rfl
          | ok addressees =>
              show Except.ok ((b.sent ++ [send]).map Send.packet ++ addressees.map (packetTo pkt)) =
                Except.ok (b.sent.map Send.packet ++
                  packetTo pkt (client.fd, sub.qos &&& 3) :: addressees.map (packetTo pkt))
              rw [List.map_append, List.append_assoc, ← first]
              rfl

end Loops

section Paths

variable {b : Broker T} {cb : ClosureRef} {topic payload name : CString} {pkt : MqttPublish}

theorem ofNat_length_toNat {block : List UInt8} (short : block.length < 65536) :
    (UInt16.ofNat block.length).toNat = block.length := by
  simp [Nat.mod_eq_of_lt short]

/-- The sends of a call are what it appends. -/
theorem sendsOf_append {run : Except Fault (Broker T)}
    {f : Except Fault (List (Int × Packed × Nat))}
    (sent : run.map (fun b' => b'.sent.map Send.packet) =
      f.map fun packets => b.sent.map Send.packet ++ packets) : sendsOf b run = f := by
  cases run with
  | error e =>
      cases f with
      | error e' => exact sent
      | ok packets => cases sent
  | ok b' =>
      cases f with
      | error e' => cases sent
      | ok packets =>
          have same : b'.sent.map Send.packet = b.sent.map Send.packet ++ packets :=
            Except.ok.inj sent
          show Except.ok ((b'.sent.drop b.sent.length).map Send.packet) = Except.ok packets
          rw [List.map_drop, same, List.drop_left' (List.length_map ..)]

/-- The packet that `publish_message` fills in. -/
theorem mqttPacketPublish_atMostOnce (topic payload : CString) :
    mqttPacketPublish publishByte 0 (UInt16.ofNat topic.bytes.length).toNat topic.bytes
      (UInt16.ofNat payload.bytes.length).toNat payload.bytes =
        publishAtMostOnce topic payload := by
  rw [mqttPacketPublish, UInt16.ofNat_toNat, UInt16.ofNat_toNat]
  rfl

/-- `publish_message` sends to the audience of the topic as it is. -/
theorem publishMessage_sends (shortTopic : topic.bytes.length < 65536)
    (shortPayload : payload.bytes.length < 65536) (results : List Int) :
    sendsOf b (publishMessage b 0 (UInt16.ofNat topic.bytes.length) topic
        (UInt16.ofNat payload.bytes.length) payload.bytes results) =
      (audience b topic).map (List.map (packetTo (publishAtMostOnce topic payload))) := by
  have topicLen : (publishAtMostOnce topic payload).topiclen.toNat = _ :=
    ofNat_length_toNat shortTopic
  have payloadLen : (publishAtMostOnce topic payload).payloadlen.toNat = _ :=
    ofNat_length_toNat shortPayload
  apply sendsOf_append
  rw [publishMessage, audience, View.subscribers, mqttPacketPublish_atMostOnce, solTopicGet]
  have topics : b.view.topics = b.topics := rfl
  rw [topics]
  cases trieFind b.topics topic with
  | none =>
      show Except.ok (b.sent.map Send.packet) = Except.ok (b.sent.map Send.packet ++ [])
      rw [List.append_nil]
  | some t =>
      show Except.map _ (publishMessageLoop _ _ _ _) = Except.map _ (Except.map _
        (List.mapM _ (b.topicHeap[t]?.elim [] fun topic => topic.subscribers.nodes)))
      rw [publishMessageLoop_eq topicLen payloadLen, publishLoop_outcome topicLen payloadLen]
      cases List.mapM (addressed b.clientHeap) _ <;> rfl

/-- `publish_handler` sends to the audience of the name it looks up. -/
theorem publishHandler_sendsOf {closure : Closure} {c : ClientRef} {client : SolClient}
    (live : b.closureHeap.get? cb = some closure) (obj : closure.obj = some c)
    (held : b.clientHeap.get? c = some client) (named : publishTopic pkt = .ok name)
    (topicLen : pkt.topiclen.toNat = pkt.topic.length)
    (payloadLen : pkt.payloadlen.toNat = pkt.payload.length) (results : List Int) :
    sendsOf b ((publishHandler b cb pkt results).map Prod.snd) =
      (audience b name).map (List.map (packetTo pkt)) := by
  let b₀ : Broker T := { b with info := { b.info with messagesRecv := b.info.messagesRecv + 1 } }
  let looped := publishLoop pkt (b.view.subscribers name) results (publishedTopic b₀ name).2
  have found : derefObj b.clientHeap closure.obj = .ok (c, client) :=
    derefObj_eq_ok.mpr ⟨obj, held⟩
  have handled : publishHandler b cb pkt results =
      looped >>= fun b' => publishReply b' cb closure pkt := by
    rw [publishHandler, deref_eq_ok.mpr live]
    show (derefObj b.clientHeap closure.obj >>= _) = _
    rw [found]
    show (publishTopic pkt >>= _) = _
    rw [named]
    show (publishLoop pkt ((publishedTopic b₀ name).2.topicHeap[(publishedTopic b₀ name).1]?.elim []
      fun topic => topic.subscribers.nodes) results (publishedTopic b₀ name).2 >>= _) = _
    rw [subscribers_publishedTopic]
    rfl
  have replied : (looped >>= fun b' => publishReply b' cb closure pkt).map
      (fun r => r.2.sent.map Send.packet) = looped.map fun b' => b'.sent.map Send.packet := by
    cases looped with
    | error e => rfl
    | ok b₁ =>
        obtain ⟨rc, b', run⟩ := publishReply_returns b₁ cb closure pkt
        obtain ⟨closureHeap, rfl⟩ := publishReply_keeps run
        show Except.map _ (publishReply b₁ cb closure pkt) = _
        rw [run]
        rfl
  have outcome := @publishLoop_outcome T (publishedTopic b₀ name).2 pkt (b.view.subscribers name)
    results topicLen payloadLen
  obtain ⟨topics, topicHeap, same⟩ := publishedTopic_keeps b₀ name
  have sent : (publishedTopic b₀ name).2.sent = b.sent := by rw [same]
  have clients : (publishedTopic b₀ name).2.clientHeap = b.clientHeap := by rw [same]
  rw [sent, clients] at outcome
  apply sendsOf_append
  rw [handled]
  calc _ = (looped >>= fun b' => publishReply b' cb closure pkt).map
        (fun r => r.2.sent.map Send.packet) := by
          cases (looped >>= fun b' => publishReply b' cb closure pkt) <;> rfl
    _ = looped.map (fun b' => b'.sent.map Send.packet) := replied
    _ = _ := outcome
    _ = _ := by
          rw [audience]
          cases (b.view.subscribers name).mapM (addressed b.clientHeap) <;> rfl

/-- What is sent tells whom it is sent to. -/
theorem addressees_packetTo (clients : Heap SolClient) (pkt : MqttPublish)
    (subs : List Subscriber) :
    ((subs.mapM (addressed clients)).map (List.map (packetTo pkt))).map (List.map addresseeOf) =
      subs.mapM (addressed clients) := by
  induction subs with
  | nil => rfl
  | cons sub subs ih =>
      rw [List.mapM_cons, addressed]
      cases deref clients sub.client with
      | error e => rfl
      | ok client =>
          show Except.map _ (Except.map _ ((subs.mapM (addressed clients)).map
            fun addressees => (client.fd, sub.qos &&& 3) :: addressees)) =
              (subs.mapM (addressed clients)).map fun addressees =>
                (client.fd, sub.qos &&& 3) :: addressees
          cases all : subs.mapM (addressed clients) with
          | error e => rfl
          | ok addressees =>
              rw [all] at ih
              have rest : (addressees.map (packetTo pkt)).map addresseeOf = addressees :=
                Except.ok.inj ih
              have first : addresseeOf (packetTo pkt (client.fd, sub.qos &&& 3)) =
                  (client.fd, sub.qos &&& 3) := by
                rw [addresseeOf_packetTo, UInt8.and_assoc, UInt8.and_self]
              show Except.ok (addresseeOf (packetTo pkt (client.fd, sub.qos &&& 3)) ::
                (addressees.map (packetTo pkt)).map addresseeOf) =
                  Except.ok ((client.fd, sub.qos &&& 3) :: addressees)
              rw [rest, first]

theorem isTopic_of_hasSubscribers (short : topic.bytes.length < 65536)
    (subscribed : HasSubscribers b topic) :
    IsTopic (UInt16.ofNat topic.bytes.length) topic.bytes := by
  refine ⟨ofNat_length_toNat short, fun empty => ?_, topic.nulFree⟩
  obtain ⟨name, appended, filter, named, _⟩ := subscribed
  rw [empty] at named
  cases named

/-- A PUBLISH looks its topic up with a slash at its end. -/
theorem IsTopic.publishTopic_eq {pkt : MqttPublish} (is : IsTopic pkt.topiclen pkt.topic) :
    SolBroker.publishTopic pkt = .ok (slashed (cstr pkt.topic)) := by
  obtain ⟨name, named, bytes⟩ := is.publishTopic
  rw [named]
  refine congrArg Except.ok (CString.ext ?_)
  rw [bytes, normalised, slashed, is.bytes_cstr]
  split
  · exact is.bytes_cstr.symm
  · exact is.bytes_appendString.symm

theorem publishTopic_slashed (is : IsTopic (UInt16.ofNat topic.bytes.length) topic.bytes) :
    publishTopic (publishAtMostOnce topic payload) = .ok (slashed topic) := by
  have own : cstr topic.bytes = topic := CString.ext is.bytes_cstr
  have named := @IsTopic.publishTopic_eq (publishAtMostOnce topic payload) is
  change publishTopic (publishAtMostOnce topic payload) = .ok (slashed (cstr topic.bytes)) at named
  rwa [own] at named

section Client

variable {closure : Closure} {c : ClientRef} {client : SolClient}
  (live : b.closureHeap.get? cb = some closure) (obj : closure.obj = some c)
  (held : b.clientHeap.get? c = some client) (shortTopic : topic.bytes.length < 65536)
  (shortPayload : payload.bytes.length < 65536) (subscribed : HasSubscribers b topic)
include live obj held shortTopic shortPayload subscribed

/-- The two agree if the names they look up have the same audience. -/
theorem pathsAgree_iff_audience :
    PathsAgree b cb topic payload ↔ audience b topic = audience b (slashed topic) := by
  let pkt := publishAtMostOnce topic payload
  have topicLen : pkt.topiclen.toNat = pkt.topic.length := ofNat_length_toNat shortTopic
  have payloadLen : pkt.payloadlen.toNat = pkt.payload.length := ofNat_length_toNat shortPayload
  have named : publishTopic pkt = .ok (slashed topic) :=
    publishTopic_slashed (isTopic_of_hasSubscribers shortTopic subscribed)
  have message := publishMessage_sends (b := b) shortTopic shortPayload
  have handler := publishHandler_sendsOf live obj held named topicLen payloadLen
  constructor
  · intro agree
    have same := (message []).symm.trans ((agree [] []).trans (handler []))
    have addressees := congrArg (Except.map (List.map addresseeOf)) same
    rwa [audience, audience, addressees_packetTo, addressees_packetTo] at addressees
  · intro same results results'
    rw [message, handler, same]

/-- `publish_message` sends what `publish_handler` sends exactly if the topic ends with a
slash or has the same audience without one. -/
theorem pathsAgree_iff :
    PathsAgree b cb topic payload ↔
      topic.bytes.getLast? = some slashChar ∨ audience b topic = audience b (slashed topic) := by
  rw [pathsAgree_iff_audience live obj held shortTopic shortPayload subscribed]
  refine ⟨Or.inr, ?_⟩
  rintro (ends | same)
  · rw [slashed, if_pos ends]
  · exact same

end Client

end Paths

/-! ## Subscribing to the uptime in sols -/

/-- A client subscribes to `$SOL/broker/uptime/sol`. -/
def subscribeSolUptime : MqttSubscribe where
  header := ⟨0x82⟩
  pktId := 1
  tuplesLen := 1
  tuples := [⟨22, (sysTopic 6).bytes, 0⟩]

def connectAndSubscribeSolUptime : List Event :=
  connectOnly ++ [.ready 0 (.request (.subscribe subscribeSolUptime)) [], .ready 0 .dropped []]

theorem replay_subscribeSolUptime :
    ((replay brokerNext (startServer : Broker HashTable) connectAndSubscribeSolUptime).bind
      fun r => (r.2.closureHeap.get? 0).map fun closure =>
        (closure.obj, r.2.clientHeap.get? 0, r.2.view.subscribers (sysTopic 6),
          r.2.view.subscribers (slashed (sysTopic 6)))) =
      some (some 0, some (newClient (cstr [97]) 5 true), [], [⟨0, 0⟩]) := by
  decide +kernel

/-- The client gets what other clients publish under the name, and not what the broker does. -/
theorem solUptime_paths_disagree :
    ¬ ∀ tr b, Run BrokerStep (startServer : Broker HashTable) tr b → ∀ cb closure c client,
      b.closureHeap.get? cb = some closure → closure.obj = some c →
      b.clientHeap.get? c = some client → ∀ topic payload : CString,
      topic.bytes.length < 65536 → payload.bytes.length < 65536 → HasSubscribers b topic →
        PathsAgree b cb topic payload := by
  intro always
  obtain ⟨tr, b, run, _, facts⟩ :=
    Run.of_replay_bind (fun _ _ _ => brokerNext_step) replay_subscribeSolUptime
  obtain ⟨closure, live, facts⟩ := Option.map_eq_some_iff.mp facts
  simp only [Prod.mk.injEq] at facts
  obtain ⟨obj, held, without, subs⟩ := facts
  have named : tupleTopic ⟨UInt16.ofNat (sysTopic 6).bytes.length, (sysTopic 6).bytes, 0⟩ =
      .ok (slashed (sysTopic 6), true, false) := by decide +kernel
  have subscribed : HasSubscribers b (sysTopic 6) := by
    refine ⟨_, _, _, named, ?_⟩
    rw [subs]
    exact List.cons_ne_nil _ _
  have short : (sysTopic 6).bytes.length < 65536 := by decide +kernel
  have agree := always tr b run 0 closure 0 _ live obj held (sysTopic 6) (decimal 0) short
    (by decide +kernel) subscribed
  have same := (pathsAgree_iff_audience live obj held short (by decide +kernel) subscribed).mp agree
  rw [audience, audience, without, subs, List.mapM_cons, addressed, deref_eq_ok.mpr held] at same
  cases same

/-- Under a name with a slash it gets both. -/
theorem subscribeT_paths_agree :
    ∃ tr b, Run BrokerStep (startServer : Broker HashTable) tr b ∧
      tr.map Prod.snd = connectAndSubscribe ∧ PathsAgree b 0 (literal "t/") (decimal 0) := by
  obtain ⟨tr, b, closure, run, labels, live, _, obj, held, subs⟩ :=
    run_of_tableOfT replay_connectAndSubscribe
  have named : tupleTopic ⟨UInt16.ofNat (literal "t/").bytes.length, (literal "t/").bytes, 0⟩ =
      .ok (literal "t/", false, false) := by decide +kernel
  have subscribed : HasSubscribers b (literal "t/") := by
    refine ⟨_, _, _, named, ?_⟩
    rw [subs]
    exact List.cons_ne_nil _ _
  refine ⟨tr, b, run, labels, ?_⟩
  exact (pathsAgree_iff live obj held (by decide +kernel) (by decide +kernel) subscribed).mpr
    (.inl (by decide +kernel))

end SolBroker
