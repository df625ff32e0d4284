import Mathlib
import SolBroker.Broker.Handlers

/-!
# What one event can do

Every event that is handled without a fault has one of seven effects. They are stated
on a view of the broker that leaves out what the callbacks only pass on, such as
payloads, counters and what was sent; a closure is seen through its link, the
descriptor, the client and the id it stands for. Two effects drop a connection, two
add a connection or a client, two reach the topics, and everything else leaves the
view as it is.
-/

namespace SolBroker

variable {T : Type → Type}

/-- The part of a closure that ties it to a connection and a client. -/
structure Link where
  fd : Int
  obj : Option ClientRef
  closureId : CString

def Closure.link (closure : Closure) : Link where
  fd := closure.fd
  obj := closure.obj
  closureId := closure.closureId

/-- The tables, the clients, the links of the closures and the topics. -/
structure View (T : Type → Type) where
  clients : T ClientRef
  closures : T ClosureRef
  clientHeap : Heap SolClient
  links : ClosureRef → Option Link
  nextClosure : ClosureRef
  topics : Trie TopicRef
  topicHeap : List Topic

def Broker.view (b : Broker T) : View T where
  clients := b.clients
  closures := b.closures
  clientHeap := b.clientHeap
  links := Option.map Closure.link ∘ b.closureHeap.get?
  nextClosure := b.closureHeap.next
  topics := b.topics
  topicHeap := b.topicHeap

namespace View

/-- A link is set. -/
def setLink (v : View T) (cb : ClosureRef) (link : Option Link) : View T :=
  { v with links := Function.update v.links cb link }

/-- A connection under a new closure. -/
def accept (v : View T) (closures : T ClosureRef) (fd : Int) (uuid : CString) : View T :=
  { v.setLink v.nextClosure (some ⟨fd, none, uuid⟩) with
    closures
    nextClosure := v.nextClosure + 1 }

/-- A new client for the closure `cb`. -/
def connect (v : View T) (clients : T ClientRef) (cb : ClosureRef) (link : Link) (c : SolClient) :
    View T :=
  { v.setLink cb (some { link with obj := some v.clientHeap.next }) with
    clients
    clientHeap := v.clientHeap.alloc c }

/-- A topic is created under a name that has none. -/
def createTopic (v : View T) (name : CString) : View T :=
  match trieFind v.topics name with
  | none =>
      { v with
        topics := trieInsert v.topics name v.topicHeap.length
        topicHeap := v.topicHeap ++ [topicInit name] }
  | some _ => v

theorem createTopic_frame (v : View T) (name : CString) :
    ∃ topics topicHeap, v.createTopic name = { v with topics, topicHeap } := by
  rw [createTopic]
  split <;> exact ⟨_, _, rfl⟩

variable [KeyTable T]

/-- A client is deleted by its key. -/
def dropClient (v : View T) (key : CString) : View T :=
  match KeyTable.del v.clients key with
  | (_, clients, none) => { v with clients }
  | (_, clients, some (_, c)) => { v with clients, clientHeap := v.clientHeap.free c }

/-- A closure is deleted by its key. -/
def dropClosure (v : View T) (key : CString) : View T :=
  match KeyTable.del v.closures key with
  | (_, closures, none) => { v with closures }
  | (_, closures, some (_, cb)) => { v.setLink cb none with closures }

theorem dropClient_frame (v : View T) (key : CString) :
    ∃ clients clientHeap, v.dropClient key = { v with clients, clientHeap } := by
  rw [dropClient]
  split <;> exact ⟨_, _, rfl⟩

theorem dropClosure_frame (v : View T) (key : CString) :
    ∃ closures links, v.dropClosure key = { v with closures, links } := by
  rw [dropClosure]
  split <;> exact ⟨_, _, rfl⟩

end View

/-! ## Closures -/

section Closures

variable {b b' : Broker T} {cb : ClosureRef} {closure old : Closure}

theorem view_links (live : b.closureHeap.get? cb = some closure) :
    b.view.links cb = some closure.link := by
  show (b.closureHeap.get? cb).map Closure.link = _
  rw [live]
  rfl

theorem view_setClosure (live : b.closureHeap.get? cb = some old) :
    (setClosure b cb closure).view = b.view.setLink cb (some closure.link) := by
  simp only [Broker.view, setClosure, View.setLink, Heap.next_write, Heap.get?_write_eq live,
    Function.comp_update, Option.map_some]

/-- Only the payload, the callback and the interest of a closure are assigned. -/
theorem view_setClosure_same (live : b.closureHeap.get? cb = some old)
    (same : closure.link = old.link) : (setClosure b cb closure).view = b.view := by
  rw [view_setClosure live, View.setLink, same, ← view_links live, Function.update_eq_self]

theorem rearm_view {rc : Int} (run : rearm b cb rc = .ok b') : b'.view = b.view := by
  rw [rearm] at run
  split at run
  · obtain ⟨closure, live, done⟩ := bind_eq_ok.mp run
    cases done
    exact view_setClosure_same (deref_eq_ok.mp live) rfl
  · cases run
    rfl

end Closures

/-! ## The handlers -/

section Dropping

variable [KeyTable T] {b b' : Broker T} {key : CString}

theorem delClient_view (run : delClient b key = .ok b') : b'.view = b.view.dropClient key := by
  have clients : b.view.clients = b.clients := rfl
  rw [delClient] at run
  rw [View.dropClient, clients]
  generalize KeyTable.del b.clients key = deleted at run ⊢
  obtain ⟨_, clients, _ | ⟨_, c⟩⟩ := deleted
  · cases run
    rfl
  · obtain ⟨_, _, done⟩ := bind_eq_ok.mp run
    cases done
    rfl

theorem delClosure_view (run : delClosure b key = .ok b') :
    b'.view = b.view.dropClosure key := by
  have closures : b.view.closures = b.closures := rfl
  rw [delClosure] at run
  rw [View.dropClosure, closures]
  generalize KeyTable.del b.closures key = deleted at run ⊢
  obtain ⟨_, closures, _ | ⟨_, cb⟩⟩ := deleted
  · cases run
    rfl
  · obtain ⟨_, _, done⟩ := bind_eq_ok.mp run
    cases done
    simp only [Broker.view, View.setLink, Heap.next_free, Heap.get?_free_eq, Function.comp_update,
      Option.map_none]

theorem dropConnection_view {clientId closureId : CString}
    (run : dropConnection b clientId closureId = .ok b') :
    b'.view = (b.view.dropClient clientId).dropClosure closureId := by
  obtain ⟨b₁, first, rest⟩ := bind_eq_ok.mp run
  obtain ⟨b₂, second, done⟩ := bind_eq_ok.mp rest
  cases done
  rw [← delClient_view first, ← delClosure_view second]
  rfl

end Dropping

section Topics

variable {b b' : Broker T} {cb : ClosureRef}

theorem subscribeTopic_keeps (topic : CString) (wildcard : Bool) (sub : Subscriber) :
    ∃ topics topicHeap, (subscribeTopic b topic wildcard sub).2 = { b with topics, topicHeap } := by
  rw [subscribeTopic]
  cases solTopicGet b topic with
  | none => exact ⟨_, _, rfl⟩
  | some t =>
      cases wildcard with
      | false => exact ⟨_, _, rfl⟩
      | true => exact ⟨_, _, rfl⟩

/-- What a round of a SUBSCRIBE does with the state of the broker. -/
theorem subscribeTuple_eq_ok {obj : ClientRef} {st st' : SubscribeState T} {tuple : SubscribeTuple}
    (run : subscribeTuple obj st tuple = .ok st') :
    ∃ topic appended filter t b, tupleTopic tuple = .ok (topic, appended, filter) ∧
      subscribeTopic st.broker topic (st.wildcard || filter) ⟨tuple.qos, obj⟩ = (t, b) ∧
      st'.broker = { b with topicHeap := b.topicHeap.modify t (.push ⟨tuple.qos, obj⟩) } := by
  obtain ⟨⟨topic, appended, filter⟩, named, rest⟩ := bind_eq_ok.mp run
  have done := Except.ok.inj rest
  exact ⟨topic, appended, filter, _, _, named, rfl, done ▸ rfl⟩

/-- The rounds of a SUBSCRIBE reach the topics only. -/
theorem subscribeTuples_keep {obj : ClientRef} {tuples : List SubscribeTuple}
    {st st' : SubscribeState T} (run : tuples.foldlM (subscribeTuple obj) st = .ok st') :
    ∃ topics topicHeap, st'.broker = { st.broker with topics, topicHeap } := by
  induction tuples generalizing st with
  | nil =>
      cases run
      exact ⟨_, _, rfl⟩
  | cons tuple tuples ih =>
      obtain ⟨mid, first, rest⟩ := bind_eq_ok.mp run
      obtain ⟨topic, _, filter, t, b₁, _, found, now⟩ := subscribeTuple_eq_ok first
      obtain ⟨_, _, same⟩ := subscribeTopic_keeps (b := st.broker) topic (st.wildcard || filter)
        ⟨tuple.qos, obj⟩
      rw [found] at same
      change b₁ = _ at same
      obtain ⟨topics, topicHeap, later⟩ := ih rest
      exact ⟨topics, topicHeap, by rw [later, now, same]⟩

theorem subscribeTuples_view {b₁ : Broker T} {obj : ClientRef} {tuples : List SubscribeTuple}
    {st : SubscribeState T} (same : b₁.view = b.view)
    (rounds : tuples.foldlM (subscribeTuple obj) { broker := b₁ } = .ok st) :
    ∃ topics topicHeap, st.broker.view = { b.view with topics, topicHeap } := by
  obtain ⟨topics, topicHeap, kept⟩ := subscribeTuples_keep rounds
  refine ⟨topics, topicHeap, ?_⟩
  rw [kept, ← same]
  rfl

/-- How a loop over subscribers comes to the packet for one of them, from the clients. -/
abbrev Preparing := Heap SolClient → Subscriber → Except Fault (SolClient × Packed × Nat)

/-- What the loops over subscribers have in common: in each round a packet is prepared and sent. -/
def sendRounds (prepare : Preparing) :
    List Subscriber → List Int → Broker T → Except Fault (Broker T)
  | [], _, b => .ok b
  | sub :: subs, results, b => do
      let (sc, packed, len) ← prepare b.clientHeap sub
      let (b, results, sent) := sendBytes b sc.fd packed len results
      sendRounds prepare subs results { b with info := { b.info with
        bytesSent := b.info.bytesSent + sent, messagesSent := b.info.messagesSent + 1 } }

/-- Sending to the subscribers only adds to what was sent and counted. -/
theorem sendRounds_keeps {prepare : Preparing} {subs : List Subscriber} {results : List Int}
    (run : sendRounds prepare subs results b = .ok b') :
    ∃ info sent, b' = { b with info, sent } := by
  induction subs generalizing results b with
  | nil =>
      cases run
      exact ⟨_, _, rfl⟩
  | cons sub subs ih =>
      obtain ⟨_, _, rest⟩ := bind_eq_ok.mp run
      obtain ⟨info, sent, same⟩ := ih rest
      exact ⟨info, sent, same⟩

def packAndFind (pkt : MqttPublish) : Preparing := fun clients sub => do
  let pkt := { pkt with header := pkt.header.withQos sub.qos }
  let pub ← packMqttPacket (.publish pkt) .publish
  let sc ← deref clients sub.client
  return (sc, pub, publishLen pkt + remaininglenOffset (publishLen pkt))

theorem publishLoop_eq_rounds (pkt : MqttPublish) (subs : List Subscriber) (results : List Int)
    (b : Broker T) :
    publishLoop pkt subs results b = sendRounds (packAndFind pkt) subs results b := by
  induction subs generalizing pkt results b with
  | nil => rfl
  | cons sub subs ih =>
      -- the QoS of a round is overwritten in the next
      have same : packAndFind { pkt with header := pkt.header.withQos sub.qos } =
          packAndFind pkt := by
        funext clients sub'
        simp only [packAndFind, MqttHeader.withQos_withQos]
      simp only [publishLoop, sendRounds, packAndFind, bind_assoc, pure_bind, ih, same]

theorem publishLoop_keeps {pkt : MqttPublish} {subs : List Subscriber} {results : List Int}
    (run : publishLoop pkt subs results b = .ok b') :
    ∃ info sent, b' = { b with info, sent } := by
  rw [publishLoop_eq_rounds] at run
  exact sendRounds_keeps run

theorem publishedTopic_view (topic : CString) :
    (publishedTopic b topic).2.view = b.view.createTopic topic := by
  show (match solTopicGet b topic with
    | none => solTopicPut b topic
    | some t => (t, b)).2.view = match solTopicGet b topic with
    | none => _
    | some _ => b.view
  cases solTopicGet b topic <;> rfl

theorem publishedTopic_keeps (b : Broker T) (name : CString) :
    ∃ topics topicHeap, (publishedTopic b name).2 = { b with topics, topicHeap } := by
  rw [publishedTopic]
  cases solTopicGet b name <;> exact ⟨_, _, rfl⟩

/-- The topic a PUBLISH looks up, with the broker that has counted the message. -/
def Broker.published (b : Broker T) (topic : CString) : TopicRef × Broker T :=
  publishedTopic { b with info := { b.info with messagesRecv := b.info.messagesRecv + 1 } } topic

theorem Broker.published_view (b : Broker T) (topic : CString) :
    (b.published topic).2.view = b.view.createTopic topic :=
  publishedTopic_view topic

theorem Broker.published_keeps (b : Broker T) (topic : CString) :
    ∃ info topics topicHeap, (b.published topic).2 = { b with info, topics, topicHeap } := by
  obtain ⟨topics, topicHeap, same⟩ := publishedTopic_keeps
    { b with info := { b.info with messagesRecv := b.info.messagesRecv + 1 } } topic
  exact ⟨_, topics, topicHeap, same⟩

/-- A PUBLISH is answered by its QoS, or not at all. -/
theorem publishReply_eq_ok {closure : Closure} {pkt : MqttPublish} {rc : Int}
    (run : publishReply b cb closure pkt = .ok (rc, b')) :
    (rc = rearmR ∧ b' = b ∧ pkt.header.qos ≠ atLeastOnce ∧ pkt.header.qos ≠ exactlyOnce) ∨
      ∃ byte, rc = rearmW ∧
        b' = (reply b cb closure ⟨mqttAckLen, byte :: 2 :: u16Bytes pkt.pktId⟩).2 ∧
        ((pkt.header.qos = atLeastOnce ∧ byte = pubackByte) ∨
          (pkt.header.qos = exactlyOnce ∧ byte = pubrecByte)) := by
  rw [publishReply] at run
  split at run
  · rename_i once
    obtain ⟨packed, packs, done⟩ := bind_eq_ok.mp run
    cases (packMqttAck_eq _).symm.trans packs
    cases done
    exact .inr ⟨pubackByte, rfl, rfl, .inl ⟨once, rfl⟩⟩
  · rename_i notOnce
    split at run
    · rename_i exactly
      obtain ⟨packed, packs, done⟩ := bind_eq_ok.mp run
      cases (packMqttAck_eq _).symm.trans packs
      cases done
      exact .inr ⟨pubrecByte, rfl, rfl, .inr ⟨exactly, rfl⟩⟩
    · rename_i notExactly
      cases run
      exact .inl ⟨rfl, rfl, notOnce, notExactly⟩

/-- A SUBSCRIBE that is handled, with its rounds and its reply. -/
theorem subscribeHandler_eq_ok {pkt : MqttSubscribe} {rc : Int}
    (run : subscribeHandler b cb pkt = .ok (rc, b')) :
    ∃ closure obj c st packed, b.closureHeap.get? cb = some closure ∧ closure.obj = some obj ∧
      b.clientHeap.get? obj = some c ∧ pkt.tuplesLen.toNat ≤ pkt.tuples.length ∧
      (pkt.tuples.take pkt.tuplesLen.toNat).foldlM (subscribeTuple obj) { broker := b } = .ok st ∧
      packMqttPacket (.suback (mqttPacketSuback subackByte pkt.pktId st.rcs pkt.tuplesLen))
          .suback =
        .ok packed ∧
      rc = rearmW ∧ b' = (reply st.broker cb closure packed).2 := by
  obtain ⟨closure, live, rest⟩ := bind_eq_ok.mp run
  obtain ⟨⟨obj, c⟩, held, rest⟩ := bind_eq_ok.mp rest
  obtain ⟨isObj, held⟩ := derefObj_eq_ok.mp held
  dsimp only at rest
  split at rest
  · cases rest
  · rename_i enough
    obtain ⟨st, rounds, rest⟩ := bind_eq_ok.mp rest
    split at rest
    · cases rest
    · obtain ⟨packed, packs, done⟩ := bind_eq_ok.mp rest
      cases done
      exact ⟨closure, obj, c, st, packed, deref_eq_ok.mp live, isObj, held, not_lt.mp enough,
        rounds, packs, rfl, rfl⟩

/-- A PUBLISH that is handled, with its rounds and its reply. -/
theorem publishHandler_eq_ok {pkt : MqttPublish} {results : List Int} {rc : Int}
    (run : publishHandler b cb pkt results = .ok (rc, b')) :
    ∃ closure c client name b₁, b.closureHeap.get? cb = some closure ∧ closure.obj = some c ∧
      b.clientHeap.get? c = some client ∧ publishTopic pkt = .ok name ∧
      publishLoop pkt ((b.published name).2.topicHeap[(b.published name).1]?.elim []
        fun topic => topic.subscribers.nodes) results (b.published name).2 = .ok b₁ ∧
      publishReply b₁ cb closure pkt = .ok (rc, b') := by
  obtain ⟨closure, live, rest⟩ := bind_eq_ok.mp run
  obtain ⟨⟨c, client⟩, owner, rest⟩ := bind_eq_ok.mp rest
  obtain ⟨isObj, held⟩ := derefObj_eq_ok.mp owner
  obtain ⟨name, named, rest⟩ := bind_eq_ok.mp rest
  obtain ⟨b₁, loop, replies⟩ := bind_eq_ok.mp rest
  exact ⟨closure, c, client, name, b₁, deref_eq_ok.mp live, isObj, held, named, loop, replies⟩

end Topics

/-! ## One packet -/

/-- A packet that has been handled: what its handler has looked up and called, the code it
returns and the state it leaves. -/
inductive Outcome [KeyTable T] (fuel : Nat) (b : Broker T) (cb : ClosureRef) (closure : Closure)
    (results : List Int) : Request → Int → Broker T → Prop
  | refused {pkt block b'} (given : pkt.payload.clientId = some block)
      (found : KeyTable.contains b.clients (cstr block) = true)
      (dropped : dropConnection (closeFd b closure.fd) (cstr block) closure.closureId = .ok b') :
      Outcome fuel b cb closure results (.connect pkt) (-rearmW) b'
  | connected {pkt block status clients packed} (given : pkt.payload.clientId = some block)
      (free : KeyTable.contains b.clients (cstr block) = false)
      (put : KeyTable.put fuel b.clients (cstr block) b.clientHeap.next = .ok (status, clients))
      (packs : packMqttPacket (.connack (mqttPacketConnack connackByte 0 0)) .connack =
        .ok packed) :
      Outcome fuel b cb closure results (.connect pkt) rearmW
        (reply
          { b with
            clients
            clientHeap := b.clientHeap.alloc (newClient (cstr block) closure.fd pkt.cleanSession) }
          cb { closure with obj := some b.clientHeap.next } packed).2
  | disconnected {c client b'} (isObj : closure.obj = some c)
      (held : b.clientHeap.get? c = some client)
      (dropped : dropConnection (closeFd b client.fd) client.clientId closure.closureId = .ok b') :
      Outcome fuel b cb closure results .disconnect (-rearmW) b'
  | subscribed {pkt obj c st packed} (isObj : closure.obj = some obj)
      (held : b.clientHeap.get? obj = some c) (enough : pkt.tuplesLen.toNat ≤ pkt.tuples.length)
      (rounds : (pkt.tuples.take pkt.tuplesLen.toNat).foldlM (subscribeTuple obj)
        { broker := b } = .ok st)
      (packs : packMqttPacket
        (.suback (mqttPacketSuback subackByte pkt.pktId st.rcs pkt.tuplesLen)) .suback =
          .ok packed) :
      Outcome fuel b cb closure results (.subscribe pkt) rearmW
        (reply st.broker cb closure packed).2
  | unsubscribed {pkt} :
      Outcome fuel b cb closure results (.unsubscribe pkt) rearmW
        (reply b cb closure ⟨mqttAckLen, unsubackByte :: 2 :: u16Bytes pkt.pktId⟩).2
  | published {pkt obj c topic b₁ rc b'} (isObj : closure.obj = some obj)
      (held : b.clientHeap.get? obj = some c) (named : publishTopic pkt = .ok topic)
      (loop : publishLoop pkt ((b.published topic).2.topicHeap[(b.published topic).1]?.elim []
        fun topic => topic.subscribers.nodes) results (b.published topic).2 = .ok b₁)
      (replies : publishReply b₁ cb closure pkt = .ok (rc, b')) :
      Outcome fuel b cb closure results (.publish pkt) rc b'

section Packets

variable [KeyTable T] {fuel : Nat} {b b' : Broker T} {cb : ClosureRef} {closure : Closure}
  {results : List Int} {rc : Int}

/-- The one case analysis of the handlers. -/
theorem handle_eq_ok {request : Request} (live : b.closureHeap.get? cb = some closure)
    (run : handle fuel b cb results request = .ok (rc, b')) :
    Outcome fuel b cb closure results request rc b' := by
  cases request with
  | connect pkt =>
      obtain ⟨_, live', rest⟩ := bind_eq_ok.mp run
      obtain rfl := Option.some.inj (live.symm.trans (deref_eq_ok.mp live'))
      cases given : pkt.payload.clientId with
      | none =>
          rw [given] at rest
          cases rest
      | some block =>
          simp only [given] at rest
          split at rest
          · rename_i found
            obtain ⟨b₁, dropped, done⟩ := bind_eq_ok.mp rest
            cases done
            exact .refused given found dropped
          · rename_i free
            obtain ⟨⟨status, clients⟩, put, rest⟩ := bind_eq_ok.mp rest
            obtain ⟨packed, packs, done⟩ := bind_eq_ok.mp rest
            cases done
            exact .connected given (Bool.eq_false_iff.mpr free) put packs
  | disconnect =>
      obtain ⟨_, live', rest⟩ := bind_eq_ok.mp run
      obtain rfl := Option.some.inj (live.symm.trans (deref_eq_ok.mp live'))
      obtain ⟨⟨c, client⟩, owner, rest⟩ := bind_eq_ok.mp rest
      obtain ⟨isObj, held⟩ := derefObj_eq_ok.mp owner
      obtain ⟨b₁, dropped, done⟩ := bind_eq_ok.mp rest
      cases done
      exact .disconnected isObj held dropped
  | subscribe pkt =>
      obtain ⟨_, obj, c, st, packed, live', isObj, held, enough, rounds, packs, rfl, rfl⟩ :=
        subscribeHandler_eq_ok run
      obtain rfl := Option.some.inj (live.symm.trans live')
      exact .subscribed isObj held enough rounds packs
  | unsubscribe pkt =>
      obtain ⟨_, live', rest⟩ := bind_eq_ok.mp run
      obtain rfl := Option.some.inj (live.symm.trans (deref_eq_ok.mp live'))
      obtain ⟨_, _, rest⟩ := bind_eq_ok.mp rest
      obtain ⟨packed, packs, done⟩ := bind_eq_ok.mp rest
      cases (packMqttAck_eq _).symm.trans packs
      cases done
      exact .unsubscribed
  | publish pkt =>
      obtain ⟨_, c, client, name, b₁, live', isObj, held, named, loop, replies⟩ :=
        publishHandler_eq_ok run
      obtain rfl := Option.some.inj (live.symm.trans live')
      exact .published isObj held named loop replies

end Packets

/-! ## One event -/

section Events

variable [KeyTable T]

/-- The effect of an event on the view, with everything it depends on. -/
inductive Effect (fuel : Nat) (b : Broker T) : Event → View T → Prop
  | accepted {fd uuid status closures}
      (put : KeyTable.put fuel b.closures uuid b.closureHeap.next = .ok (status, closures)) :
      Effect fuel b (.accept fd uuid) (b.view.accept closures fd uuid)
  | quiet {cb closure input results} (live : b.closureHeap.get? cb = some closure)
      (silent : closure.call = .onWrite ∨ input = .dropped ∨
        ∃ pkt, input = .request (.unsubscribe pkt)) :
      Effect fuel b (.ready cb input results) b.view
  | left {cb closure input results c client} (live : b.closureHeap.get? cb = some closure)
      (reads : closure.call = .onRead) (leaves : input = .packetErr ∨ input = .request .disconnect)
      (obj : closure.obj = some c) (held : b.clientHeap.get? c = some client) :
      Effect fuel b (.ready cb input results)
        ((b.view.dropClient client.clientId).dropClosure closure.closureId)
  | refused {cb closure pkt block results} (live : b.closureHeap.get? cb = some closure)
      (reads : closure.call = .onRead) (given : pkt.payload.clientId = some block)
      (found : KeyTable.contains b.clients (cstr block) = true) :
      Effect fuel b (.ready cb (.request (.connect pkt)) results)
        ((b.view.dropClient (cstr block)).dropClosure closure.closureId)
  | connected {cb closure pkt block results status clients}
      (live : b.closureHeap.get? cb = some closure)
      (reads : closure.call = .onRead) (given : pkt.payload.clientId = some block)
      (free : KeyTable.contains b.clients (cstr block) = false)
      (put : KeyTable.put fuel b.clients (cstr block) b.clientHeap.next = .ok (status, clients)) :
      Effect fuel b (.ready cb (.request (.connect pkt)) results)
        (b.view.connect clients cb closure.link
          (newClient (cstr block) closure.fd pkt.cleanSession))
  | subscribed {cb closure pkt results obj c b₁ st} (live : b.closureHeap.get? cb = some closure)
      (reads : closure.call = .onRead) (isObj : closure.obj = some obj)
      (held : b.clientHeap.get? obj = some c) (same : b₁.view = b.view)
      (rounds : (pkt.tuples.take pkt.tuplesLen.toNat).foldlM (subscribeTuple obj)
        { broker := b₁ } = .ok st) :
      Effect fuel b (.ready cb (.request (.subscribe pkt)) results) st.broker.view
  | published {cb closure pkt results obj c topic} (live : b.closureHeap.get? cb = some closure)
      (reads : closure.call = .onRead) (isObj : closure.obj = some obj)
      (held : b.clientHeap.get? obj = some c) (named : publishTopic pkt = .ok topic) :
      Effect fuel b (.ready cb (.request (.publish pkt)) results) (b.view.createTopic topic)

theorem onAccept_view {fuel : Nat} {b b' : Broker T} {fd : Int} {uuid : CString}
    (run : onAccept fuel b fd uuid = .ok b') :
    ∃ status closures,
      KeyTable.put fuel b.closures uuid b.closureHeap.next = .ok (status, closures) ∧
      b'.view = b.view.accept closures fd uuid := by
  obtain ⟨⟨status, closures⟩, put, done⟩ := bind_eq_ok.mp run
  cases done
  refine ⟨status, closures, put, ?_⟩
  simp only [Broker.view, View.accept, View.setLink, Heap.next_alloc, Heap.get?_alloc_eq,
    Function.comp_update, Option.map_some, Closure.link]

section Callback

variable {fuel : Nat} {b : Broker T} {cb : ClosureRef} {closure : Closure} {results : List Int}
  {input : Input} (live : b.closureHeap.get? cb = some closure)
include live

/-- An event on a closure that reads. -/
theorem dispatch_reading (reads : closure.call = .onRead) :
    dispatch fuel b (.ready cb input results) =
      onRead fuel (setClosure b cb { closure with armed := none }) cb results input := by
  have found : deref b.closureHeap cb = .ok closure := deref_eq_ok.mpr live
  rw [dispatch, found]
  dsimp only [bind, Except.bind]
  rw [reads]

/-- An event on a closure that writes. -/
theorem dispatch_writing (writes : closure.call = .onWrite) :
    dispatch fuel b (.ready cb input results) =
      onWrite (setClosure b cb { closure with armed := none }) cb results := by
  have found : deref b.closureHeap cb = .ok closure := deref_eq_ok.mpr live
  rw [dispatch, found]
  dsimp only [bind, Except.bind]
  rw [writes]

end Callback

/-- A packet in the state of its handler: the closure disarmed and the packet counted. -/
def readyToHandle (b : Broker T) (cb : ClosureRef) (closure : Closure) : Broker T :=
  let b := setClosure b cb { closure with armed := none }
  { b with info := { b.info with bytesRecv := b.info.bytesRecv + 1 } }

/-- An event that has been handled: the callback that was called, and what it has done. -/
inductive Called (fuel : Nat) (b : Broker T) : Event → Broker T → Prop
  | accepted {fd uuid b'} (run : onAccept fuel b fd uuid = .ok b') :
      Called fuel b (.accept fd uuid) b'
  | wrote {cb closure payload input results} (live : b.closureHeap.get? cb = some closure)
      (writes : closure.call = .onWrite) (held : closure.payload = some payload) :
      Called fuel b (.ready cb input results)
        { b with
          closureHeap := b.closureHeap.write cb
            { closure with payload := none, call := .onRead, armed := some .input }
          info := { b.info with bytesSent := b.info.bytesSent + results.headD payload.size }
          sent := b.sent ++ [⟨closure.fd, payload, payload.size, results.headD payload.size⟩] }
  | failed {cb closure results} (live : b.closureHeap.get? cb = some closure)
      (reads : closure.call = .onRead) :
      Called fuel b (.ready cb .dropped results) (setClosure b cb { closure with armed := none })
  | malformed {cb closure results c client b'} (live : b.closureHeap.get? cb = some closure)
      (reads : closure.call = .onRead) (isObj : closure.obj = some c)
      (held : b.clientHeap.get? c = some client)
      (dropped : dropConnection
        (closeFd (setClosure b cb { closure with armed := none }) closure.fd) client.clientId
        closure.closureId = .ok b') :
      Called fuel b (.ready cb .packetErr results) b'
  | handled {cb closure request results rc b₂ b'} (live : b.closureHeap.get? cb = some closure)
      (reads : closure.call = .onRead)
      (live₁ : (readyToHandle b cb closure).closureHeap.get? cb =
        some { closure with armed := none })
      (returned : handle fuel (readyToHandle b cb closure) cb results request = .ok (rc, b₂))
      (rearmed : rearm b₂ cb rc = .ok b') :
      Called fuel b (.ready cb (.request request) results) b'

/-- The one case analysis of the callbacks. -/
theorem dispatch_eq_ok {fuel : Nat} {b b' : Broker T} {event : Event}
    (run : dispatch fuel b event = .ok b') : Called fuel b event b' := by
  cases event with
  | accept fd uuid => exact .accepted run
  | ready cb input results =>
      obtain ⟨closure, live, _⟩ := bind_eq_ok.mp run
      have live := deref_eq_ok.mp live
      let b₀ := setClosure b cb { closure with armed := none }
      have live₀ : b₀.closureHeap.get? cb = some { closure with armed := none } := by
        show (b.closureHeap.write cb _).get? cb = _
        rw [Heap.get?_write live, if_pos rfl]
      cases reads : closure.call with
      | onWrite =>
          have rest : onWrite b₀ cb results = .ok b' := (dispatch_writing live reads).symm.trans run
          obtain ⟨_, live', rest⟩ := bind_eq_ok.mp rest
          obtain rfl := Option.some.inj (live₀.symm.trans (deref_eq_ok.mp live'))
          cases held : closure.payload with
          | none =>
              rw [held] at rest
              cases rest
          | some payload =>
              simp only [held] at rest
              obtain ⟨_, _, done⟩ := bind_eq_ok.mp rest
              cases done
              have wrote :=
                @Called.wrote T _ fuel b cb closure payload input results live reads held
              rwa [← Heap.write_write b.closureHeap cb { closure with armed := none }] at wrote
      | onRead =>
          have rest : onRead fuel b₀ cb results input = .ok b' :=
            (dispatch_reading live reads).symm.trans run
          cases input with
          | dropped =>
              obtain rfl : b₀ = b' := Except.ok.inj rest
              exact .failed live reads
          | packetErr =>
              obtain ⟨_, live', rest⟩ := bind_eq_ok.mp rest
              obtain ⟨⟨c, client⟩, owner, rest⟩ := bind_eq_ok.mp rest
              obtain ⟨isObj, held⟩ := derefObj_eq_ok.mp owner
              obtain rfl := Option.some.inj (live₀.symm.trans (deref_eq_ok.mp live'))
              exact .malformed live reads isObj held rest
          | request request =>
              obtain ⟨⟨rc, b₂⟩, handled, rest⟩ := bind_eq_ok.mp rest
              exact .handled live reads live₀ handled rest

/-- A decoded packet, on a broker with the view of `b` and the closure as it was but
disarmed. -/
theorem handle_effect {fuel : Nat} {b b₁ b' : Broker T} {cb : ClosureRef} {closure : Closure}
    {results : List Int} {request : Request} {rc : Int} (same : b₁.view = b.view)
    (live : b.closureHeap.get? cb = some closure)
    (live₁ : b₁.closureHeap.get? cb = some { closure with armed := none })
    (reads : closure.call = .onRead)
    (run : handle fuel b₁ cb results request = .ok (rc, b')) :
    Effect fuel b (.ready cb (.request request) results) b'.view := by
  have clients : b₁.clients = b.clients := congrArg View.clients same
  have clientHeap : b₁.clientHeap = b.clientHeap := congrArg View.clientHeap same
  -- what the view of a reply adds to that of the handler's own state
  have replied {b₂ : Broker T} {payload : Packed} (keeps : b₂.closureHeap = b₁.closureHeap) :
      (reply b₂ cb { closure with armed := none } payload).2.view = b₂.view := by
    have live₂ : b₂.closureHeap.get? cb = some { closure with armed := none } := by
      rw [keeps]
      exact live₁
    exact view_setClosure_same live₂ rfl
  cases handle_eq_ok live₁ run with
  | @refused pkt block _ given found dropped =>
      rw [clients] at found
      rw [dropConnection_view (b := closeFd b₁ closure.fd) dropped]
      show Effect fuel b _ ((b₁.view.dropClient (cstr block)).dropClosure closure.closureId)
      rw [same]
      exact .refused live reads given found
  | @connected pkt block status table _ given free put =>
      rw [clients] at free
      rw [clients, clientHeap] at put
      let client := newClient (cstr block) closure.fd pkt.cleanSession
      rw [show Broker.view _ = b₁.view.connect table cb closure.link client from view_setClosure
        (b := { b₁ with clients := table, clientHeap := b₁.clientHeap.alloc client }) live₁, same]
      exact .connected live reads given free put
  | @disconnected c client _ isObj held dropped =>
      rw [clientHeap] at held
      rw [dropConnection_view (b := closeFd b₁ client.fd) dropped]
      show Effect fuel b _ ((b₁.view.dropClient client.clientId).dropClosure closure.closureId)
      rw [same]
      exact .left live reads (.inr rfl) isObj held
  | subscribed isObj held enough rounds =>
      obtain ⟨_, _, keeps⟩ := subscribeTuples_keep rounds
      rw [clientHeap] at held
      rw [replied (by rw [keeps])]
      exact .subscribed live reads isObj held same rounds
  | @unsubscribed pkt =>
      rw [replied rfl, same]
      exact .quiet live (.inr (.inr ⟨pkt, rfl⟩))
  | @published pkt obj c topic b₂ _ _ isObj held named loop replies =>
      obtain ⟨info, sent, rfl⟩ := publishLoop_keeps loop
      obtain ⟨_, _, _, keeps⟩ := b₁.published_keeps topic
      rw [clientHeap] at held
      have created : Broker.view { (b₁.published topic).2 with info, sent } =
          b.view.createTopic topic := by
        rw [← same]
        exact b₁.published_view topic
      obtain ⟨_, rfl, _⟩ | ⟨byte, _, rfl, _⟩ := publishReply_eq_ok replies
      · rw [created]
        exact .published live reads isObj held named
      · rw [replied (by rw [keeps]), created]
        exact .published live reads isObj held named

/-- Every event that is handled has one of the effects. -/
theorem dispatch_effect {fuel : Nat} {b b' : Broker T} {event : Event}
    (run : dispatch fuel b event = .ok b') : Effect fuel b event b'.view := by
  cases dispatch_eq_ok run with
  | accepted run =>
      obtain ⟨status, closures, put, after⟩ := onAccept_view run
      rw [after]
      exact .accepted put
  | @wrote cb closure payload input results live writes held =>
      let written : Closure :=
        { closure with payload := none, call := .onRead, armed := some .input }
      have same : (setClosure b cb written).view = b.view := view_setClosure_same live rfl
      show Effect fuel b _ (setClosure b cb written).view
      rw [same]
      exact .quiet live (.inl writes)
  | @failed cb closure _ live reads =>
      have same : (setClosure b cb { closure with armed := none }).view = b.view :=
        view_setClosure_same live rfl
      rw [same]
      exact .quiet live (.inr (.inl rfl))
  | @malformed cb closure results c client b' live reads isObj held dropped =>
      rw [dropConnection_view (b := closeFd (setClosure b cb _) closure.fd) dropped]
      have same : (setClosure b cb { closure with armed := none }).view = b.view :=
        view_setClosure_same live rfl
      show Effect fuel b _ (((setClosure b cb { closure with armed := none }).view.dropClient
        client.clientId).dropClosure closure.closureId)
      rw [same]
      exact .left live reads (.inl rfl) isObj held
  | @handled cb closure _ _ _ _ _ live reads live₁ returned rearmed =>
      rw [rearm_view rearmed]
      have same : (readyToHandle b cb closure).view = b.view := view_setClosure_same live rfl
      exact handle_effect same live live₁ reads returned

/-- The topics of the server are all that it starts with. -/
theorem startServer_eq :
    ∃ topics topicHeap, (startServer : Broker T) = { solInit with topics, topicHeap } := by
  have kept (names : List CString) (b : Broker T) : ∃ topics topicHeap,
      names.foldl (fun b name => (solTopicPut b name).2) b = { b with topics, topicHeap } := by
    induction names generalizing b with
    | nil => exact ⟨_, _, rfl⟩
    | cons name names ih =>
        obtain ⟨topics, topicHeap, same⟩ := ih (solTopicPut b name).2
        exact ⟨topics, topicHeap, same⟩
  exact kept sysTopics solInit

theorem startServer_view :
    ∃ topics topicHeap,
      (startServer : Broker T).view = { solInit.view with topics, topicHeap } := by
  obtain ⟨topics, topicHeap, same⟩ := startServer_eq (T := T)
  exact ⟨topics, topicHeap, congrArg Broker.view same⟩

end Events

end SolBroker
