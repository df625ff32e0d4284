import Mathlib
import SolBroker.Broker.State
import SolBroker.Wire.Encode

/-!
# The handlers and the callbacks of the event loop

server.c from the moment a packet has been read and decoded. Which handler a decoded
packet goes to is taken from its type; the reading and the two tables in front of it
are modelled elsewhere. A handler returns its code and the state it leaves, or the
fault it runs into. What the kernel answers to each send is an argument, everything
being accepted once the given answers are used up.
-/

namespace SolBroker

variable {T : Type → Type}

def rearmR : Int := 0
def rearmW : Int := 1

/-! ## Strings of a packet -/

/-- `str[n - k]` in a block that is followed by a NUL. -/
def charBefore (block : List UInt8) (n : UInt16) (k : Nat) : Except Fault UInt8 :=
  if n.toNat < k then .error .outOfBounds
  else
    match (block ++ [0])[n.toNat - k]? with
    | some c => .ok c
    | none => .error .outOfBounds

/-- `remove_occur`. -/
def removeOccur (str : CString) (c : UInt8) : CString where
  bytes := str.bytes.filter (· ≠ c)
  nulFree := fun member => str.nulFree (List.mem_filter.mp member).1

/-- `append_string`. -/
def appendString (src chunk : CString) (chunklen : Nat) : CString where
  bytes := src.bytes ++ chunk.bytes.take chunklen
  nulFree := by
    rw [List.mem_append]
    rintro (member | member)
    · exact src.nulFree member
    · exact chunk.nulFree (List.mem_of_mem_take member)

/-- The byte of `'/'`. -/
def slashChar : UInt8 := 47

/-- The byte of `'#'`. -/
def hashChar : UInt8 := 35

def slash : CString := .letter slashChar (by decide)

/-! ## Shared steps -/

def closeFd (b : Broker T) (fd : Int) : Broker T :=
  { b with closed := b.closed ++ [fd] }

/-- `send_bytes`, with the answer taken from the front of `results`. -/
def sendBytes (b : Broker T) (fd : Int) (buf : Packed) (len : Nat) (results : List Int) :
    Broker T × List Int × Int :=
  let result := results.headD len
  ({ b with sent := b.sent ++ [⟨fd, buf, len, result⟩] }, results.tail, result)

section Tables

variable [KeyTable T]

/-- `hashtable_del(sol.clients, key)`, with `client_destructor` on the entry. -/
def delClient (b : Broker T) (key : CString) : Except Fault (Broker T) :=
  match KeyTable.del b.clients key with
  | (_, clients, none) => .ok { b with clients }
  | (_, clients, some (_, c)) => do
      let _ ← deref b.clientHeap c
      return { b with clients, clientHeap := b.clientHeap.free c }

/-- `hashtable_del(sol.closures, key)`, with `closure_destructor` on the entry. -/
def delClosure (b : Broker T) (key : CString) : Except Fault (Broker T) :=
  match KeyTable.del b.closures key with
  | (_, closures, none) => .ok { b with closures }
  | (_, closures, some (_, cb)) => do
      let _ ← deref b.closureHeap cb
      return { b with closures, closureHeap := b.closureHeap.free cb }

/-- How a connection is dropped: its client and its closure are deleted by their keys
and the counters go down. -/
def dropConnection (b : Broker T) (clientId closureId : CString) : Except Fault (Broker T) := do
  let b ← delClient b clientId
  let b ← delClosure b closureId
  return { b with info := { b.info with
    nclients := b.info.nclients - 1, nconnections := b.info.nconnections - 1 } }

end Tables

def setClosure (b : Broker T) (cb : ClosureRef) (closure : Closure) : Broker T :=
  { b with closureHeap := b.closureHeap.write cb closure }

/-- The reply of a handler, left with the closure to be written. -/
def reply (b : Broker T) (cb : ClosureRef) (closure : Closure) (packed : Packed) :
    Int × Broker T :=
  (rearmW, setClosure b cb { closure with payload := some packed })

/-! ## The handlers -/

/-- The client a CONNECT adds. -/
def newClient (cid : CString) (fd : Int) (cleanSession : Bool) : SolClient where
  clientId := cid
  fd := fd
  subscriptions := if cleanSession then none else some listCreate

/-- `connect_handler`. A NULL client id fails the assertion of `hashtable_get`. -/
def connectHandler [KeyTable T] (fuel : Nat) (b : Broker T) (cb : ClosureRef) (pkt : MqttConnect) :
    Except Fault (Int × Broker T) := do
  let closure ← deref b.closureHeap cb
  match pkt.payload.clientId with
  | none => .error .assertFailed
  | some block =>
      let cid := cstr block
      if KeyTable.contains b.clients cid then
        let b ← dropConnection (closeFd b closure.fd) cid closure.closureId
        return (-rearmW, b)
      else
        let obj := b.clientHeap.next
        let (_, clients) ← KeyTable.put fuel b.clients cid obj
        let packed ← packMqttPacket (.connack (mqttPacketConnack connackByte 0 0)) .connack
        let c := newClient cid closure.fd pkt.cleanSession
        let b := { b with clients, clientHeap := b.clientHeap.alloc c }
        return reply b cb { closure with obj := some obj } packed

/-- `disconnect_handler`. -/
def disconnectHandler [KeyTable T] (b : Broker T) (cb : ClosureRef) :
    Except Fault (Int × Broker T) := do
  let closure ← deref b.closureHeap cb
  let (_, c) ← derefObj b.clientHeap closure.obj
  let b ← dropConnection (closeFd b c.fd) c.clientId closure.closureId
  return (-rearmW, b)

/-- The variables of the loop in `subscribe_handler`, and whether it has freed a topic
string that still belongs to the packet. -/
structure SubscribeState (T : Type → Type) where
  broker : Broker T
  wildcard : Bool := false
  alloced : Bool := false
  ownFreed : Bool := false
  rcs : List UInt8 := []

/-- The name looked up for a tuple; whether it is a new string, and whether the tuple
is a wildcard. -/
def tupleTopic (tuple : SubscribeTuple) : Except Fault (CString × Bool × Bool) := do
  let last ← charBefore tuple.topic tuple.topicLen 1
  let filter ←
    if last = hashChar then (charBefore tuple.topic tuple.topicLen 2).map (· == slashChar)
    else pure false
  if filter then pure (removeOccur (cstr tuple.topic) hashChar, false, true)
  else if last ≠ slashChar then pure (appendString (cstr tuple.topic) slash 1, true, false)
  else pure (cstr tuple.topic, false, false)

/-- The topic of a tuple: created, or found and, under a wildcard, its subtopics
subscribed. -/
def subscribeTopic (b : Broker T) (topic : CString) (wildcard : Bool) (sub : Subscriber) :
    TopicRef × Broker T :=
  match solTopicGet b topic with
  | none => solTopicPut b topic
  | some t =>
      let mapped := triePrefixMapTuple b.topics topic (recursiveSubscription sub) b.topicHeap
      (t, if wildcard then { b with topicHeap := mapped } else b)

/-- One round of the loop in `subscribe_handler`. Neither flag is reset between rounds. -/
def subscribeTuple (obj : ClientRef) (st : SubscribeState T) (tuple : SubscribeTuple) :
    Except Fault (SubscribeState T) := do
  let (topic, appended, filter) ← tupleTopic tuple
  let wildcard := st.wildcard || filter
  let alloced := st.alloced || appended
  let (t, b) := subscribeTopic st.broker topic wildcard ⟨tuple.qos, obj⟩
  let b ← topicAddSubscriber b t obj tuple.qos true
  return { broker := b, wildcard, alloced, ownFreed := st.ownFreed || (alloced && !appended),
           rcs := st.rcs ++ [tuple.qos] }

/-- `subscribe_handler`. Releasing the packet frees every topic string once more. -/
def subscribeHandler (b : Broker T) (cb : ClosureRef) (pkt : MqttSubscribe) :
    Except Fault (Int × Broker T) := do
  let closure ← deref b.closureHeap cb
  let (obj, _) ← derefObj b.clientHeap closure.obj
  if pkt.tuples.length < pkt.tuplesLen.toNat then .error .outOfBounds
  else
    let st ← (pkt.tuples.take pkt.tuplesLen.toNat).foldlM (subscribeTuple obj) { broker := b }
    if st.ownFreed then .error .doubleFree
    else
      let suback := mqttPacketSuback subackByte pkt.pktId st.rcs pkt.tuplesLen
      let packed ← packMqttPacket (.suback suback) .suback
      return reply st.broker cb closure packed

/-- `unsubscribe_handler`. -/
def unsubscribeHandler (b : Broker T) (cb : ClosureRef) (pkt : MqttUnsubscribe) :
    Except Fault (Int × Broker T) := do
  let closure ← deref b.closureHeap cb
  let _ ← derefObj b.clientHeap closure.obj
  let packed ← packMqttPacket (.ack (mqttPacketAck unsubackByte pkt.pktId)) .unsuback
  return reply b cb closure packed

/-- The loop of `publish_handler` over the subscribers. The length it sends is the one
`pack_mqtt_publish` computes, written out once more. -/
def publishLoop (pkt : MqttPublish) : List Subscriber → List Int → Broker T →
    Except Fault (Broker T)
  | [], _, b => .ok b
  | sub :: cur, results, b => do
      let pkt := { pkt with header := pkt.header.withQos sub.qos }
      let publen := publishLen pkt + remaininglenOffset (publishLen pkt)
      let pub ← packMqttPacket (.publish pkt) .publish
      let sc ← deref b.clientHeap sub.client
      let (b, results, sent) := sendBytes b sc.fd pub publen results
      publishLoop pkt cur results { b with info := { b.info with
        bytesSent := b.info.bytesSent + sent, messagesSent := b.info.messagesSent + 1 } }

/-- The name looked up for a PUBLISH. -/
def publishTopic (pkt : MqttPublish) : Except Fault CString := do
  let last ← charBefore pkt.topic pkt.topiclen 1
  if last ≠ slashChar then return appendString (cstr pkt.topic) slash 1
  else return cstr pkt.topic

/-- The topic of a PUBLISH, created if there is none. -/
def publishedTopic (b : Broker T) (topic : CString) : TopicRef × Broker T :=
  match solTopicGet b topic with
  | none => solTopicPut b topic
  | some t => (t, b)

/-- The reply to a PUBLISH, by the QoS it came with. -/
def publishReply (b : Broker T) (cb : ClosureRef) (closure : Closure) (pkt : MqttPublish) :
    Except Fault (Int × Broker T) := do
  if pkt.header.qos = atLeastOnce then
    let packed ← packMqttPacket (.ack (mqttPacketAck pubackByte pkt.pktId)) .puback
    return reply b cb closure packed
  else if pkt.header.qos = exactlyOnce then
    let packed ← packMqttPacket (.ack (mqttPacketAck pubrecByte pkt.pktId)) .pubrec
    return reply b cb closure packed
  else return (rearmR, b)

/-- `publish_handler`. -/
def publishHandler (b : Broker T) (cb : ClosureRef) (pkt : MqttPublish) (results : List Int) :
    Except Fault (Int × Broker T) := do
  let closure ← deref b.closureHeap cb
  let _ ← derefObj b.clientHeap closure.obj
  let b := { b with info := { b.info with messagesRecv := b.info.messagesRecv + 1 } }
  let topic ← publishTopic pkt
  let (t, b) := publishedTopic b topic
  let b ← publishLoop pkt (b.topicHeap[t]?.elim [] fun topic => topic.subscribers.nodes) results b
  publishReply b cb closure pkt

/-! ## The callbacks -/

/-- A decoded packet, for the handlers that are defined. -/
inductive Request
  | connect (pkt : MqttConnect)
  | disconnect
  | subscribe (pkt : MqttSubscribe)
  | unsubscribe (pkt : MqttUnsubscribe)
  | publish (pkt : MqttPublish)
deriving DecidableEq, Repr

/-- What `recv_packet` has come back with: a packet, `-ERRPACKETERR`, or one of
`-ERRCLIENTDC` and `-ERRMAXREQSIZE`. -/
inductive Input
  | request (request : Request)
  | packetErr
  | dropped
deriving DecidableEq, Repr

section Callbacks

variable [KeyTable T]

/-- The call through `handlers`. -/
def handle (fuel : Nat) (b : Broker T) (cb : ClosureRef) (results : List Int) :
    Request → Except Fault (Int × Broker T)
  | .connect pkt => connectHandler fuel b cb pkt
  | .disconnect => disconnectHandler b cb
  | .subscribe pkt => subscribeHandler b cb pkt
  | .unsubscribe pkt => unsubscribeHandler b cb pkt
  | .publish pkt => publishHandler b cb pkt results

/-- What `on_read` does with the code of a handler. The second test is the first one
again. -/
def rearm (b : Broker T) (cb : ClosureRef) (rc : Int) : Except Fault (Broker T) :=
  if rc = rearmW then do
    let closure ← deref b.closureHeap cb
    return setClosure b cb { closure with call := .onWrite, armed := some .output }
  else if rc = rearmW then do
    let closure ← deref b.closureHeap cb
    return setClosure b cb { closure with call := .onRead, armed := some .input }
  else return b

/-- `on_read`, after `recv_packet`. -/
def onRead (fuel : Nat) (b : Broker T) (cb : ClosureRef) (results : List Int) :
    Input → Except Fault (Broker T)
  | .dropped => .ok b
  | .packetErr => do
      let closure ← deref b.closureHeap cb
      let (_, c) ← derefObj b.clientHeap closure.obj
      dropConnection (closeFd b closure.fd) c.clientId closure.closureId
  | .request request => do
      let b := { b with info := { b.info with bytesRecv := b.info.bytesRecv + 1 } }
      let (rc, b) ← handle fuel b cb results request
      rearm b cb rc

/-- A failed send is logged with the id of the client. -/
def logFailure (b : Broker T) (obj : Option ClientRef) (sent : Int) : Except Fault Unit :=
  if sent < 0 then (derefObj b.clientHeap obj).map fun _ => () else .ok ()

/-- `on_write`. -/
def onWrite (b : Broker T) (cb : ClosureRef) (results : List Int) : Except Fault (Broker T) := do
  let closure ← deref b.closureHeap cb
  match closure.payload with
  | none => .error .nullDeref
  | some payload =>
      let (b, _, sent) := sendBytes b closure.fd payload payload.size results
      logFailure b closure.obj sent
      let b := { b with info := { b.info with bytesSent := b.info.bytesSent + sent } }
      return setClosure b cb { closure with payload := none, call := .onRead, armed := some .input }

/-- `on_accept`, with the descriptor left in `conn` and the id that was generated. -/
def onAccept (fuel : Nat) (b : Broker T) (fd : Int) (uuid : CString) : Except Fault (Broker T) := do
  let cb := b.closureHeap.next
  let (_, closures) ← KeyTable.put fuel b.closures uuid cb
  let closure : Closure :=
    { fd
      obj := none
      closureId := uuid
      payload := none
      call := .onRead
      armed := some .input }
  return { b with
    closures
    closureHeap := b.closureHeap.alloc closure
    info := { b.info with
      nclients := b.info.nclients + 1, nconnections := b.info.nconnections + 1 } }

/-- What the event loop hands to the broker: a connection to accept, or a ready
descriptor of a closure, with what is there to be read. -/
inductive Event
  | accept (fd : Int) (uuid : CString)
  | ready (cb : ClosureRef) (input : Input) (results : List Int)
deriving DecidableEq, Repr

/-- One event: the descriptor is disarmed and the closure's callback is called. -/
def dispatch (fuel : Nat) (b : Broker T) : Event → Except Fault (Broker T)
  | .accept fd uuid => onAccept fuel b fd uuid
  | .ready cb input results => do
      let closure ← deref b.closureHeap cb
      let b := setClosure b cb { closure with armed := none }
      match closure.call with
      | .onRead => onRead fuel b cb results input
      | .onWrite => onWrite b cb results

/-- `sys_topics`. -/
def sysTopics : List CString :=
  [literal "$SOL/",
   literal "$SOL/broker/",
   literal "$SOL/broker/clients/",
   literal "$SOL/broker/bytes/",
   literal "$SOL/broker/messages/",
   literal "$SOL/broker/uptime/",
   literal "$SOL/broker/uptime/sol",
   literal "$SOL/broker/clients/connected/",
   literal "$SOL/broker/clients/disconnected/",
   literal "$SOL/broker/bytes/sent/",
   literal "$SOL/broker/bytes/received/",
   literal "$SOL/broker/messages/sent/",
   literal "$SOL/broker/messages/received/",
   literal "$SOL/broker/memory/used"]

/-- `sol` and `info` once the tables and the trie are made. -/
def solInit : Broker T where
  clients := KeyTable.create
  closures := KeyTable.create
  topics := trieInit
  clientHeap := {}
  closureHeap := {}
  topicHeap := []
  info := {}
  sent := []
  closed := []

/-- The state `start_server` enters the event loop with. -/
def startServer : Broker T :=
  sysTopics.foldl (fun b name => (solTopicPut b name).2) solInit

/-- What `generate_uuid` writes: 36 characters, with its digits in lower case. -/
def IsUuid (s : CString) : Prop :=
  s.bytes.length = 36 ∧ s.bytes.map tolower = s.bytes

instance (s : CString) : Decidable (IsUuid s) :=
  inferInstanceAs (Decidable (_ ∧ _))

/-- The ids of accepted connections are fresh: no closure that still exists has the
same one. -/
def FreshUuid (b : Broker T) : Event → Prop
  | .accept _ uuid => IsUuid uuid ∧
      ∀ cb closure, b.closureHeap.get? cb = some closure → closure.closureId ≠ uuid
  | .ready .. => True

instance (b : Broker T) (event : Event) : Decidable (FreshUuid b event) :=
  match event with
  | .accept _ uuid =>
      decidable_of_iff (IsUuid uuid ∧ ∀ closure ∈ b.closureHeap.objects, closure.closureId ≠ uuid)
        (by
          simp only [Heap.mem_objects, forall_exists_index]
          exact and_congr_right fun _ => forall_comm)
  | .ready .. => inferInstanceAs (Decidable True)

/-- A callback that returns. Descriptors may become ready at any time, whatever they are
armed for, so the runs include all that epoll lets through. -/
def BrokerStep (b : Broker T) (event : Event) (b' : Broker T) : Prop :=
  FreshUuid b event ∧ ∃ fuel, dispatch fuel b event = .ok b'

/-- A step that can be evaluated, as long as no put rebuilds a table twice. -/
def brokerNext (b : Broker T) (event : Event) : Option (Broker T) :=
  if FreshUuid b event then (dispatch 2 b event).toOption else none

theorem brokerNext_step {b b' : Broker T} {event : Event} (next : brokerNext b event = some b') :
    BrokerStep b event b' := by
  rw [brokerNext] at next
  split at next
  · rename_i fresh
    exact ⟨fresh, 2, toOption_eq_some.mp next⟩
  · cases next

end Callbacks

end SolBroker
