import Mathlib
import SolBroker.Lib.Heap
import SolBroker.Broker.Table
import SolBroker.Trie.Prefix
import SolBroker.Wire.Packet
import SolBroker.Wire.Pack

/-!
# The state of the broker

The records of core.h, network.h and server.h, with pointers as addresses into a
heap for each type of object. Topics are never freed and subscribers never change
once they are made, so the former live in a growing list and the latter are values.
What has been handed to `send_bytes` and which descriptors were closed is kept in
order; the start time and the event loop's periodic tasks are left out.
-/

namespace SolBroker

abbrev ClientRef := Nat
abbrev ClosureRef := Nat
abbrev TopicRef := Nat

/-- `struct subscriber`. -/
structure Subscriber where
  qos : UInt8
  client : ClientRef
deriving DecidableEq, Repr

/-- `struct topic`. -/
structure Topic where
  name : CString
  subscribers : CList Subscriber
deriving DecidableEq, Repr

/-- `struct sol_client`. The list of the session is `none` where `connect_handler`
leaves the pointer unset. -/
structure SolClient where
  clientId : CString
  fd : Int
  subscriptions : Option (CList TopicRef)
deriving DecidableEq, Repr

/-- The callbacks a client's closure is given. -/
inductive Callback
  | onRead
  | onWrite
deriving DecidableEq, Repr

/-- What a descriptor is armed for in the one-shot epoll set. -/
inductive Interest
  | input
  | output
deriving DecidableEq, Repr

/-- `struct closure`, with the interest its descriptor is armed for, if any. -/
structure Closure where
  fd : Int
  obj : Option ClientRef
  closureId : CString
  payload : Option Packed
  call : Callback
  armed : Option Interest
deriving DecidableEq, Repr

/-- `struct sol_info`. -/
structure SolInfo where
  nclients : Int := 0
  nconnections : Int := 0
  bytesRecv : Int := 0
  bytesSent : Int := 0
  messagesSent : Int := 0
  messagesRecv : Int := 0
deriving DecidableEq, Repr

/-- A call of `send_bytes`: the descriptor, the block, the length asked for and what
the call returned. -/
structure Send where
  fd : Int
  buf : Packed
  len : Nat
  result : Int
deriving DecidableEq, Repr

/-- `struct sol`, `info`, and the heaps its pointers lead into. -/
structure Broker (T : Type → Type) where
  clients : T ClientRef
  closures : T ClosureRef
  topics : Trie TopicRef
  clientHeap : Heap SolClient
  closureHeap : Heap Closure
  topicHeap : List Topic
  info : SolInfo
  sent : List Send
  closed : List Int

/-- `topic_init`. -/
def topicInit (name : CString) : Topic where
  name := name
  subscribers := listCreate

/-- Pushing to the subscriber list of a topic. -/
def Topic.push (sub : Subscriber) (t : Topic) : Topic :=
  { t with subscribers := listPush t.subscribers sub }

mutual

/-- `recursive_subscription`, which does not go below a node without data. -/
def recursiveSubscription (s : Subscriber) : TrieNode TopicRef → List Topic → List Topic
  | .node _ _ none, topics => topics
  | .node _ ⟨nodes, _⟩ (some t), topics =>
      (recursiveSubscriptions s nodes topics).modify t (.push s)

def recursiveSubscriptions (s : Subscriber) : List (TrieNode TopicRef) → List Topic → List Topic
  | [], topics => topics
  | child :: next, topics => recursiveSubscriptions s next (recursiveSubscription s child topics)

end

variable {T : Type → Type}

/-- `topic_add_subscriber`. -/
def topicAddSubscriber (b : Broker T) (t : TopicRef) (client : ClientRef) (qos : UInt8)
    (cleansession : Bool) : Except Fault (Broker T) := do
  let b := { b with topicHeap := b.topicHeap.modify t (.push ⟨qos, client⟩) }
  if cleansession then pure b
  else
    let c ← deref b.clientHeap client
    match c.subscriptions with
    | none => .error .nullDeref
    | some subscriptions =>
        let c := { c with subscriptions := some (listPush subscriptions t) }
        pure { b with clientHeap := b.clientHeap.write client c }

/-- `sol_topic_get`. -/
def solTopicGet (b : Broker T) (name : CString) : Option TopicRef :=
  trieFind b.topics name

/-- `topic_create` of a copy of the name, and `sol_topic_put`. -/
def solTopicPut (b : Broker T) (name : CString) : TopicRef × Broker T :=
  (b.topicHeap.length,
    { b with
      topicHeap := b.topicHeap ++ [topicInit name]
      topics := trieInsert b.topics name b.topicHeap.length })

end SolBroker
