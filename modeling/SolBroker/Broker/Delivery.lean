import Mathlib
import SolBroker.Broker.Names
import SolBroker.Broker.Rearm
import SolBroker.Broker.Unsubscribe

/-!
# Subscriptions are not lost

As long as no client is destroyed, a subscription outlives everything: topics are found
again under the name both handlers make of a topic, lists only grow, and the clients in
them exist. A client is destroyed only with its connection, and among CONNECT, SUBSCRIBE
and PUBLISH only by a CONNECT whose id is found among the clients, which need not be the
id of the client found.
-/

namespace SolBroker

open Transition

variable {T : Type → Type}

/-- No registered client has the id. -/
def NotRegistered (b : Broker T) (id : CString) : Prop :=
  ∀ c client, b.clientHeap.get? c = some client → client.clientId ≠ id

section Packets

variable [KeyTable T]

/-- The PUBLISH is handled, and a packet with this QoS goes to the descriptor. -/
def Delivers (b : Broker T) (cb : ClosureRef) (pkt : MqttPublish) (fd : Int) (qos : UInt8) : Prop :=
  ∀ fuel results, ∃ b' sends send byte,
    dispatch fuel b (.ready cb (.request (.publish pkt)) results) = .ok b' ∧
      b'.sent = b.sent ++ sends ∧ send ∈ sends ∧ send.fd = fd ∧
      send.buf.written.head? = some byte ∧ (⟨byte⟩ : MqttHeader).qos = qos

/-- A SUBSCRIBE of the client `c`, read in `b`, with this tuple. -/
structure SubscribesTo (b : Broker T) (event : Event) (c : ClientRef) (client : SolClient)
    (tuple : SubscribeTuple) : Prop where
  packet : ∃ cb pkt results closure, event = .ready cb (.request (.subscribe pkt)) results ∧
    tuple ∈ pkt.tuples.take pkt.tuplesLen.toNat ∧ b.closureHeap.get? cb = some closure ∧
    closure.call = .onRead ∧ closure.obj = some c
  held : b.clientHeap.get? c = some client

/-- A PUBLISH that a connected client may send in `b`. -/
structure Publishes (b : Broker T) (cb : ClosureRef) (pkt : MqttPublish) : Prop where
  connected : ∃ closure c, b.closureHeap.get? cb = some closure ∧ closure.call = .onRead ∧
    closure.obj = some c
  topic : IsTopic pkt.topiclen pkt.topic
  payload : pkt.payloadlen.toNat = pkt.payload.length

/-- A PUBLISH whose sender exists, and all subscribers of its topic. -/
structure Handleable (b : Broker T) (cb : ClosureRef) (pkt : MqttPublish) : Prop where
  publisher : ∃ closure c client, b.closureHeap.get? cb = some closure ∧ closure.call = .onRead ∧
    closure.obj = some c ∧ b.clientHeap.get? c = some client
  topic : IsTopic pkt.topiclen pkt.topic
  payload : pkt.payloadlen.toNat = pkt.payload.length
  alive : ∀ name : CString, name.bytes = normalised pkt.topic → ∀ sub ∈ b.view.subscribers name,
    ∃ client, b.clientHeap.get? sub.client = some client

/-- A packet of the runs in question: no connection ends, and the ids of CONNECT packets
have the property. -/
def Keeping (fresh : Broker T → CString → Prop) (b : Broker T) : Event → Prop
  | .accept .. => True
  | .ready cb input _ => ∀ closure, b.closureHeap.get? cb = some closure → closure.call = .onRead →
      match input with
      | .request (.connect pkt) => ∀ block, pkt.payload.clientId = some block → fresh b (cstr block)
      | .request (.subscribe _) | .request (.publish _) => True
      | _ => False

/-- `hashtable_exists` does not find the id. -/
def NotFound (b : Broker T) (id : CString) : Prop :=
  KeyTable.contains b.clients id = false

instance (b : Broker T) (id : CString) : Decidable (NotFound b id) :=
  inferInstanceAs (Decidable (_ = false))

instance (fresh : Broker T → CString → Prop) [∀ b id, Decidable (fresh b id)] (b : Broker T)
    (event : Event) : Decidable (Keeping fresh b event) :=
  match event with
  | .accept .. => isTrue trivial
  | .ready cb (.request (.connect pkt)) _ =>
      inferInstanceAs (Decidable (∀ closure ∈ b.closureHeap.get? cb, closure.call = .onRead →
        ∀ block ∈ pkt.payload.clientId, fresh b (cstr block)))
  | .ready cb (.request (.subscribe _)) _ | .ready cb (.request (.publish _)) _ =>
      inferInstanceAs (Decidable (∀ closure ∈ b.closureHeap.get? cb, closure.call = .onRead → True))
  | .ready cb (.request .disconnect) _ | .ready cb (.request (.unsubscribe _)) _
  | .ready cb .packetErr _ | .ready cb .dropped _ =>
      inferInstanceAs (Decidable (∀ closure ∈ b.closureHeap.get? cb,
        closure.call = .onRead → False))

end Packets

instance (b : Broker T) (id : CString) : Decidable (NotRegistered b id) :=
  decidable_of_iff (∀ client ∈ b.clientHeap.objects, client.clientId ≠ id)
    (by
      simp only [Heap.mem_objects, forall_exists_index]
      exact forall_comm)

/-! ## Nothing is destroyed -/

/-- All clients that closures or subscribers refer to exist. -/
structure Whole (v : View T) : Prop where
  indexed : v.Indexed
  owners : ∀ cb link c, v.links cb = some link → link.obj = some c →
    ∃ client, v.clientHeap.get? c = some client
  subscribers : ∀ name sub, v.Holds name sub → ∃ client, v.clientHeap.get? sub.client = some client

/-- Clients that exist stay as they are. -/
def KeepsClients (v v' : View T) : Prop :=
  ∀ c client, v.clientHeap.get? c = some client → v'.clientHeap.get? c = some client

section Steps

variable [KeyTable T] {b b' : Broker T} {v : View T} {event : Event} {fuel : Nat}

/-- An event of the kind destroys nothing. -/
theorem Whole.effect (whole : Whole b.view) (keeping : Keeping NotFound b event)
    (effect : Effect fuel b event v) : Whole v ∧ KeepsClients b.view v := by
  have grown := effect.grows
  have indexed := (grown whole.indexed).1
  have subscribes_live (c : ClientRef) (subscribes : Subscribes b event c) :
      ∃ client, b.view.clientHeap.get? c = some client := by
    obtain ⟨cb, pkt, results, closure, rfl, live, _, obj, _⟩ := subscribes
    exact whole.owners cb closure.link c (view_links live) obj
  have subscribers_live (name : CString) (sub : Subscriber) (holds : v.Holds name sub) :
      ∃ client, b.view.clientHeap.get? sub.client = some client := by
    obtain new | old := holds.of_grown whole.indexed grown
    · exact subscribes_live sub.client new
    · exact whole.subscribers name sub old
  have kept (same : v.clientHeap = b.view.clientHeap) (owners : ∀ cb link c,
      v.links cb = some link → link.obj = some c →
        ∃ client, b.view.clientHeap.get? c = some client) :
      Whole v ∧ KeepsClients b.view v := by
    refine ⟨⟨indexed, ?_, ?_⟩, fun c client held => same ▸ held⟩
    · rw [same]
      exact owners
    · rw [same]
      exact subscribers_live
  cases effect with
  | @accepted fd uuid _ closures =>
      apply kept rfl
      intro cb link c linked obj
      change Function.update b.view.links b.view.nextClosure _ cb = some link at linked
      rw [Function.update_apply] at linked
      split at linked
      · cases linked
        cases obj
      · exact whole.owners cb link c linked obj
  | quiet => exact kept rfl whole.owners
  | left live reads leaves =>
      have excluded := keeping _ live reads
      obtain rfl | rfl := leaves <;> exact excluded.elim
  | refused live reads given found =>
      have free : NotFound b _ := keeping _ live reads _ given
      rw [NotFound, found] at free
      cases free
  | @connected cb closure pkt block _ _ clients live reads given free put =>
      have old {c : ClientRef} {client : SolClient}
          (held : b.view.clientHeap.get? c = some client) :
          (b.view.clientHeap.alloc (newClient (cstr block) closure.fd pkt.cleanSession)).get? c =
            some client := Heap.get?_alloc_of_live held
      refine ⟨⟨indexed, fun cb' link c linked obj => ?_, fun name sub holds => ?_⟩,
        fun c client => old⟩
      · change Function.update b.view.links cb _ cb' = some link at linked
        rw [Function.update_apply] at linked
        split at linked
        · cases linked
          cases obj
          refine ⟨newClient (cstr block) closure.fd pkt.cleanSession, ?_⟩
          show (b.view.clientHeap.alloc _).get? _ = _
          rw [Heap.get?_alloc, if_pos rfl]
        · obtain ⟨client, held⟩ := whole.owners cb' link c linked obj
          exact ⟨client, old held⟩
      · obtain ⟨client, held⟩ := subscribers_live name sub holds
        exact ⟨client, old held⟩
  | subscribed _ _ _ _ same rounds =>
      obtain ⟨topics, topicHeap, after⟩ := subscribeTuples_view same rounds
      apply kept
      · rw [after]
      · rw [after]
        exact whole.owners
  | @published _ _ _ _ _ _ topic =>
      obtain ⟨topics, topicHeap, after⟩ := b.view.createTopic_frame topic
      apply kept
      · rw [after]
      · rw [after]
        exact whole.owners

theorem whole_startServer : Whole (startServer : Broker T).view := by
  refine ⟨indexed_startServer, fun cb link c linked => ?_, fun name sub holds => ?_⟩
  · obtain ⟨topics, topicHeap, same⟩ := startServer_view (T := T)
    rw [same] at linked
    cases linked
  · exact absurd holds (holds_startServer name sub)

end Steps

/-! ## From the SUBSCRIBE to the PUBLISH -/

/-- In every run of the kind, a tuple of a SUBSCRIBE has every later PUBLISH to its topic
sent to the client, with the QoS of the tuple. -/
def NoLostSubscription (T : Type → Type) [KeyTable T] (fresh : Broker T → CString → Prop) : Prop :=
  ∀ tr b, Run BrokerStep (startServer : Broker T) tr b →
    (∀ visit ∈ tr, Keeping fresh visit.1 visit.2) → ∀ visit ∈ tr, ∀ c client tuple,
      SubscribesTo visit.1 visit.2 c client tuple → IsTopic tuple.topicLen tuple.topic →
      IsPlain tuple.topic → tuple.qos ≤ exactlyOnce → ∀ cb pkt, Publishes b cb pkt →
        normalised pkt.topic = normalised tuple.topic → Delivers b cb pkt client.fd tuple.qos

section Delivery

variable [KeyTable T] {b b' : Broker T} {event : Event} {c : ClientRef} {client : SolClient}
  {tuple : SubscribeTuple} {cb : ClosureRef} {pkt : MqttPublish} {name : CString} {q : UInt8}

theorem low_bits (qos : q ≤ exactlyOnce) : q &&& 3 = q := by
  have small : q.toNat ≤ 2 := UInt8.le_iff_toNat_le.mp qos
  apply UInt8.toNat_inj.mp
  rw [UInt8.toNat_and]
  show q.toNat &&& (2 ^ 2 - 1) = q.toNat
  rw [Nat.and_two_pow_sub_one_eq_mod]
  omega

/-- A subscriber of the topic gets the PUBLISH, if everyone it is about exists. -/
theorem Handleable.delivers (handleable : Handleable b cb pkt) (holds : b.view.Holds name ⟨q, c⟩)
    (held : b.clientHeap.get? c = some client) (named : normalised pkt.topic = name.bytes) :
    Delivers b cb pkt client.fd (q &&& 3) := by
  intro fuel results
  obtain ⟨closure, c', client', live, reads, obj, held'⟩ := handleable.publisher
  obtain ⟨name', looked, bytes⟩ := handleable.topic.publishTopic
  obtain rfl : name' = name := CString.ext (bytes.trans named)
  obtain ⟨b', handled⟩ := dispatch_publish_returns live reads obj held' looked
    (handleable.alive name' bytes) handleable.topic.length handleable.payload fuel results
  obtain ⟨name, sends, looked', sent, each⟩ := dispatch_publish_sends live reads handled
  obtain rfl := Except.ok.inj (looked.symm.trans looked')
  obtain ⟨send, member, sendsTo⟩ := each.exists_of_mem (View.holds_iff_mem.mp holds)
  obtain ⟨byte, head, header⟩ := sendsTo.header
  obtain ⟨client₂, held₂, fd, _⟩ := sendsTo
  obtain rfl := Option.some.inj (held.symm.trans held₂)
  exact ⟨b', sends, send, byte, handled, sent, member, fd, head, header⟩

omit [KeyTable T] in
theorem Whole.handleable (whole : Whole b.view) (publishes : Publishes b cb pkt) :
    Handleable b cb pkt := by
  obtain ⟨⟨closure, c, live, reads, obj⟩, topic, payload⟩ := publishes
  obtain ⟨client, held⟩ := whole.owners cb closure.link c (view_links live) obj
  refine ⟨⟨closure, c, client, live, reads, obj, held⟩, topic, payload, fun name _ sub member => ?_⟩
  exact whole.subscribers name sub (View.holds_iff_mem.mpr member)

/-- A SUBSCRIBE of a client that is handled has subscribed it to its tuples, one by one. -/
theorem exists_rounds_of_subscribe {cb : ClosureRef} {pkt : MqttSubscribe} {results : List Int}
    {closure : Closure} (step : BrokerStep b (.ready cb (.request (.subscribe pkt)) results) b')
    (live : b.closureHeap.get? cb = some closure) (reads : closure.call = .onRead)
    (obj : closure.obj = some c) :
    ∃ (b₁ : Broker T) (st : SubscribeState T), b₁.view = b.view ∧
      (pkt.tuples.take pkt.tuplesLen.toNat).foldlM (subscribeTuple c) { broker := b₁ } = .ok st ∧
        b'.view = st.broker.view := by
  obtain ⟨_, fuel, run⟩ := step
  have effect := dispatch_effect run
  generalize b'.view = v at effect ⊢
  cases effect with
  | quiet live' silent =>
      obtain rfl := Option.some.inj (live.symm.trans live')
      simp [reads] at silent
  | left _ _ leaves => simp at leaves
  | subscribed live' _ obj' _ same rounds =>
      obtain rfl := Option.some.inj (live.symm.trans live')
      obtain rfl := Option.some.inj (obj.symm.trans obj')
      exact ⟨_, _, same, rounds, rfl⟩

/-- The tuple of a SUBSCRIBE that is handled is in the list of its topic. -/
theorem SubscribesTo.holds (subscribes : SubscribesTo b event c client tuple)
    (indexed : b.view.Indexed) (step : BrokerStep b event b') {appended filter : Bool}
    (named : tupleTopic tuple = .ok (name, appended, filter)) :
    b'.view.Holds name ⟨tuple.qos, c⟩ := by
  obtain ⟨⟨cb, pkt, results, closure, rfl, member, live, reads, obj⟩, _⟩ := subscribes
  obtain ⟨b₁, st, same, rounds, view⟩ := exists_rounds_of_subscribe step live reads obj
  obtain ⟨name', _, _, named', holds⟩ := (subscribeTuples_grow rounds).2 tuple member
  obtain rfl := (Prod.mk.inj (Except.ok.inj (named.symm.trans named'))).1
  rw [view]
  exact holds (same ▸ indexed)

/-- A subscription is not lost in any run in which no CONNECT has an id that is found. -/
theorem noLostSubscription_of_notFound : NoLostSubscription T NotFound := by
  intro tr b run keeping visit visited c client tuple subscribes is plain qos cb pkt publishes same
  let Good (b : Broker T) : Prop := Whole b.view
  have stays (b : Broker T) (event : Event) (b' : Broker T) (whole : Good b)
      (keeping : Keeping NotFound b event) (step : BrokerStep b event b') : Good b' :=
    (whole.effect keeping (dispatch_effect step.2.choose_spec)).1
  have wholes := run.invariant_of_good (show Good startServer from whole_startServer) stays keeping
  obtain ⟨name, appended, named, bytes⟩ := is.tupleTopic_plain plain
  obtain ⟨b₁, tr', first, rest, sub⟩ := run.since visited
  have before := wholes.1 visit visited
  have after := before.effect (keeping visit visited) (dispatch_effect first.2.choose_spec)
  let Still (b : Broker T) : Prop :=
    Whole b.view ∧ b.clientHeap.get? c = some client ∧ b.view.Holds name ⟨tuple.qos, c⟩
  have start : Still b₁ :=
    ⟨after.1, after.2 c client subscribes.held, subscribes.holds before.indexed first named⟩
  have still (b : Broker T) (event : Event) (b' : Broker T) (still : Still b)
      (keeping : Keeping NotFound b event) (step : BrokerStep b event b') : Still b' := by
    obtain ⟨whole, held, holds⟩ := still
    have effect := dispatch_effect step.2.choose_spec
    obtain ⟨whole', kept⟩ := whole.effect keeping effect
    exact ⟨whole', kept c client held, holds.grow whole.indexed effect.grows⟩
  obtain ⟨whole, held, holds⟩ :=
    (rest.invariant_of_good start still fun later member => keeping later (sub later member)).2
  have delivers := (whole.handleable publishes).delivers holds held (same.trans bytes.symm)
  rwa [low_bits qos] at delivers

end Delivery

/-! ## An id that is found and not registered -/

/-- A client connects and subscribes to `t`. -/
def subscribeFirst (id : List UInt8) : List Event :=
  [.accept 5 (uuidOf 0),
    .ready 0 (.request (.connect { connectAs 0 with payload.clientId := some id })) [],
    .ready 0 .dropped [], .ready 0 (.request (.subscribe (subscribeTo 116 0))) [],
    .ready 0 .dropped []]

/-- While `ab` is subscribed, a client connects as `a`, and another one as `c`. -/
def connectAsPrefix : List Event :=
  subscribeFirst [97, 98] ++
    [.accept 6 (uuidOf 1), .ready 1 (.request (.connect (connectAs 97))) [],
      .accept 7 (uuidOf 2), .ready 2 (.request (.connect (connectAs 99))) [], .ready 2 .dropped []]

/-- The SUBSCRIBE of a run, what it is read from, and a connection at the end. -/
structure SubscribedTable where
  event : Event
  call : Callback
  obj : Option ClientRef
  client : SolClient
  lastCall : Callback
  lastObj : Option ClientRef
deriving DecidableEq

def subscribedTable (r : List (Broker HashTable × Event) × Broker HashTable) (cb : ClosureRef) :
    Option SubscribedTable := do
  let visit ← r.1[3]?
  let closure ← visit.1.closureHeap.get? 0
  let client ← visit.1.clientHeap.get? 0
  let last ← r.2.closureHeap.get? cb
  return ⟨visit.2, closure.call, closure.obj, client, last.call, last.obj⟩

/-- The table with the SUBSCRIBE of a client that was added on descriptor 5. -/
def subscribed (id : List UInt8) (c : ClientRef) : SubscribedTable where
  event := .ready 0 (.request (.subscribe (subscribeTo 116 0))) []
  call := .onRead
  obj := some 0
  client := newClient (cstr id) 5 true
  lastCall := .onRead
  lastObj := some c

theorem replay_connectAsPrefix :
    ((replay brokerNext (startServer : Broker HashTable) connectAsPrefix).map fun r =>
      (subscribedTable r 2, decide (∀ visit ∈ r.1, Keeping NotRegistered visit.1 visit.2),
        (dispatch 0 r.2 (.ready 2 (.request (.publish (publishTo 116 0))) [])).toOption.isSome)) =
      some (some (subscribed [97, 98] 1), true, false) := by
  decide +kernel

theorem replay_subscribeFirst :
    ((replay brokerNext (startServer : Broker HashTable) (subscribeFirst [97])).map fun r =>
      (subscribedTable r 0, decide (∀ visit ∈ r.1, Keeping NotFound visit.1 visit.2))) =
      some (some (subscribed [97] 0), true) := by
  decide +kernel

/-- What the table says of the replay. -/
theorem subscribedTable_eq_some {r : List (Broker HashTable × Event) × Broker HashTable}
    {cb : ClosureRef} {s : SubscribedTable} (table : subscribedTable r cb = some s) :
    ∃ visit closure last, r.1[3]? = some visit ∧
      (visit.1.closureHeap.get? 0 = some closure ∧ visit.2 = s.event ∧ closure.call = s.call ∧
        closure.obj = s.obj ∧ visit.1.clientHeap.get? 0 = some s.client) ∧
      r.2.closureHeap.get? cb = some last ∧ last.call = s.lastCall ∧ last.obj = s.lastObj := by
  obtain ⟨visit, visited, table⟩ := Option.bind_eq_some_iff.mp table
  obtain ⟨closure, live, table⟩ := Option.bind_eq_some_iff.mp table
  obtain ⟨client, held, table⟩ := Option.bind_eq_some_iff.mp table
  obtain ⟨last, live', table⟩ := Option.bind_eq_some_iff.mp table
  cases table
  exact ⟨visit, closure, last, visited, ⟨live, rfl, rfl, rfl, held⟩, live', rfl, rfl⟩

theorem of_subscribedTable {r : List (Broker HashTable × Event) × Broker HashTable}
    {cb : ClosureRef} {id : List UInt8} {c : ClientRef}
    (table : subscribedTable r cb = some (subscribed id c)) :
    (∃ visit ∈ r.1, SubscribesTo visit.1 visit.2 0 (newClient (cstr id) 5 true) ⟨1, [116], 0⟩) ∧
      Publishes r.2 cb (publishTo 116 0) := by
  obtain ⟨visit, closure, last, visited, ⟨live, event, reads, obj, held⟩, live', reads', obj'⟩ :=
    subscribedTable_eq_some table
  refine ⟨⟨visit, List.mem_of_getElem? visited, ⟨?_, held⟩⟩,
    ⟨⟨last, c, live', reads', obj'⟩, ?_, rfl⟩⟩
  · exact ⟨0, subscribeTo 116 0, [], closure, event, List.mem_singleton_self _, live, reads, obj⟩
  · exact ⟨rfl, by decide, by decide⟩

/-- The PUBLISH to `t` runs into the client that is gone. -/
theorem connectAsPrefix_loses_subscription : ¬ NoLostSubscription HashTable NotRegistered := by
  intro always
  obtain ⟨tr, b, run, _, facts⟩ :=
    Run.of_replay_map (fun _ _ _ => brokerNext_step) replay_connectAsPrefix
  simp only [Prod.mk.injEq, decide_eq_true_eq] at facts
  obtain ⟨table, keeping, fails⟩ := facts
  obtain ⟨⟨visit, visited, subscribes⟩, publishes⟩ := of_subscribedTable table
  obtain ⟨b', _, _, _, handled, _⟩ := always tr b run keeping visit visited 0 _ _ subscribes
    ⟨rfl, by decide, by decide⟩ ⟨by decide, by decide⟩ (by decide) 2 (publishTo 116 0) publishes
    rfl 0 []
  rw [handled] at fails
  cases fails

/-- Without such a CONNECT the PUBLISH is delivered. -/
theorem subscribeFirst_delivered :
    ∃ tr b, Run BrokerStep (startServer : Broker HashTable) tr b ∧
      tr.map Prod.snd = subscribeFirst [97] ∧ Delivers b 0 (publishTo 116 0) 5 0 := by
  obtain ⟨tr, b, run, labels, facts⟩ :=
    Run.of_replay_map (fun _ _ _ => brokerNext_step) replay_subscribeFirst
  simp only [Prod.mk.injEq, decide_eq_true_eq] at facts
  obtain ⟨⟨visit, visited, subscribes⟩, publishes⟩ := of_subscribedTable facts.1
  refine ⟨tr, b, run, labels, ?_⟩
  exact noLostSubscription_of_notFound tr b run facts.2 visit visited 0 _ _ subscribes
    ⟨rfl, by decide, by decide⟩ ⟨by decide, by decide⟩ (by decide) 0 (publishTo 116 0) publishes rfl

end SolBroker
