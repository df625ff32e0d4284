import Mathlib
import SolBroker.Broker.Delivery

/-!
# What a wildcard filter covers

A filter `P/#` is worked off when its SUBSCRIBE is handled: the client is put into the
lists of the topics below `P/` that exist then, and no trace of the filter is kept. Even
those are only reached if `P/` itself is one of them. The topic `P/` has the client in
any case.
-/

namespace SolBroker

open Transition

variable {T : Type → Type}

section Coverage

variable [KeyTable T]

/-- A SUBSCRIBE of the client `c`, read in `b`, with this tuple behind these. -/
def SubscribesAt (b : Broker T) (event : Event) (c : ClientRef) (before : List SubscribeTuple)
    (tuple : SubscribeTuple) : Prop :=
  ∃ cb pkt results closure after, event = .ready cb (.request (.subscribe pkt)) results ∧
    pkt.tuples.take pkt.tuplesLen.toNat = before ++ tuple :: after ∧
    b.closureHeap.get? cb = some closure ∧ closure.call = .onRead ∧ closure.obj = some c

omit [KeyTable T] in
def StaysSubscribed (c : ClientRef) (b : Broker T) (event : Event) : Prop :=
  ∀ cb pkt results closure, event = .ready cb (.request (.unsubscribe pkt)) results →
    b.closureHeap.get? cb = some closure → closure.call = .onRead → closure.obj ≠ some c

/-- In every run, a filter `P/#` of a client has every later PUBLISH sent to it whose
topic, given with a slash at its end, is covered: by `P` and by what exists when the
SUBSCRIBE is read, with the tuples before the filter. What happens in between is as
`meanwhile` says. -/
def FiltersForward (T : Type → Type) [KeyTable T]
    (meanwhile : ClientRef → Broker T → Event → Prop)
    (covered : View T → List SubscribeTuple → List UInt8 → List UInt8 → Prop) : Prop :=
  ∀ earlier visit later b, Run BrokerStep (startServer : Broker T) (earlier ++ visit :: later) b →
    ∀ c before tuple P, SubscribesAt visit.1 visit.2 c before tuple →
      (∀ next ∈ later, meanwhile c next.1 next.2) → IsTopic tuple.topicLen tuple.topic →
      tuple.topic = P ++ [slashChar, hashChar] → hashChar ∉ P → ∀ cb pkt client,
        Handleable b cb pkt → b.clientHeap.get? c = some client →
          covered visit.1.view before P (normalised pkt.topic) →
            Delivers b cb pkt client.fd (tuple.qos &&& 3)

end Coverage

def AllBelow (_ : View T) (_ : List SubscribeTuple) (P topic : List UInt8) : Prop :=
  P ++ [slashChar] <+: topic

/-- There is a topic of this name once these tuples have been worked off. -/
def ExistsAfter (v : View T) (before : List SubscribeTuple) (topic : List UInt8) : Prop :=
  ∃ name : CString, name.bytes = topic ∧
    (trieFind v.topics name ≠ none ∨ some name ∈ before.map tupleName)

/-- `P/` itself, and the topics below it that exist together with it. -/
def ThoseBelow (v : View T) (before : List SubscribeTuple) (P topic : List UInt8) : Prop :=
  topic = P ++ [slashChar] ∨ P ++ [slashChar] <+: topic ∧ ExistsAfter v before (P ++ [slashChar]) ∧
    ExistsAfter v before topic

section Covering

variable [KeyTable T] {b b' : Broker T} {event : Event} {c : ClientRef} {P : List UInt8}
  {before : List SubscribeTuple} {tuple : SubscribeTuple} {name root : CString} {q : UInt8}
  {sub : Subscriber}

theorem holds_of_run {tr : List (Broker T × Event)} (run : Run BrokerStep b tr b')
    (indexed : b.view.Indexed) (holds : b.view.Holds name sub) : b'.view.Holds name sub := by
  have stays (b : Broker T) (event : Event) (b' : Broker T)
      (here : b.view.Indexed ∧ b.view.Holds name sub) (step : BrokerStep b event b') :
      b'.view.Indexed ∧ b'.view.Holds name sub := by
    have grows := (dispatch_effect step.2.choose_spec).grows
    exact ⟨(grows here.1).1, here.2.grow here.1 grows⟩
  exact (@Run.invariant _ _ BrokerStep b (fun b => b.view.Indexed ∧ b.view.Holds name sub)
    ⟨indexed, holds⟩ stays tr b' run).2

/-- After a filter the client is in the lists of `P/` and of what exists below it. -/
theorem SubscribesAt.holds (subscribes : SubscribesAt b event c before tuple)
    (indexed : b.view.Indexed) (step : BrokerStep b event b')
    (named : tupleTopic tuple = .ok (root, false, true)) (bytes : root.bytes = P ++ [slashChar])
    (covered : ThoseBelow b.view before P name.bytes) :
    b'.view.Holds name ⟨tuple.qos, c⟩ := by
  obtain ⟨cb, pkt, results, closure, after, rfl, split, live, reads, obj⟩ := subscribes
  obtain ⟨b₁, st, same, rounds, ended⟩ := exists_rounds_of_subscribe step live reads obj
  rw [ended]
  rw [← same] at indexed covered
  rw [split, List.append_cons, List.foldlM_append] at rounds
  obtain ⟨st', upTo, rest⟩ := bind_eq_ok.mp rounds
  obtain ⟨mid, earlier, now⟩ := List.foldlM_snoc_eq_ok.mp upTo
  have done := roundsDone_of_run indexed earlier
  have later := (subscribeTuples_grow rest).1
  obtain ⟨st₁, again, view, _⟩ := subscribeTuple_run c mid named
  obtain rfl := Except.ok.inj (now.symm.trans again)
  have indexed' : st'.broker.view.Indexed := view ▸ done.indexed.subscribe
  refine View.Holds.grow ?_ indexed' later
  have found (name : CString) (exists_ : ExistsAfter b₁.view before name.bytes) :
      trieFind mid.broker.view.topics name ≠ none := by
    obtain ⟨name', same, exists_⟩ := exists_
    obtain rfl := CString.ext same
    rw [Ne, done.find, not_and_or, not_not]
    exact exists_
  obtain here | ⟨below, rootExists, exists_⟩ := covered
  · obtain rfl : root = name := CString.ext (bytes.trans here.symm)
    exact (subscribeTuple_grows now).2 root false true named done.indexed
  · rw [view, Bool.or_true]
    rw [← bytes] at below rootExists
    exact done.indexed.holds_subscribe (found root rootExists) below (found name exists_)

/-- The client of a filter gets every later PUBLISH to a topic that existed. -/
theorem filtersForward_thoseBelow : FiltersForward T (fun _ _ _ => True) ThoseBelow := by
  intro earlier visit later b run c before tuple P subscribes _ is split noHash cb pkt client
    handleable held covered
  have visited : visit ∈ earlier ++ visit :: later := by simp
  obtain ⟨root, named, bytes⟩ := is.tupleTopic_filter split noHash
  obtain ⟨name, _, looked⟩ := handleable.topic.publishTopic
  obtain ⟨b₁, tr', first, rest, _⟩ := run.since visited
  obtain ⟨_, before_⟩ := run.reachable_of_mem visit visited
  have indexed := indexed_of_run before_
  rw [← looked] at covered
  have holds := subscribes.holds indexed first named bytes covered
  have holds' := holds_of_run rest (indexed_step indexed first) holds
  exact handleable.delivers holds' held looked.symm

end Covering

/-! ## Topics that exist and one that comes later -/

def belowTuple (P : List UInt8) : SubscribeTuple :=
  ⟨UInt16.ofNat (P.length + 2), P ++ [slashChar, hashChar], 0⟩

def subscribeBelow (P : List UInt8) : MqttSubscribe where
  header := ⟨0x82⟩
  pktId := 1
  tuplesLen := 1
  tuples := [belowTuple P]

/-- A client connects and subscribes to `P/#`. -/
def filterFirst (P : List UInt8) : List Event :=
  [.accept 5 (uuidOf 0), .ready 0 (.request (.connect (connectAs 97))) [], .ready 0 .dropped [],
    .ready 0 (.request (.subscribe (subscribeBelow P))) [], .ready 0 .dropped []]

def publishBelow (topic : List UInt8) : MqttPublish :=
  { publishTo 112 0 with topiclen := UInt16.ofNat topic.length, topic }

/-- The SUBSCRIBE of the run, as it is read, and the client after it. -/
def filteredTable (P : List UInt8) : SubscribedTable where
  event := .ready 0 (.request (.subscribe (subscribeBelow P))) []
  call := .onRead
  obj := some 0
  client := newClient (cstr [97]) 5 true
  lastCall := .onRead
  lastObj := some 0

/-- What is read off a replay: the client of the SUBSCRIBE, which of the names exist when it
is read, and the list of a topic at the end. -/
def filterFacts (names : List CString) (name : CString)
    (r : List (Broker HashTable × Event) × Broker HashTable) :
    Option SubscribedTable × Option SolClient × Option (List Bool) × List Subscriber :=
  (subscribedTable r 0, r.2.clientHeap.get? 0,
    (r.1[3]?).map fun visit => names.map fun name => (trieFind visit.1.topics name).isSome,
    r.2.view.subscribers name)

structure Filtered (P : List UInt8) (earlier later : List (Broker HashTable × Event))
    (visit : Broker HashTable × Event) (b : Broker HashTable) : Prop where
  run : Run BrokerStep startServer (earlier ++ visit :: later) b
  labels : (earlier ++ visit :: later).map Prod.snd = filterFirst P
  subscribes : SubscribesAt visit.1 visit.2 0 [] (belowTuple P)
  meanwhile : ∀ next ∈ later, next.2 = .ready 0 .dropped []
  reading : ∃ closure, b.closureHeap.get? 0 = some closure ∧ closure.call = .onRead ∧
    closure.obj = some 0
  held : b.clientHeap.get? 0 = some (newClient (cstr [97]) 5 true)

theorem exists_filtered {P : List UInt8} {names : List CString} {name : CString}
    {found : List Bool} {subs : List Subscriber}
    (replayed : (replay brokerNext (startServer : Broker HashTable) (filterFirst P)).map
      (filterFacts names name) =
        some (some (filteredTable P), some (newClient (cstr [97]) 5 true), some found, subs)) :
    ∃ earlier visit later b, Filtered P earlier later visit b ∧
      (names.map fun name => (trieFind visit.1.topics name).isSome) = found ∧
        b.view.subscribers name = subs := by
  obtain ⟨tr, b, run, labels, read⟩ :=
    Run.of_replay_map (fun _ _ _ => brokerNext_step) replayed
  simp only [filterFacts, Prod.mk.injEq] at read
  obtain ⟨table, held, seen, list⟩ := read
  obtain ⟨visit, closure, last, visited, ⟨live, event, reads, obj, _⟩, live', reads', obj'⟩ :=
    subscribedTable_eq_some table
  rw [visited] at seen
  obtain ⟨bound, at_⟩ := List.getElem?_eq_some_iff.mp visited
  have split : tr.take 3 ++ visit :: tr.drop 4 = tr := by
    rw [← at_, ← List.drop_eq_getElem_cons, List.take_append_drop]
  have rest : (tr.drop 4).map Prod.snd = [.ready 0 .dropped []] := by
    rw [List.map_drop, labels]
    rfl
  refine ⟨tr.take 3, visit, tr.drop 4, b, ⟨split.symm ▸ run, split.symm ▸ labels, ?_, ?_, ?_, held⟩,
    Option.some.inj seen, list⟩
  · exact ⟨0, subscribeBelow P, [], closure, [], event, rfl, live, reads, obj⟩
  · intro next member
    have label := List.mem_map_of_mem (f := Prod.snd) member
    rw [rest] at label
    exact List.mem_singleton.mp label
  · exact ⟨last, live', reads', obj'⟩

theorem replay_filterFirst_p :
    (replay brokerNext (startServer : Broker HashTable) (filterFirst [112])).map
      (filterFacts [] (literal "p/x/")) =
        some (some (filteredTable [112]), some (newClient (cstr [97]) 5 true), some [], []) := by
  decide +kernel

/-- The PUBLISH to `p/x` is sent to nobody. -/
theorem filterFirst_misses_later_topic :
    ¬ FiltersForward HashTable StaysSubscribed AllBelow := by
  intro always
  obtain ⟨earlier, visit, later, b, filtered, _, nobody⟩ := exists_filtered replay_filterFirst_p
  obtain ⟨closure, live, reads, obj⟩ := filtered.reading
  let pkt : MqttPublish := publishBelow [112, slashChar, 120]
  have handleable : Handleable b 0 pkt := by
    refine ⟨⟨closure, 0, _, live, reads, obj, filtered.held⟩, ⟨rfl, by decide, by decide⟩, rfl, ?_⟩
    intro name bytes sub member
    obtain rfl : name = literal "p/x/" := CString.ext (bytes.trans (by decide))
    rw [nobody] at member
    cases member
  have stays : ∀ next ∈ later, StaysSubscribed 0 next.1 next.2 := by
    rintro next member cb pkt results closure unsubscribes
    rw [filtered.meanwhile next member] at unsubscribes
    cases unsubscribes
  obtain ⟨b', sends, send, _, handled, sent, member, _⟩ :=
    always earlier visit later b filtered.run 0 [] _ [112] filtered.subscribes stays
    ⟨rfl, by decide, by decide⟩ rfl (by decide) 0 pkt _ handleable filtered.held
    (by decide : [112] ++ [slashChar] <+: normalised pkt.topic) 0 []
  obtain ⟨name, sends', looked, sent', each⟩ := dispatch_publish_sends live reads handled
  have named : publishTopic pkt = .ok (literal "p/x/") := by decide
  obtain rfl := Except.ok.inj (named.symm.trans looked)
  rw [nobody] at each
  cases each
  rw [sent'] at sent
  rw [List.append_cancel_left sent.symm] at member
  cases member

theorem replay_filterFirst_sol :
    (replay brokerNext (startServer : Broker HashTable) (filterFirst (literal "$SOL").bytes)).map
      (filterFacts [literal "$SOL/", literal "$SOL/broker/"] (literal "$SOL/broker/")) =
        some (some (filteredTable (literal "$SOL").bytes), some (newClient (cstr [97]) 5 true),
          some [true, true], [⟨0, 0⟩]) := by
  decide +kernel

theorem filterFirst_covers_broker :
    ∃ tr b, Run BrokerStep (startServer : Broker HashTable) tr b ∧
      tr.map Prod.snd = filterFirst (literal "$SOL").bytes ∧
      Delivers b 0 (publishBelow (literal "$SOL/broker").bytes) 5 0 := by
  obtain ⟨earlier, visit, later, b, filtered, seen, own⟩ := exists_filtered replay_filterFirst_sol
  simp only [List.map_cons, List.cons.injEq] at seen
  obtain ⟨root, topic, _⟩ := seen
  obtain ⟨closure, live, reads, obj⟩ := filtered.reading
  let pkt : MqttPublish := publishBelow (literal "$SOL/broker").bytes
  have handleable : Handleable b 0 pkt := by
    refine ⟨⟨closure, 0, _, live, reads, obj, filtered.held⟩,
      ⟨by decide +kernel, by decide +kernel, by decide +kernel⟩, rfl, ?_⟩
    intro name bytes sub member
    obtain rfl : name = literal "$SOL/broker/" :=
      CString.ext (bytes.trans (by decide +kernel))
    rw [own] at member
    rw [List.mem_singleton.mp member]
    exact ⟨_, filtered.held⟩
  have covered : ThoseBelow visit.1.view [] (literal "$SOL").bytes (normalised pkt.topic) :=
    .inr ⟨by decide +kernel,
      ⟨literal "$SOL/", by decide +kernel, .inl (Option.isSome_iff_ne_none.mp root)⟩,
      ⟨literal "$SOL/broker/", by decide +kernel, .inl (Option.isSome_iff_ne_none.mp topic)⟩⟩
  refine ⟨_, b, filtered.run, filtered.labels, ?_⟩
  exact filtersForward_thoseBelow earlier visit later b filtered.run 0 [] (belowTuple _) _
    filtered.subscribes (fun _ _ => trivial)
    ⟨by decide +kernel, by decide +kernel, by decide +kernel⟩ rfl (by decide +kernel) 0 pkt _
    handleable filtered.held covered

end SolBroker
