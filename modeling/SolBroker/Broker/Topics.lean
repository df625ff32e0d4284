import Mathlib
import SolBroker.Lib.Index
import SolBroker.Broker.Effect

/-!
# The topics of the broker

Topics are found through the trie, are never removed, and their subscriber lists only
grow at the front. What a round of a SUBSCRIBE or a PUBLISH does to the topics is
stated by the subscribers it may add; which ones it does add is stated by name.
-/

namespace SolBroker

variable {P Q : Subscriber → Prop}

/-! ## Growing lists -/

/-- `topic'` is `topic` with more subscribers, all with `P`. -/
def Topic.Extends (P : Subscriber → Prop) (topic topic' : Topic) : Prop :=
  topic.subscribers.Counted → topic'.name = topic.name ∧ topic'.subscribers.Counted ∧
    ∃ new, topic'.subscribers.nodes = new ++ topic.subscribers.nodes ∧ ∀ sub ∈ new, P sub

theorem Topic.Extends.refl (topic : Topic) : topic.Extends P topic :=
  fun counted => ⟨rfl, counted, [], rfl, nofun⟩

theorem Topic.Extends.trans {topic topic' topic'' : Topic} (first : topic.Extends P topic')
    (last : topic'.Extends P topic'') : topic.Extends P topic'' := by
  intro counted
  obtain ⟨name, counted, new, nodes, fine⟩ := first counted
  obtain ⟨name', counted, new', nodes', fine'⟩ := last counted
  refine ⟨name'.trans name, counted, new' ++ new, ?_, fun sub member => ?_⟩
  · rw [nodes', nodes, List.append_assoc]
  · obtain late | early := List.mem_append.mp member
    · exact fine' sub late
    · exact fine sub early

theorem Topic.extends_push {sub : Subscriber} (fine : P sub) (topic : Topic) :
    topic.Extends P (topic.push sub) := by
  intro counted
  refine ⟨rfl, counted_listPush counted sub, [sub], nodes_listPush counted sub, fun s member => ?_⟩
  rw [List.mem_singleton.mp member]
  exact fine

/-- Every topic is extended; new ones extend an empty topic. -/
structure Extends (P : Subscriber → Prop) (topics topics' : List Topic) : Prop where
  old : ∀ (t : TopicRef) (topic : Topic), topics[t]? = some topic →
    ∃ topic', topics'[t]? = some topic' ∧ topic.Extends P topic'
  new : ∀ (t : TopicRef) (topic' : Topic), topics[t]? = none → topics'[t]? = some topic' →
    (topicInit topic'.name).Extends P topic'

namespace Extends

theorem refl (topics : List Topic) : Extends P topics topics where
  old := fun _ topic found => ⟨topic, found, .refl topic⟩
  new := fun _ topic' none_ some_ => by
    rw [none_] at some_
    cases some_

theorem trans {topics topics' topics'' : List Topic} (first : Extends P topics topics')
    (last : Extends P topics' topics'') : Extends P topics topics'' where
  old := fun t topic found => by
    obtain ⟨topic', found', extended⟩ := first.old t topic found
    obtain ⟨topic'', found'', extended'⟩ := last.old t topic' found'
    exact ⟨topic'', found'', extended.trans extended'⟩
  new := fun t topic'' none_ some_ => by
    cases mid : topics'[t]? with
    | none => exact last.new t topic'' mid some_
    | some topic' =>
        have created := first.new t topic' none_ mid
        obtain ⟨topic₂, found₂, extended⟩ := last.old t topic' mid
        obtain rfl := Option.some.inj (some_.symm.trans found₂)
        have named : topic''.name = topic'.name := by
          obtain ⟨_, counted, _⟩ := created counted_listCreate
          exact (extended counted).1
        rw [named]
        exact created.trans extended

theorem modify {topics : List Topic} {t : TopicRef} {f : Topic → Topic}
    (each : ∀ topic : Topic, topic.Extends P (f topic)) : Extends P topics (topics.modify t f) where
  old := fun u topic found => by
    rw [List.getElem?_modify, found]
    refine ⟨if t = u then f topic else topic, rfl, ?_⟩
    split
    · exact each topic
    · exact .refl topic
  new := fun u topic' none_ some_ => by
    rw [List.getElem?_modify, none_] at some_
    cases some_

theorem push {topics : List Topic} {t : TopicRef} {sub : Subscriber} (fine : P sub) :
    Extends P topics (topics.modify t (.push sub)) :=
  .modify (Topic.extends_push fine)

theorem create (topics : List Topic) (name : CString) :
    Extends P topics (topics ++ [topicInit name]) where
  old := fun t topic found => ⟨topic, by
    rw [List.getElem?_append_left (List.getElem?_eq_some_iff.mp found).1, found], .refl topic⟩
  new := fun t topic' none_ some_ => by
    have beyond := List.getElem?_eq_none_iff.mp none_
    rw [List.getElem?_append_right beyond, List.getElem?_singleton] at some_
    split at some_
    · cases some_
      exact .refl _
    · cases some_

end Extends

/-- The topics there are, extended. -/
structure Pushes (P : Subscriber → Prop) (topics topics' : List Topic) : Prop where
  extends_ : Extends P topics topics'
  length : topics'.length = topics.length

theorem Pushes.refl (topics : List Topic) : Pushes P topics topics :=
  ⟨.refl topics, rfl⟩

theorem Pushes.trans {topics topics' topics'' : List Topic} (first : Pushes P topics topics')
    (last : Pushes P topics' topics'') : Pushes P topics topics'' :=
  ⟨first.extends_.trans last.extends_, last.length.trans first.length⟩

theorem Pushes.push {topics : List Topic} {t : TopicRef} {sub : Subscriber} (fine : P sub) :
    Pushes P topics (topics.modify t (.push sub)) :=
  ⟨.push fine, List.length_modify ..⟩

mutual

/-- The inner recursion only pushes its subscriber. -/
theorem recursiveSubscription_pushes {sub : Subscriber} (fine : P sub) :
    ∀ (node : TrieNode TopicRef) (topics : List Topic),
      Pushes P topics (recursiveSubscription sub node topics)
  | .node _ _ none, topics => by
      rw [recursiveSubscription]
      exact .refl topics
  | .node _ ⟨nodes, _⟩ (some t), topics => by
      rw [recursiveSubscription]
      exact (recursiveSubscriptions_pushes fine nodes topics).trans (.push fine)

theorem recursiveSubscriptions_pushes {sub : Subscriber} (fine : P sub) :
    ∀ (nodes : List (TrieNode TopicRef)) (topics : List Topic),
      Pushes P topics (recursiveSubscriptions sub nodes topics)
  | [], topics => by
      rw [recursiveSubscriptions]
      exact .refl topics
  | child :: next, topics => by
      rw [recursiveSubscriptions]
      exact (recursiveSubscription_pushes fine child topics).trans
        (recursiveSubscriptions_pushes fine next _)

end

theorem triePrefixMapTuple_pushes {sub : Subscriber} (fine : P sub) (trie : Trie TopicRef)
    (pfx : CString) (topics : List Topic) :
    Pushes P topics (triePrefixMapTuple trie pfx (recursiveSubscription sub) topics) :=
  triePrefixMapTuple_rel (fun topics => .refl topics) (fun _ _ _ first last => first.trans last)
    (recursiveSubscription_pushes fine) trie pfx topics

theorem Extends.mono {topics topics' : List Topic} (extended : Extends P topics topics')
    (weaker : ∀ sub, P sub → Q sub) : Extends Q topics topics' := by
  have each {topic topic' : Topic} (extended : topic.Extends P topic') :
      topic.Extends Q topic' := by
    intro counted
    obtain ⟨name, counted, new, nodes, fine⟩ := extended counted
    exact ⟨name, counted, new, nodes, fun sub member => weaker sub (fine sub member)⟩
  refine ⟨fun t topic found => ?_,
    fun t topic' none_ some_ => each (extended.new t topic' none_ some_)⟩
  obtain ⟨topic', found', extended⟩ := extended.old t topic found
  exact ⟨topic', found', each extended⟩

/-- Extended lists have their length right. -/
theorem Extends.counted {topics topics' : List Topic} (extended : Extends P topics topics')
    (counted : ∀ (t : TopicRef) (topic : Topic), topics[t]? = some topic →
      topic.subscribers.Counted)
    {t : TopicRef} {topic' : Topic} (held' : topics'[t]? = some topic') :
    topic'.subscribers.Counted := by
  cases held : topics[t]? with
  | none => exact (extended.new t topic' held held' counted_listCreate).2.1
  | some topic =>
      obtain ⟨topic₂, held₂, extended⟩ := extended.old t topic held
      obtain rfl := Option.some.inj (held₂.symm.trans held')
      exact (extended (counted t topic held)).2.1

/-! ## Topics and their names -/

variable {T : Type → Type}

/-- The trie indexes the topics by name, and every subscriber list has its length right. -/
structure View.Indexed (v : View T) : Prop where
  names : ∃ m, Represents v.topics m ∧ Indexes m fun t => v.topicHeap[t]?.map Topic.name
  counted : ∀ (t : TopicRef) (topic : Topic), v.topicHeap[t]? = some topic →
    topic.subscribers.Counted

/-- The topic of that name has that subscriber. -/
def View.Holds (v : View T) (name : CString) (sub : Subscriber) : Prop :=
  ∃ (t : TopicRef) (topic : Topic), trieFind v.topics name = some t ∧
    v.topicHeap[t]? = some topic ∧ sub ∈ topic.subscribers.nodes

/-- The subscribers of the topic of that name, in order. -/
def View.subscribers (v : View T) (name : CString) : List Subscriber :=
  match trieFind v.topics name with
  | some t => v.topicHeap[t]?.elim [] fun topic => topic.subscribers.nodes
  | none => []

theorem View.subscribers_of_find {v : View T} {name : CString} {t : TopicRef} {topic : Topic}
    (found : trieFind v.topics name = some t) (held : v.topicHeap[t]? = some topic) :
    v.subscribers name = topic.subscribers.nodes := by
  rw [View.subscribers, found]
  show (v.topicHeap[t]?.elim [] fun topic => topic.subscribers.nodes) = _
  rw [held]
  rfl

theorem View.subscribers_of_free {v : View T} {name : CString}
    (free : trieFind v.topics name = none) : v.subscribers name = [] := by
  rw [View.subscribers, free]

theorem View.holds_iff_mem {v : View T} {name : CString} {sub : Subscriber} :
    v.Holds name sub ↔ sub ∈ v.subscribers name := by
  rw [View.subscribers]
  constructor
  · rintro ⟨t, topic, found, held, member⟩
    rw [found]
    show sub ∈ v.topicHeap[t]?.elim [] _
    rw [held]
    exact member
  · intro member
    split at member
    · rename_i t found
      cases held : v.topicHeap[t]? with
      | none =>
          rw [held] at member
          cases member
      | some topic =>
          rw [held] at member
          exact ⟨t, topic, found, held, member⟩
    · cases member

/-- The topics stay in order and are extended by subscribers with `P`. -/
def View.Grows (P : Subscriber → Prop) (v v' : View T) : Prop :=
  v.Indexed → v'.Indexed ∧ Extends P v.topicHeap v'.topicHeap

section Views

variable {v v' v'' : View T} {name : CString} {t : TopicRef} {sub : Subscriber}

theorem View.Indexed.find_iff (indexed : v.Indexed) :
    trieFind v.topics name = some t ↔
      ∃ topic, v.topicHeap[t]? = some topic ∧ topic.name = name := by
  obtain ⟨m, represents, indexes⟩ := indexed.names
  rw [represents.find]
  exact (indexes name t).trans Option.map_eq_some_iff

theorem View.Indexed.holds_iff (indexed : v.Indexed) : v.Holds name sub ↔
    ∃ (t : TopicRef) (topic : Topic), v.topicHeap[t]? = some topic ∧ topic.name = name ∧
      sub ∈ topic.subscribers.nodes := by
  constructor
  · rintro ⟨t, topic, found, held, member⟩
    obtain ⟨topic', held', named⟩ := indexed.find_iff.mp found
    obtain rfl := Option.some.inj (held.symm.trans held')
    exact ⟨t, topic, held, named, member⟩
  · rintro ⟨t, topic, held, named, member⟩
    exact ⟨t, topic, indexed.find_iff.mpr ⟨topic, held, named⟩, held, member⟩

theorem View.Grows.refl (v : View T) : v.Grows P v :=
  fun indexed => ⟨indexed, .refl _⟩

theorem View.Grows.trans (first : v.Grows P v') (last : v'.Grows P v'') : v.Grows P v'' := by
  intro indexed
  obtain ⟨indexed, extended⟩ := first indexed
  obtain ⟨indexed, extended'⟩ := last indexed
  exact ⟨indexed, extended.trans extended'⟩

theorem View.Grows.mono (grows : v.Grows P v') (weaker : ∀ sub, P sub → Q sub) : v.Grows Q v' :=
  fun indexed => ⟨(grows indexed).1, (grows indexed).2.mono weaker⟩

/-- Pushing to the topics there are. -/
theorem View.Grows.of_pushes {topicHeap : List Topic} (pushes : Pushes P v.topicHeap topicHeap) :
    v.Grows P { v with topicHeap } := by
  intro indexed
  refine ⟨⟨?_, fun t topic' => pushes.extends_.counted indexed.counted⟩, pushes.extends_⟩
  · obtain ⟨m, represents, indexes⟩ := indexed.names
    refine ⟨m, represents, ?_⟩
    have same : (fun t : TopicRef => topicHeap[t]?.map Topic.name) =
        fun t => v.topicHeap[t]?.map Topic.name := by
      funext t
      cases held : v.topicHeap[t]? with
      | none =>
          have beyond := List.getElem?_eq_none_iff.mp held
          rw [List.getElem?_eq_none (pushes.length.trans_le beyond)]
      | some topic =>
          obtain ⟨topic', held', extended⟩ := pushes.extends_.old t topic held
          rw [held', Option.map_some, Option.map_some, (extended (indexed.counted t topic held)).1]
    show Indexes m fun t => topicHeap[t]?.map Topic.name
    rw [same]
    exact indexes

theorem View.Grows.of_same (topics : v'.topics = v.topics)
    (topicHeap : v'.topicHeap = v.topicHeap) :
    v.Grows P v' := by
  rintro ⟨names, counted⟩
  rw [← topics, ← topicHeap] at names
  rw [← topicHeap] at counted
  exact ⟨⟨names, counted⟩, topicHeap ▸ .refl _⟩

/-- A topic under a name that has none. -/
theorem View.Indexed.create (indexed : v.Indexed) (free : trieFind v.topics name = none) :
    View.Indexed { v with
      topics := trieInsert v.topics name v.topicHeap.length
      topicHeap := v.topicHeap ++ [topicInit name] } := by
  obtain ⟨m, represents, indexes⟩ := indexed.names
  refine ⟨⟨m.insert name v.topicHeap.length, represents.insert name _, ?_⟩,
    fun t topic => (Extends.create (P := fun _ => True) v.topicHeap name).counted indexed.counted⟩
  · have names : (fun t => (v.topicHeap ++ [topicInit name])[t]?.map Topic.name) =
        Function.update (fun t => v.topicHeap[t]?.map Topic.name) v.topicHeap.length
          (some name) := by
      funext t
      rw [Function.update_apply]
      obtain below | rfl | above := Nat.lt_trichotomy t v.topicHeap.length
      · rw [if_neg below.ne, List.getElem?_append_left below]
      · rw [if_pos rfl, List.getElem?_concat_length]
        rfl
      · rw [if_neg above.ne', List.getElem?_eq_none above.le, List.getElem?_eq_none]
        rw [List.length_append, List.length_singleton]
        exact above
    show Indexes _ fun t => (v.topicHeap ++ [topicInit name])[t]?.map Topic.name
    rw [names]
    refine indexes.insert (fun t named => ?_) ?_
    · rw [represents.find, (indexes name t).mpr named] at free
      cases free
    · rw [List.getElem?_eq_none (le_refl _)]
      rfl

theorem View.grows_createTopic (v : View T) (name : CString) :
    v.Grows (fun _ => False) (v.createTopic name) := by
  rw [View.createTopic]
  split
  · rename_i free
    exact fun indexed => ⟨indexed.create free, .create _ _⟩
  · exact .refl v

/-- Subscribers stay. -/
theorem View.Holds.grow (holds : v.Holds name sub) (indexed : v.Indexed) (grows : v.Grows P v') :
    v'.Holds name sub := by
  obtain ⟨indexed', extended⟩ := grows indexed
  obtain ⟨t, topic, held, named, member⟩ := indexed.holds_iff.mp holds
  obtain ⟨topic', held', extended⟩ := extended.old t topic held
  obtain ⟨name', _, new, nodes, _⟩ := extended (indexed.counted t topic held)
  refine indexed'.holds_iff.mpr ⟨t, topic', held', name'.trans named, ?_⟩
  rw [nodes]
  exact List.mem_append_right _ member

/-- A subscriber was there before or has been added. -/
theorem View.Holds.of_grown (holds : v'.Holds name sub) (indexed : v.Indexed)
    (grows : v.Grows P v') : P sub ∨ v.Holds name sub := by
  obtain ⟨indexed', extended⟩ := grows indexed
  obtain ⟨t, topic', held', named, member⟩ := indexed'.holds_iff.mp holds
  cases held : v.topicHeap[t]? with
  | none =>
      obtain ⟨_, _, new, nodes, fine⟩ := extended.new t topic' held held' counted_listCreate
      rw [nodes] at member
      obtain added | old := List.mem_append.mp member
      · exact .inl (fine sub added)
      · cases old
  | some topic =>
      obtain ⟨topic₂, held₂, extended⟩ := extended.old t topic held
      obtain rfl := Option.some.inj (held'.symm.trans held₂)
      obtain ⟨name', _, new, nodes, fine⟩ := extended (indexed.counted t topic held)
      rw [nodes] at member
      obtain added | old := List.mem_append.mp member
      · exact .inl (fine sub added)
      · exact .inr (indexed.holds_iff.mpr ⟨t, topic, held, name'.symm.trans named, old⟩)

end Views

/-! ## Rounds of a SUBSCRIBE -/

section Rounds

variable {b b₁ : Broker T} {topic : CString} {t : TopicRef} {sub : Subscriber} {obj : ClientRef}
  {st st' : SubscribeState T} {tuple : SubscribeTuple} {tuples : List SubscribeTuple}

/-- The topic of a round is there afterwards, whichever branch was taken. -/
theorem subscribeTopic_grows {wildcard : Bool}
    (run : subscribeTopic b topic wildcard sub = (t, b₁)) :
    b.view.Grows (· = sub) b₁.view ∧ (b.view.Indexed → trieFind b₁.topics topic = some t) := by
  rw [subscribeTopic] at run
  cases found : solTopicGet b topic with
  | none =>
      rw [found] at run
      cases run
      have create (indexed : b.view.Indexed) := indexed.create found
      refine ⟨fun indexed => ⟨create indexed, .create _ _⟩, fun indexed => ?_⟩
      exact (create indexed).find_iff.mpr ⟨topicInit topic, List.getElem?_concat_length .., rfl⟩
  | some t =>
      rw [found] at run
      cases run
      refine ⟨?_, fun _ => ?_⟩
      · cases wildcard with
        | false => exact .refl _
        | true =>
            let pushes := triePrefixMapTuple_pushes (P := (· = sub)) rfl b.topics topic b.topicHeap
            exact View.Grows.of_pushes (v := b.view) pushes
      · cases wildcard <;> exact found

/-- A round only adds its own subscriber, and does so under its own name. -/
theorem subscribeTuple_grows (run : subscribeTuple obj st tuple = .ok st') :
    st.broker.view.Grows (· = ⟨tuple.qos, obj⟩) st'.broker.view ∧
      ∀ topic appended filter, tupleTopic tuple = .ok (topic, appended, filter) →
        st.broker.view.Indexed → st'.broker.view.Holds topic ⟨tuple.qos, obj⟩ := by
  obtain ⟨topic, appended, filter, t, b₁, named, found, after⟩ := subscribeTuple_eq_ok run
  obtain ⟨grows, find⟩ := subscribeTopic_grows found
  have pushed : b₁.view.Grows (· = ⟨tuple.qos, obj⟩) st'.broker.view := by
    rw [after]
    exact View.Grows.of_pushes (v := b₁.view) (.push rfl)
  refine ⟨grows.trans pushed, fun topic' _ _ named' indexed => ?_⟩
  obtain rfl : topic = topic' := (Prod.mk.inj (Except.ok.inj (named.symm.trans named'))).1
  have found := find indexed
  have indexed₁ := (grows indexed).1
  obtain ⟨there, held, _⟩ := indexed₁.find_iff.mp found
  refine ⟨t, there.push ⟨tuple.qos, obj⟩, ?_, ?_, ?_⟩
  · rw [after]
    exact found
  · rw [after]
    show (b₁.topicHeap.modify t (Topic.push ⟨tuple.qos, obj⟩))[t]? = _
    rw [List.getElem?_modify, show b₁.topicHeap[t]? = some there from held]
    simp
  · show _ ∈ (listPush there.subscribers _).nodes
    rw [nodes_listPush (indexed₁.counted t there held)]
    exact List.mem_cons_self ..

/-- All rounds of a SUBSCRIBE. -/
theorem subscribeTuples_grow (run : tuples.foldlM (subscribeTuple obj) st = .ok st') :
    st.broker.view.Grows (fun sub => sub.client = obj ∧ ∃ tuple ∈ tuples, sub.qos = tuple.qos)
        st'.broker.view ∧
      ∀ tuple ∈ tuples, ∃ topic appended filter,
        tupleTopic tuple = .ok (topic, appended, filter) ∧
          (st.broker.view.Indexed → st'.broker.view.Holds topic ⟨tuple.qos, obj⟩) := by
  induction tuples generalizing st with
  | nil =>
      cases run
      exact ⟨.refl _, nofun⟩
  | cons tuple tuples ih =>
      obtain ⟨mid, first, rest⟩ := bind_eq_ok.mp run
      obtain ⟨grows, holds⟩ := subscribeTuple_grows first
      obtain ⟨later, holdLater⟩ := ih rest
      refine ⟨?_, fun tuple' member => ?_⟩
      · refine (grows.mono fun sub same => ?_).trans (later.mono fun sub own => ?_)
        · rw [same]
          exact ⟨rfl, tuple, List.mem_cons_self .., rfl⟩
        · obtain ⟨client, tuple', member, qos⟩ := own
          exact ⟨client, tuple', List.mem_cons_of_mem _ member, qos⟩
      · obtain rfl | later' := List.mem_cons.mp member
        · obtain ⟨topic, appended, filter, _, _, named, _, _⟩ := subscribeTuple_eq_ok first
          refine ⟨topic, appended, filter, named, fun indexed => ?_⟩
          exact (holds topic appended filter named indexed).grow (grows indexed).1 later
        · obtain ⟨topic, appended, filter, named, holds'⟩ := holdLater tuple' later'
          exact ⟨topic, appended, filter, named, fun indexed => holds' (grows indexed).1⟩

end Rounds

/-! ## Steps and runs -/

section Steps

variable [KeyTable T] {b : Broker T} {v : View T} {event : Event} {fuel : Nat}

/-- The client a SUBSCRIBE would subscribe. -/
def Subscribes (b : Broker T) (event : Event) (obj : ClientRef) : Prop :=
  ∃ cb pkt results closure, event = .ready cb (.request (.subscribe pkt)) results ∧
    b.closureHeap.get? cb = some closure ∧ closure.call = .onRead ∧ closure.obj = some obj ∧
    pkt.tuples.take pkt.tuplesLen.toNat ≠ []

/-- The subscriber is the client of a SUBSCRIBE, with the QoS byte of one of its tuples. -/
def Grants (b : Broker T) (event : Event) (sub : Subscriber) : Prop :=
  ∃ cb pkt results closure tuple, event = .ready cb (.request (.subscribe pkt)) results ∧
    b.closureHeap.get? cb = some closure ∧ closure.call = .onRead ∧
    closure.obj = some sub.client ∧ tuple ∈ pkt.tuples.take pkt.tuplesLen.toNat ∧
    sub.qos = tuple.qos

/-- An event adds no subscriber but those a SUBSCRIBE asks for. -/
theorem Effect.grants (effect : Effect fuel b event v) : b.view.Grows (Grants b event) v := by
  have drop (key key' : CString) : b.view.Grows (Grants b event)
      ((b.view.dropClient key).dropClosure key') := by
    obtain ⟨_, _, first⟩ := b.view.dropClient_frame key
    obtain ⟨_, _, second⟩ := (b.view.dropClient key).dropClosure_frame key'
    rw [second, first]
    exact .of_same rfl rfl
  cases effect with
  | accepted => exact .of_same rfl rfl
  | quiet => exact .refl _
  | left => exact drop _ _
  | refused => exact drop _ _
  | connected => exact .of_same rfl rfl
  | @subscribed cb closure pkt results obj c b₁ st live reads isObj _ same rounds =>
      rw [← same]
      apply (subscribeTuples_grow rounds).1.mono
      intro sub own
      obtain ⟨rfl, tuple, member, qos⟩ := own
      exact ⟨cb, pkt, results, closure, tuple, rfl, live, reads, isObj, member, qos⟩
  | published => exact (View.grows_createTopic _ _).mono fun _ => False.elim

/-- An event adds no subscriber but the client of a SUBSCRIBE. -/
theorem Effect.grows (effect : Effect fuel b event v) :
    b.view.Grows (fun sub => Subscribes b event sub.client) v := by
  apply effect.grants.mono
  intro sub granted
  obtain ⟨cb, pkt, results, closure, tuple, same, live, reads, isObj, member, _⟩ := granted
  exact ⟨cb, pkt, results, closure, same, live, reads, isObj, List.ne_nil_of_mem member⟩

end Steps

/-- A name that has no topic still has none when another is created. -/
theorem View.Indexed.find_create_ne {v : View T} {name other : CString} (indexed : v.Indexed)
    (free : trieFind v.topics name = none) (free' : trieFind v.topics other = none)
    (distinct : other ≠ name) :
    trieFind (trieInsert v.topics name v.topicHeap.length) other = none := by
  cases found : trieFind (trieInsert v.topics name v.topicHeap.length) other with
  | none => rfl
  | some t =>
      obtain ⟨topic, held, named⟩ := (indexed.create free).find_iff.mp found
      change (v.topicHeap ++ [topicInit name])[t]? = some topic at held
      rw [List.getElem?_append] at held
      split at held
      · rw [indexed.find_iff.mpr ⟨topic, held, named⟩] at free'
        cases free'
      · rw [List.getElem?_singleton] at held
        split at held
        · cases held
          exact absurd named.symm distinct
        · cases held

theorem indexed_startServer [KeyTable T] : (startServer : Broker T).view.Indexed := by
  have put (names : List CString) (b : Broker T) (indexed : b.view.Indexed) (apart : names.Nodup)
      (free : ∀ name ∈ names, trieFind b.topics name = none) :
      (names.foldl (fun b name => (solTopicPut b name).2) b).view.Indexed := by
    induction names generalizing b with
    | nil => exact indexed
    | cons name names ih =>
        obtain ⟨new, apart⟩ := List.nodup_cons.mp apart
        have freeName := free name (List.mem_cons_self ..)
        apply ih (solTopicPut b name).2 (indexed.create freeName) apart
        intro other member
        have freeOther := free other (List.mem_cons_of_mem _ member)
        exact indexed.find_create_ne freeName freeOther fun same => new (same ▸ member)
  refine put sysTopics solInit ⟨⟨∅, represents_trieInit, .empty⟩, nofun⟩ (by decide +kernel) ?_
  intro name _
  exact (represents_trieInit.find name).trans (AList.lookup_empty name)

/-- No topic has a subscriber when the server starts. -/
theorem holds_startServer [KeyTable T] (name : CString) (sub : Subscriber) :
    ¬ (startServer : Broker T).view.Holds name sub := by
  have kept (names : List CString) (b : Broker T)
      (empty : ∀ topic ∈ b.topicHeap, topic.subscribers.nodes = []) :
      ∀ topic ∈ (names.foldl (fun b name => (solTopicPut b name).2) b).topicHeap,
        topic.subscribers.nodes = [] := by
    induction names generalizing b with
    | nil => exact empty
    | cons name names ih =>
        apply ih
        intro topic member
        obtain old | new := List.mem_append.mp member
        · exact empty topic old
        · rw [List.mem_singleton.mp new]
          rfl
  rintro ⟨t, topic, _, held, member⟩
  have empty := kept sysTopics solInit nofun topic (List.mem_of_getElem? held)
  rw [empty] at member
  cases member

end SolBroker
