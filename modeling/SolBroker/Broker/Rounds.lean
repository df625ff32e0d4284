import Mathlib
import SolBroker.Lib.Along
import SolBroker.Broker.Topics

/-!
# What a round of a SUBSCRIBE does by name

A round either creates its topic with one subscriber, or pushes to the topic it found
and, under the wildcard flag, first to every topic below it, the found one included.
So a round that finds its topic under the flag leaves its subscriber in the list of
that topic twice, and every other round leaves it once and touches no other list.
-/

namespace SolBroker

/-! ## Tuples -/

/-- The name a tuple is looked up by. -/
def tupleName (tuple : SubscribeTuple) : Option CString :=
  (tupleTopic tuple).toOption.map Prod.fst

/-- The tuple sets the wildcard flag. -/
def isFilter (tuple : SubscribeTuple) : Bool :=
  match tupleTopic tuple with
  | .ok (_, _, filter) => filter
  | .error _ => false

section Tuples

variable {tuple : SubscribeTuple} {name : CString} {appended filter : Bool}

theorem tupleName_eq (named : tupleTopic tuple = .ok (name, appended, filter)) :
    tupleName tuple = some name := by
  rw [tupleName, named]
  rfl

theorem isFilter_eq (named : tupleTopic tuple = .ok (name, appended, filter)) :
    isFilter tuple = filter := by
  rw [isFilter, named]

end Tuples

/-! ## One round -/

variable {T : Type → Type}

/-- The topics after a round under this name. -/
def View.subscribe (v : View T) (name : CString) (wildcard : Bool) (sub : Subscriber) : View T :=
  match trieFind v.topics name with
  | none =>
      { v with
        topics := trieInsert v.topics name v.topicHeap.length
        topicHeap := (v.topicHeap ++ [topicInit name]).modify v.topicHeap.length (.push sub) }
  | some t =>
      let mapped := triePrefixMapTuple v.topics name (recursiveSubscription sub) v.topicHeap
      { v with topicHeap := (if wildcard then mapped else v.topicHeap).modify t (.push sub) }

theorem View.subscribe_frame (v : View T) (name : CString) (wildcard : Bool) (sub : Subscriber) :
    ∃ topics topicHeap, v.subscribe name wildcard sub = { v with topics, topicHeap } := by
  rw [View.subscribe]
  split <;> exact ⟨_, _, rfl⟩

/-- A round returns if its name can be made out, and this is what it leaves. -/
theorem subscribeTuple_run (obj : ClientRef) (st : SubscribeState T) {tuple : SubscribeTuple}
    {name : CString} {appended filter : Bool}
    (named : tupleTopic tuple = .ok (name, appended, filter)) :
    ∃ st', subscribeTuple obj st tuple = .ok st' ∧
      st'.broker.view = st.broker.view.subscribe name (st.wildcard || filter) ⟨tuple.qos, obj⟩ ∧
      st'.wildcard = (st.wildcard || filter) ∧ st'.alloced = (st.alloced || appended) ∧
      st'.ownFreed = (st.ownFreed || ((st.alloced || appended) && !appended)) ∧
      st'.rcs = st.rcs ++ [tuple.qos] := by
  rw [subscribeTuple, named]
  refine ⟨_, rfl, ?_, rfl, rfl, rfl, rfl⟩
  have topics : st.broker.view.topics = st.broker.topics := rfl
  rw [View.subscribe, topics]
  simp only [solTopicGet]
  cases trieFind st.broker.topics name with
  | none => rfl
  | some t => cases st.wildcard || filter <;> rfl

section Lists

variable {v : View T} {name other : CString} {t : TopicRef} {sub : Subscriber} {wildcard : Bool}

/-- Pushing to a topic reaches the list of that name only. -/
theorem View.Indexed.subscribers_push (indexed : v.Indexed)
    (found : trieFind v.topics name = some t)
    (sub : Subscriber) (other : CString) :
    View.subscribers { v with topicHeap := v.topicHeap.modify t (.push sub) } other =
      if other = name then sub :: v.subscribers other else v.subscribers other := by
  obtain ⟨topic, held, named⟩ := indexed.find_iff.mp found
  split
  · rename_i same
    have pushed : (v.topicHeap.modify t (Topic.push sub))[t]? = some (topic.push sub) := by
      rw [List.getElem?_modify, held]
      simp
    rw [same, View.subscribers_of_find found held]
    refine Eq.trans (View.subscribers_of_find found pushed) ?_
    exact nodes_listPush (indexed.counted t topic held) sub
  · rename_i different
    cases found' : trieFind v.topics other with
    | none =>
        rw [View.subscribers_of_free (v := v) found']
        exact View.subscribers_of_free found'
    | some u =>
        obtain ⟨topic', held', named'⟩ := indexed.find_iff.mp found'
        have elsewhere : t ≠ u := by
          rintro rfl
          obtain rfl := Option.some.inj (held.symm.trans held')
          exact different (named'.symm.trans named)
        have same : (v.topicHeap.modify t (Topic.push sub))[u]? = some topic' := by
          rw [List.getElem?_modify_ne _ _ elsewhere, held']
        rw [View.subscribers_of_find found' held']
        exact View.subscribers_of_find found' same

/-- A new topic has no subscribers, so nothing changes by name. -/
theorem View.Indexed.subscribers_create (indexed : v.Indexed) (free : trieFind v.topics name = none)
    (other : CString) :
    View.subscribers { v with
      topics := trieInsert v.topics name v.topicHeap.length
      topicHeap := v.topicHeap ++ [topicInit name] } other = v.subscribers other := by
  have indexed' := indexed.create free
  cases found : trieFind v.topics other with
  | some u =>
      obtain ⟨topic, held, named⟩ := indexed.find_iff.mp found
      have held' : (v.topicHeap ++ [topicInit name])[u]? = some topic := by
        rw [List.getElem?_append_left (List.getElem?_eq_some_iff.mp held).1, held]
      rw [View.subscribers_of_find found held]
      exact View.subscribers_of_find (indexed'.find_iff.mpr ⟨topic, held', named⟩) held'
  | none =>
      rw [View.subscribers_of_free found]
      by_cases same : other = name
      · have held : (v.topicHeap ++ [topicInit name])[v.topicHeap.length]? =
            some (topicInit name) :=
          List.getElem?_concat_length ..
        exact View.subscribers_of_find
          (indexed'.find_iff.mpr ⟨topicInit name, held, same.symm⟩) held
      · exact View.subscribers_of_free (indexed.find_create_ne free found same)

theorem View.Indexed.subscribers_createTopic (indexed : v.Indexed) (name other : CString) :
    (v.createTopic name).subscribers other = v.subscribers other := by
  rw [View.createTopic]
  split
  · rename_i free
    exact indexed.subscribers_create free other
  · rfl

/-- A round adds its subscriber and nothing else. -/
theorem View.grows_subscribe (v : View T) (name : CString) (wildcard : Bool) (sub : Subscriber) :
    v.Grows (· = sub) (v.subscribe name wildcard sub) := by
  rw [View.subscribe]
  split
  · rename_i free
    let created : View T :=
      { v with
        topics := trieInsert v.topics name v.topicHeap.length
        topicHeap := v.topicHeap ++ [topicInit name] }
    have create : v.Grows (· = sub) created := fun indexed => ⟨indexed.create free, .create _ _⟩
    exact create.trans (View.Grows.of_pushes (v := created) (.push rfl))
  · apply View.Grows.of_pushes
    refine Pushes.trans ?_ (.push rfl)
    split
    · exact triePrefixMapTuple_pushes (P := (· = sub)) rfl _ _ _
    · exact .refl _

theorem View.Indexed.subscribe (indexed : v.Indexed) : (v.subscribe name wildcard sub).Indexed :=
  (v.grows_subscribe name wildcard sub indexed).1

/-- Afterwards there is a topic of that name. -/
theorem View.Indexed.find_subscribe (indexed : v.Indexed) :
    trieFind (v.subscribe name wildcard sub).topics other = none ↔
      trieFind v.topics other = none ∧ other ≠ name := by
  rw [View.subscribe]
  cases found : trieFind v.topics name with
  | none =>
      show trieFind (trieInsert v.topics name v.topicHeap.length) other = none ↔ _
      constructor
      · intro free
        refine ⟨?_, ?_⟩
        · cases found' : trieFind v.topics other with
          | none => rfl
          | some u =>
              obtain ⟨topic, held, named⟩ := indexed.find_iff.mp found'
              have held' : (v.topicHeap ++ [topicInit name])[u]? = some topic := by
                rw [List.getElem?_append_left (List.getElem?_eq_some_iff.mp held).1, held]
              rw [(indexed.create found).find_iff.mpr ⟨topic, held', named⟩] at free
              cases free
        · rintro rfl
          have held : (v.topicHeap ++ [topicInit other])[v.topicHeap.length]? =
              some (topicInit other) := List.getElem?_concat_length ..
          have here : trieFind (trieInsert v.topics other v.topicHeap.length) other =
              some v.topicHeap.length := (indexed.create found).find_iff.mpr ⟨_, held, rfl⟩
          rw [here] at free
          cases free
      · rintro ⟨free, different⟩
        exact indexed.find_create_ne found free different
  | some t =>
      show trieFind v.topics other = none ↔ _
      refine (and_iff_left_of_imp fun free => ?_).symm
      rintro rfl
      rw [found] at free
      cases free

/-- A round that is not under the flag, or finds no topic, pushes once. -/
theorem View.Indexed.subscribers_subscribe (indexed : v.Indexed)
    (once : wildcard = true → trieFind v.topics name = none) (sub : Subscriber) (other : CString) :
    (v.subscribe name wildcard sub).subscribers other =
      if other = name then sub :: v.subscribers other else v.subscribers other := by
  rw [View.subscribe]
  cases found : trieFind v.topics name with
  | none =>
      have created := indexed.create found
      have here : trieFind (trieInsert v.topics name v.topicHeap.length) name =
          some v.topicHeap.length :=
        created.find_iff.mpr ⟨topicInit name, List.getElem?_concat_length .., rfl⟩
      refine (created.subscribers_push here sub other).trans ?_
      rw [indexed.subscribers_create found]
  | some t =>
      have plain : wildcard = false := by
        cases wildcard with
        | false => rfl
        | true =>
            rw [once rfl] at found
            cases found
      rw [plain]
      exact indexed.subscribers_push found sub other

/-- The visit of a round under the flag reaches the topics there are below its own. -/
theorem View.Indexed.holds_mapped (indexed : v.Indexed) (below : name.bytes <+: other.bytes)
    (found : trieFind v.topics other = some t) (sub : Subscriber) :
    View.Holds { v with
      topicHeap := triePrefixMapTuple v.topics name (recursiveSubscription sub) v.topicHeap }
        other sub := by
  obtain ⟨topic, held, named⟩ := indexed.find_iff.mp found
  obtain ⟨node, reached', data⟩ :=
    Option.bind_eq_some_iff.mp ((trieFind_eq_lookup _ _).symm.trans found)
  let base (topics : List Topic) : Prop := Pushes (· = sub) v.topicHeap topics
  let done (topics : List Topic) : Prop := ∃ topic, topics[t]? = some topic ∧
    topic.subscribers.Counted ∧ sub ∈ topic.subscribers.nodes
  have stays (node : TrieNode TopicRef) (topics : List Topic) (pushes : base topics) :
      base (recursiveSubscription sub node topics) :=
    pushes.trans (recursiveSubscription_pushes (P := (· = sub)) rfl node topics)
  have kept (node : TrieNode TopicRef) (topics : List Topic) :
      done topics → done (recursiveSubscription sub node topics) := by
    rintro ⟨topic, held, counted, member⟩
    obtain ⟨topic', held', extended⟩ :=
      (recursiveSubscription_pushes (P := (· = sub)) rfl node topics).extends_.old t topic held
    obtain ⟨_, counted', new, nodes, _⟩ := extended counted
    exact ⟨topic', held', counted', nodes ▸ List.mem_append_right _ member⟩
  have reached (topics : List Topic) (pushes : base topics) :
      done (recursiveSubscription sub node topics) := by
    obtain ⟨chr, ⟨nodes, len⟩, _⟩ := node
    obtain rfl : _ = some t := data
    have before := pushes.trans (recursiveSubscriptions_pushes (P := (· = sub)) rfl nodes topics)
    obtain ⟨topic', held', extended⟩ := before.extends_.old t topic held
    have counted := (extended (indexed.counted t topic held)).2.1
    rw [recursiveSubscription]
    refine ⟨topic'.push sub, ?_, counted_listPush counted sub, ?_⟩
    · rw [List.getElem?_modify, held']
      simp
    · show sub ∈ (listPush topic'.subscribers sub).nodes
      rw [nodes_listPush counted]
      exact List.mem_cons_self ..
  obtain ⟨topic', held', _, member⟩ :=
    @triePrefixMapTuple_visits _ _ base done node _ stays kept reached v.topics name other below
      reached' _ (Pushes.refl v.topicHeap)
  exact ⟨t, topic', found, held', member⟩

/-- A round that finds its topic under the flag pushes to it at least twice. -/
theorem View.Indexed.subscribers_subscribe_twice (indexed : v.Indexed)
    (found : trieFind v.topics name = some t) (sub : Subscriber) :
    ∃ mid, (v.subscribe name true sub).subscribers name = sub :: mid ∧ sub ∈ mid := by
  let mapped : View T :=
    { v with topicHeap := triePrefixMapTuple v.topics name (recursiveSubscription sub) v.topicHeap }
  have pushes : v.Grows (· = sub) mapped :=
    View.Grows.of_pushes (triePrefixMapTuple_pushes (P := (· = sub)) rfl _ _ _)
  have twice := (pushes indexed).1.subscribers_push found sub name
  rw [if_pos rfl] at twice
  refine ⟨mapped.subscribers name, ?_, ?_⟩
  · rw [View.subscribe, found]
    exact twice
  · exact View.holds_iff_mem.mp (indexed.holds_mapped (List.prefix_refl _) found sub)

/-- A round that finds its topic under the flag reaches every topic below it. -/
theorem View.Indexed.holds_subscribe (indexed : v.Indexed) (found : trieFind v.topics name ≠ none)
    (below : name.bytes <+: other.bytes) (found' : trieFind v.topics other ≠ none) :
    (v.subscribe name true sub).Holds other sub := by
  obtain ⟨t, found⟩ := Option.ne_none_iff_exists'.mp found
  obtain ⟨u, found'⟩ := Option.ne_none_iff_exists'.mp found'
  let mapped : View T :=
    { v with topicHeap := triePrefixMapTuple v.topics name (recursiveSubscription sub) v.topicHeap }
  have pushes : v.Grows (· = sub) mapped :=
    View.Grows.of_pushes (triePrefixMapTuple_pushes (P := (· = sub)) rfl _ _ _)
  have pushed : mapped.Grows (· = sub) (v.subscribe name true sub) := by
    rw [View.subscribe, found]
    exact View.Grows.of_pushes (v := mapped) (.push rfl)
  exact (indexed.holds_mapped below found' sub).grow (pushes indexed).1 pushed

end Lists

/-! ## The rounds of a packet -/

/-- What is known of a packet's rounds, whatever they do to the lists. -/
structure RoundsDone (v : View T) (tuples : List SubscribeTuple)
    (st : SubscribeState T) : Prop where
  indexed : st.broker.view.Indexed
  wildcard : st.wildcard = tuples.any isFilter
  find : ∀ name, trieFind st.broker.view.topics name = none ↔
    trieFind v.topics name = none ∧ some name ∉ tuples.map tupleName

section Packets

variable {v : View T} {b : Broker T} {c : ClientRef} {tuples : List SubscribeTuple}
  {st mid : SubscribeState T} {tuple : SubscribeTuple} {name : CString} {appended filter : Bool}

theorem RoundsDone.start (indexed : b.view.Indexed) :
    RoundsDone b.view [] { broker := b } where
  indexed := indexed
  wildcard := rfl
  find := fun _ => (and_iff_left List.not_mem_nil).symm

theorem RoundsDone.snoc (done : RoundsDone v tuples mid)
    (named : tupleTopic tuple = .ok (name, appended, filter))
    (view : st.broker.view = mid.broker.view.subscribe name (mid.wildcard || filter) ⟨tuple.qos, c⟩)
    (wildcard : st.wildcard = (mid.wildcard || filter)) : RoundsDone v (tuples ++ [tuple]) st where
  indexed := view ▸ done.indexed.subscribe
  wildcard := by
    rw [wildcard, done.wildcard, List.any_append, List.any_cons, List.any_nil, Bool.or_false,
      isFilter_eq named]
  find := fun other => by
    rw [view, done.indexed.find_subscribe, done.find, List.map_append, List.mem_append, not_or,
      List.map_singleton, List.mem_singleton, tupleName_eq named, and_assoc, Option.some_inj]

theorem roundsDone_of_run (indexed : b.view.Indexed)
    (run : tuples.foldlM (subscribeTuple c) { broker := b } = .ok st) :
    RoundsDone b.view tuples st := by
  induction tuples using List.reverseRecOn generalizing st with
  | nil =>
      cases run
      exact .start indexed
  | append_singleton tuples tuple ih =>
      obtain ⟨mid, earlier, last⟩ := List.foldlM_snoc_eq_ok.mp run
      obtain ⟨name, appended, filter, _, _, named, _⟩ := subscribeTuple_eq_ok last
      obtain ⟨st', again, view, wildcard, _⟩ := subscribeTuple_run c mid named
      obtain rfl := Except.ok.inj (last.symm.trans again)
      exact (ih earlier).snoc named view wildcard

end Packets

end SolBroker
