import Mathlib
import SolBroker.Broker.Unsubscribe

/-!
# One packet or many

`subscribe_handler` declares its flags in front of the loop over the tuples and never
resets them, so that a tuple meets what the ones before it have set. Against one packet
for each tuple this shows in three ways: a plain tuple behind a filter is taken for a
filter itself, a tuple that keeps its string behind one that does not has that string
freed twice, and a SUBACK of more than 125 codes does not fit its block.
-/

namespace SolBroker

open Transition

/-! ## How far lists have grown -/

/-- The recorded length of a topic's subscriber list. -/
def listLen (topics : List Topic) (t : TopicRef) : Nat :=
  topics[t]?.elim 0 fun topic => topic.subscribers.len

/-- The same topics, with lists that are at least as long. -/
structure Covers (topics topics' : List Topic) : Prop where
  length : topics.length = topics'.length
  le : ∀ t, listLen topics' t ≤ listLen topics t

/-- The same number of topics, one of them with a longer list. -/
structure Longer (t : TopicRef) (topics topics' : List Topic) : Prop where
  length : topics.length = topics'.length
  lt : listLen topics' t < listLen topics t

section Lengths

variable {topics topics' topics'' : List Topic} {t u : TopicRef} {sub : Subscriber} {name : CString}

theorem listLen_push (inside : t < topics.length) :
    listLen (topics.modify t (.push sub)) u = listLen topics u + if u = t then 1 else 0 := by
  rw [listLen, listLen, List.getElem?_modify]
  by_cases same : u = t
  · subst same
    simp [List.getElem?_eq_getElem inside, Topic.push, listPush]
  · simp [same, Ne.symm same]

theorem listLen_push_outside (outside : ¬ t < topics.length) :
    topics.modify t (.push sub) = topics :=
  List.modify_eq_self (not_lt.mp outside)

theorem listLen_create : listLen (topics ++ [topicInit name]) t = listLen topics t := by
  rw [listLen, listLen]
  obtain below | rfl | above := Nat.lt_trichotomy t topics.length
  · rw [List.getElem?_append_left below]
  · rw [List.getElem?_concat_length, List.getElem?_eq_none (le_refl _)]
    rfl
  · rw [List.getElem?_eq_none above.le, List.getElem?_eq_none]
    rw [List.length_append, List.length_singleton]
    exact above

namespace Covers

theorem refl (topics : List Topic) : Covers topics topics :=
  ⟨rfl, fun _ => le_refl _⟩

theorem trans (first : Covers topics topics') (last : Covers topics' topics'') :
    Covers topics topics'' :=
  ⟨first.length.trans last.length, fun t => (last.le t).trans (first.le t)⟩

theorem push (t : TopicRef) (sub : Subscriber) (topics : List Topic) :
    Covers (topics.modify t (.push sub)) topics := by
  by_cases inside : t < topics.length
  · refine ⟨List.length_modify .., fun u => ?_⟩
    rw [listLen_push inside]
    exact Nat.le_add_right ..
  · rw [listLen_push_outside inside]
    exact .refl topics

theorem both (covers : Covers topics topics') (t : TopicRef) (sub : Subscriber) :
    Covers (topics.modify t (.push sub)) (topics'.modify t (.push sub)) := by
  by_cases inside : t < topics.length
  · have inside' := covers.length ▸ inside
    refine ⟨by simpa using covers.length, fun u => ?_⟩
    rw [listLen_push inside, listLen_push inside']
    exact Nat.add_le_add_right (covers.le u) _
  · rw [listLen_push_outside inside, listLen_push_outside (covers.length ▸ inside)]
    exact covers

theorem create (covers : Covers topics topics') (name : CString) :
    Covers (topics ++ [topicInit name]) (topics' ++ [topicInit name]) := by
  refine ⟨by simpa using covers.length, fun t => ?_⟩
  rw [listLen_create, listLen_create]
  exact covers.le t

end Covers

namespace Longer

theorem both (longer : Longer u topics topics') (t : TopicRef) (sub : Subscriber) :
    Longer u (topics.modify t (.push sub)) (topics'.modify t (.push sub)) := by
  by_cases inside : t < topics.length
  · have inside' := longer.length ▸ inside
    refine ⟨by simpa using longer.length, ?_⟩
    rw [listLen_push inside, listLen_push inside']
    exact Nat.add_lt_add_right longer.lt _
  · rw [listLen_push_outside inside, listLen_push_outside (longer.length ▸ inside)]
    exact longer

theorem create (longer : Longer u topics topics') (name : CString) :
    Longer u (topics ++ [topicInit name]) (topics' ++ [topicInit name]) := by
  refine ⟨by simpa using longer.length, ?_⟩
  rw [listLen_create, listLen_create]
  exact longer.lt

theorem of_covers (longer : Longer u topics' topics'') (covers : Covers topics topics') :
    Longer u topics topics'' :=
  ⟨covers.length.trans longer.length, longer.lt.trans_le (covers.le u)⟩

theorem ne (longer : Longer u topics topics') : topics ≠ topics' := by
  rintro rfl
  exact absurd longer.lt (lt_irrefl _)

end Longer

end Lengths

/-! ## Visits of the topics -/

section Visits

/-- Pushing the subscriber to one topic of both keeps the relation. -/
def PushKeeps (sub : Subscriber) (rel : List Topic → List Topic → Prop) : Prop :=
  ∀ t topics topics', rel topics topics' →
    rel (topics.modify t (.push sub)) (topics'.modify t (.push sub))

variable {rel : List Topic → List Topic → Prop} {sub : Subscriber}

mutual

theorem recursiveSubscription_both (push : PushKeeps sub rel) :
    ∀ (node : TrieNode TopicRef) (topics topics' : List Topic), rel topics topics' →
      rel (recursiveSubscription sub node topics) (recursiveSubscription sub node topics')
  | .node _ _ none, _, _, related => by
      rw [recursiveSubscription, recursiveSubscription]
      exact related
  | .node _ ⟨nodes, _⟩ (some t), topics, topics', related => by
      rw [recursiveSubscription, recursiveSubscription]
      exact push t _ _ (recursiveSubscriptions_both push nodes topics topics' related)

theorem recursiveSubscriptions_both (push : PushKeeps sub rel) :
    ∀ (nodes : List (TrieNode TopicRef)) (topics topics' : List Topic), rel topics topics' →
      rel (recursiveSubscriptions sub nodes topics) (recursiveSubscriptions sub nodes topics')
  | [], _, _, related => by
      rw [recursiveSubscriptions, recursiveSubscriptions]
      exact related
  | child :: next, topics, topics', related => by
      rw [recursiveSubscriptions, recursiveSubscriptions]
      have first := recursiveSubscription_both push child topics topics' related
      exact recursiveSubscriptions_both push next _ _ first

end

/-- What pushing to a topic of both keeps, a visit of both keeps. -/
theorem mapped_both (push : PushKeeps sub rel) (trie : Trie TopicRef) (name : CString)
    {topics topics' : List Topic} (related : rel topics topics') :
    rel (triePrefixMapTuple trie name (recursiveSubscription sub) topics)
      (triePrefixMapTuple trie name (recursiveSubscription sub) topics') :=
  triePrefixMapTuple_both (recursiveSubscription_both push) trie name related

end Visits

/-- A call of the inner recursion only makes lists longer. -/
theorem covers_recursiveSubscription (node : TrieNode TopicRef) (sub : Subscriber)
    (topics : List Topic) : Covers (recursiveSubscription sub node topics) topics :=
  @recursiveSubscription_both (fun grown _ => Covers grown topics) sub
    (fun t grown _ covers => (Covers.push t sub grown).trans covers) node topics topics
    (.refl topics)

theorem covers_mapped (trie : Trie TopicRef) (name : CString) (sub : Subscriber)
    (topics : List Topic) :
    Covers (triePrefixMapTuple trie name (recursiveSubscription sub) topics) topics :=
  @mapped_both (fun grown _ => Covers grown topics) sub
    (fun t grown _ covers => (Covers.push t sub grown).trans covers) trie name topics topics
    (.refl topics)

/-- The list of the topic a visit starts from gets longer. -/
theorem longer_mapped {trie : Trie TopicRef} {name : CString} {t : TopicRef} {topics : List Topic}
    (found : trieFind trie name = some t) (inside : t < topics.length) (sub : Subscriber) :
    Longer t (triePrefixMapTuple trie name (recursiveSubscription sub) topics) topics := by
  obtain ⟨node, reached, data⟩ :=
    Option.bind_eq_some_iff.mp ((trieFind_eq_lookup _ _).symm.trans found)
  have stays (node : TrieNode TopicRef) (grown : List Topic) (covers : Covers grown topics) :
      Covers (recursiveSubscription sub node grown) topics :=
    (covers_recursiveSubscription node sub grown).trans covers
  have kept (node : TrieNode TopicRef) (grown : List Topic) (longer : Longer t grown topics) :
      Longer t (recursiveSubscription sub node grown) topics :=
    longer.of_covers (covers_recursiveSubscription node sub grown)
  have pushed (grown : List Topic) (covers : Covers grown topics) :
      Longer t (recursiveSubscription sub node grown) topics := by
    obtain ⟨chr, ⟨nodes, len⟩, _⟩ := node
    obtain rfl : _ = some t := data
    have below : Covers (recursiveSubscriptions sub nodes grown) topics :=
      @recursiveSubscriptions_both (fun grown _ => Covers grown topics) sub
        (fun t grown _ covers => (Covers.push t sub grown).trans covers) nodes grown topics covers
    rw [recursiveSubscription]
    refine ⟨(List.length_modify ..).trans below.length, ?_⟩
    rw [listLen_push (below.length ▸ inside), if_pos rfl]
    exact Nat.lt_succ_of_le (below.le t)
  exact @triePrefixMapTuple_visits _ _ (Covers · topics) (Longer t · topics) node _ stays kept
    pushed
    trie name name (List.prefix_refl _) reached topics (.refl topics)

/-! ## Rounds of both -/

section Rounds

variable {T : Type → Type} {v : View T} {topics' : List Topic} {name : CString} {sub : Subscriber}
  {wildcard filter : Bool} {t : TopicRef}

/-- The topics of a view, replaced. -/
def View.withTopics (v : View T) (topics' : List Topic) : View T := { v with topicHeap := topics' }

/-- A round without the flag of another changes the same trie and makes no list longer. -/
theorem Covers.subscribe (covers : Covers v.topicHeap topics') (weaker : filter → wildcard)
    (name : CString) (sub : Subscriber) :
    ∃ topics'', (v.withTopics topics').subscribe name filter sub =
        (v.subscribe name wildcard sub).withTopics topics'' ∧
      Covers (v.subscribe name wildcard sub).topicHeap topics'' ∧
      ∀ t, Longer t v.topicHeap topics' →
        Longer t (v.subscribe name wildcard sub).topicHeap topics'' := by
  have same : (v.withTopics topics').topics = v.topics := rfl
  rw [View.subscribe, View.subscribe, same]
  cases trieFind v.topics name with
  | none =>
      refine ⟨(topics' ++ [topicInit name]).modify topics'.length (.push sub), ?_, ?_,
        fun t longer => ?_⟩
      · show View.mk .. = View.mk ..
        rw [covers.length]
        rfl
      · rw [← covers.length]
        exact (covers.create name).both v.topicHeap.length sub
      · rw [← covers.length]
        exact (longer.create name).both v.topicHeap.length sub
  | some u =>
      refine ⟨(if filter then triePrefixMapTuple v.topics name (recursiveSubscription sub) topics'
        else topics').modify u (.push sub), rfl, ?_, fun t longer => ?_⟩
      · refine Covers.both ?_ u sub
        cases filter with
        | true =>
            rw [weaker rfl]
            exact mapped_both (fun t _ _ covers => covers.both t sub) v.topics name covers
        | false =>
            cases wildcard with
            | true => exact (covers_mapped v.topics name sub v.topicHeap).trans covers
            | false => exact covers
      · refine Longer.both ?_ u sub
        cases filter with
        | true =>
            rw [weaker rfl]
            exact mapped_both (fun u _ _ longer => longer.both u sub) v.topics name longer
        | false =>
            cases wildcard with
            | true => exact longer.of_covers (covers_mapped v.topics name sub v.topicHeap)
            | false => exact longer

/-- The flag makes no difference to a filter, nor where it was not set, nor to a topic that
does not exist. -/
theorem View.subscribe_flag (v : View T) {name : CString} {flag filter : Bool}
    (nothing : filter = false → flag = true → trieFind v.topics name = none) (sub : Subscriber) :
    v.subscribe name (flag || filter) sub = v.subscribe name filter sub := by
  cases filter with
  | true => rw [Bool.or_true]
  | false =>
      cases flag with
      | false => rfl
      | true => rw [View.subscribe, View.subscribe, nothing rfl rfl]

/-- A round that only one of the two makes under the flag, on a topic that is found,
leaves a longer list. -/
theorem View.Indexed.longer_subscribe (indexed : v.Indexed)
    (found : trieFind v.topics name = some t)
    (covers : Covers v.topicHeap topics') (sub : Subscriber) :
    Longer t (v.subscribe name true sub).topicHeap
      ((v.withTopics topics').subscribe name false sub).topicHeap := by
  obtain ⟨topic, held, _⟩ := indexed.find_iff.mp found
  have inside := (List.getElem?_eq_some_iff.mp held).1
  have same : (v.withTopics topics').topics = v.topics := rfl
  rw [View.subscribe, View.subscribe, same, found]
  have longer := longer_mapped found inside sub
  exact (⟨longer.length.trans covers.length, (covers.le t).trans_lt longer.lt⟩ :
    Longer t _ topics').both t sub

end Rounds

/-! ## Packets -/

/-- A new string is made for the tuple. -/
def isAppended (tuple : SubscribeTuple) : Bool :=
  match tupleTopic tuple with
  | .ok (_, appended, _) => appended
  | .error _ => false

theorem ok_of_tupleName {tuple : SubscribeTuple} (named : tupleName tuple ≠ none) :
    ∃ r, tupleTopic tuple = .ok r := by
  obtain ⟨name, known⟩ := Option.ne_none_iff_exists'.mp named
  obtain ⟨r, looked, _⟩ := Option.map_eq_some_iff.mp known
  exact ⟨r, toOption_eq_some.mp looked⟩

theorem isAppended_eq {tuple : SubscribeTuple} {name : CString} {appended filter : Bool}
    (named : tupleTopic tuple = .ok (name, appended, filter)) : isAppended tuple = appended := by
  rw [isAppended, named]

/-- The packet with one tuple only. -/
def MqttSubscribe.only (pkt : MqttSubscribe) (tuple : SubscribeTuple) : MqttSubscribe :=
  { pkt with tuplesLen := 1, tuples := [tuple] }

variable {T : Type → Type}

/-- One SUBSCRIBE packet for each tuple, in order. -/
def subscribeEach (b : Broker T) (cb : ClosureRef) (pkt : MqttSubscribe) :
    Except Fault (Broker T) :=
  pkt.tuples.foldlM (fun b tuple => (subscribeHandler b cb (pkt.only tuple)).map Prod.snd) b

/-- The topics that are left, unless there was a fault. -/
def topicsLeft (run : Except Fault (Broker T)) : Option (Trie TopicRef × List Topic) :=
  run.toOption.map fun b => (b.topics, b.topicHeap)

/-- One packet leaves the topics that one packet for each tuple leaves. -/
def Homomorphic (b : Broker T) (cb : ClosureRef) (pkt : MqttSubscribe) : Prop :=
  topicsLeft ((subscribeHandler b cb pkt).map Prod.snd) = topicsLeft (subscribeEach b cb pkt)

/-- A plain tuple behind a filter is for a topic that does not exist. -/
def FindsNothing (v : View T) (before : List SubscribeTuple) (tuple : SubscribeTuple) : Prop :=
  isFilter tuple = false → before.any isFilter = true → ∀ name, tupleName tuple = some name →
    trieFind v.topics name = none ∧ some name ∉ before.map tupleName

/-- A tuple behind one that needed a new string needs one as well. -/
def TakesString (before : List SubscribeTuple) (tuple : SubscribeTuple) : Prop :=
  before.any isAppended = true → isAppended tuple = true

/-- The tuples do not get into each other's way. -/
structure Separable (v : View T) (tuples : List SubscribeTuple) : Prop where
  filters : tuples.Along (FindsNothing v)
  strings : tuples.Along TakesString
  few : tuples.length < 126

section Handler

variable {b b₂ : Broker T} {cb : ClosureRef} {c : ClientRef} {client : SolClient}
  {closure : Closure} {pkt : MqttSubscribe} {tuple : SubscribeTuple} {name : CString}
  {appended filter : Bool} {st : SubscribeState T}

theorem packMqttSuback_one (pktId : UInt16) (code : UInt8) :
    ∃ packed,
      packMqttPacket (.suback (mqttPacketSuback subackByte pktId [code] 1)) .suback =
        .ok packed := by
  have packs := packMqttSuback_eq (mqttPacketSuback subackByte pktId [code] 1) rfl
  have few : (1 : UInt16).toNat < 126 := by decide
  exact ⟨_, packs.trans (if_pos few)⟩

/-- The rest of the handler once the rounds are done. -/
theorem subscribeHandler_of_rounds (live : b.closureHeap.get? cb = some closure)
    (obj : closure.obj = some c) (held : b.clientHeap.get? c = some client)
    (counted : pkt.tuplesLen.toNat = pkt.tuples.length)
    (rounds : pkt.tuples.foldlM (subscribeTuple c) { broker := b } = .ok st) :
    subscribeHandler b cb pkt =
      if st.ownFreed then .error .doubleFree
      else packMqttSuback (mqttPacketSuback subackByte pkt.pktId st.rcs pkt.tuplesLen) >>=
        fun packed => .ok (reply st.broker cb closure packed) := by
  have found : deref b.closureHeap cb = .ok closure := deref_eq_ok.mpr live
  have owner : derefObj b.clientHeap closure.obj = .ok (c, client) := derefObj_eq_ok.mpr ⟨obj, held⟩
  have whole : pkt.tuples.take pkt.tuplesLen.toNat = pkt.tuples :=
    List.take_of_length_le counted.ge
  rw [subscribeHandler, found]
  show (derefObj b.clientHeap closure.obj >>= _) = _
  rw [owner]
  show (if pkt.tuples.length < pkt.tuplesLen.toNat then _ else _) = _
  rw [if_neg (not_lt.mpr counted.le), whole]
  show (pkt.tuples.foldlM (subscribeTuple c) { broker := b } >>= _) = _
  rw [rounds]
  rfl

/-- What a packet leaves once its rounds are done. -/
theorem topicsLeft_subscribeHandler (live : b.closureHeap.get? cb = some closure)
    (obj : closure.obj = some c) (held : b.clientHeap.get? c = some client)
    (counted : pkt.tuplesLen.toNat = pkt.tuples.length)
    (rounds : pkt.tuples.foldlM (subscribeTuple c) { broker := b } = .ok st)
    (codes : st.rcs.length = pkt.tuples.length) :
    topicsLeft ((subscribeHandler b cb pkt).map Prod.snd) =
      if st.ownFreed = false ∧ pkt.tuples.length < 126 then
        some (st.broker.topics, st.broker.topicHeap) else none := by
  have packs := packMqttSuback_eq
    (mqttPacketSuback subackByte pkt.pktId st.rcs pkt.tuplesLen) (codes.trans counted.symm)
  have length : (mqttPacketSuback subackByte pkt.pktId st.rcs pkt.tuplesLen).rcslen.toNat =
      pkt.tuples.length := counted
  rw [length] at packs
  rw [subscribeHandler_of_rounds live obj held counted rounds, packs]
  cases st.ownFreed with
  | true => rfl
  | false =>
      rw [if_neg Bool.false_ne_true]
      by_cases few : pkt.tuples.length < 126
      · rw [if_pos few, if_pos ⟨rfl, few⟩]
        rfl
      · rw [if_neg few, if_neg fun both => few both.2]
        rfl

/-- A packet with one tuple is one round without flags from before. -/
theorem subscribeHandler_only (live : b.closureHeap.get? cb = some closure)
    (obj : closure.obj = some c) (held : b.clientHeap.get? c = some client)
    (named : tupleTopic tuple = .ok (name, appended, filter)) (pkt : MqttSubscribe) :
    ∃ b', (subscribeHandler b cb (pkt.only tuple)).map Prod.snd = .ok b' ∧
      b'.view = b.view.subscribe name filter ⟨tuple.qos, c⟩ := by
  obtain ⟨st, round, view, _, _, freed, codes⟩ := subscribeTuple_run c { broker := b } named
  obtain ⟨packed, packs⟩ := packMqttSuback_one pkt.pktId tuple.qos
  have rounds : [tuple].foldlM (subscribeTuple c) { broker := b } = .ok st :=
    List.foldlM_snoc_eq_ok (l := []).mpr ⟨_, rfl, round⟩
  obtain ⟨topics, topicHeap, kept⟩ := subscribeTuples_keep rounds
  have live' : st.broker.closureHeap.get? cb = some closure := by
    rw [kept]
    exact live
  have unfreed : st.ownFreed = false := by
    rw [freed]
    cases appended <;> rfl
  have done : subscribeHandler b cb (pkt.only tuple) = .ok (reply st.broker cb closure packed) := by
    refine bind_eq_ok.mpr ⟨closure, deref_eq_ok.mpr live, bind_eq_ok.mpr ⟨(c, client),
      derefObj_eq_ok.mpr ⟨obj, held⟩, ?_⟩⟩
    have enough : ¬ (pkt.only tuple).tuples.length < (pkt.only tuple).tuplesLen.toNat := lt_irrefl 1
    show (if (pkt.only tuple).tuples.length < (pkt.only tuple).tuplesLen.toNat then _ else _) = _
    rw [if_neg enough]
    refine bind_eq_ok.mpr ⟨st, rounds, ?_⟩
    rw [unfreed, codes]
    exact bind_eq_ok.mpr ⟨packed, packs, rfl⟩
  refine ⟨(reply st.broker cb closure packed).2, congrArg (Except.map Prod.snd) done, ?_⟩
  have same : (reply st.broker cb closure packed).2.view = st.broker.view :=
    view_setClosure_same live' rfl
  have view : st.broker.view = b.view.subscribe name (false || filter) ⟨tuple.qos, c⟩ := view
  rw [same, view, Bool.false_or]

end Handler

/-! ## The strings of a packet -/

/-- The flags after the rounds of these tuples: whether a string has been made, and that no
string of the packet itself has been freed exactly if each tuple takes one where it must. -/
structure StringsDone (tuples : List SubscribeTuple) (st : SubscribeState T) : Prop where
  alloced : st.alloced = tuples.any isAppended
  freed : st.ownFreed = false ↔ tuples.Along TakesString

theorem StringsDone.start (b : Broker T) : StringsDone [] { broker := b } where
  alloced := rfl
  freed := iff_of_true rfl List.along_nil

theorem StringsDone.snoc {tuples : List SubscribeTuple} {tuple : SubscribeTuple} {name : CString}
    {appended filter : Bool} {st st' : SubscribeState T} (strings : StringsDone tuples st)
    (named : tupleTopic tuple = .ok (name, appended, filter))
    (alloced : st'.alloced = (st.alloced || appended))
    (freed : st'.ownFreed = (st.ownFreed || ((st.alloced || appended) && !appended))) :
    StringsDone (tuples ++ [tuple]) st' where
  alloced := by
    rw [alloced, strings.alloced, List.any_append, List.any_cons, List.any_nil, Bool.or_false,
      isAppended_eq named]
  freed := by
    rw [freed, List.along_snoc, ← strings.freed, TakesString, isAppended_eq named,
      ← strings.alloced]
    cases st.ownFreed <;> cases st.alloced <;> cases appended <;> decide

/-- The rounds of tuples that all have names. -/
theorem subscribeTuples_run (b : Broker T) (c : ClientRef) {tuples : List SubscribeTuple}
    (named : ∀ tuple ∈ tuples, tupleName tuple ≠ none) :
    ∃ st, tuples.foldlM (subscribeTuple c) { broker := b } = .ok st ∧ StringsDone tuples st := by
  induction tuples using List.reverseRecOn with
  | nil => exact ⟨_, rfl, .start b⟩
  | append_singleton tuples tuple ih =>
      obtain ⟨st, rounds, strings⟩ :=
        ih fun tuple member => named tuple (List.mem_append_left _ member)
      obtain ⟨⟨name, appended, filter⟩, has⟩ :=
        ok_of_tupleName (named tuple (List.mem_append_right _ (List.mem_singleton_self _)))
      obtain ⟨st', round, _, _, alloced, freed, _⟩ := subscribeTuple_run c st has
      exact ⟨st', List.foldlM_snoc_eq_ok.mpr ⟨st, rounds, round⟩, strings.snoc has alloced freed⟩

/-! ## Both side by side -/

/-- The tuples worked off in one packet, with `st` left, and in one packet each, with `b₂`. -/
structure SideBySide (b : Broker T) (tuples : List SubscribeTuple) (st : SubscribeState T)
    (b₂ : Broker T) : Prop where
  done : RoundsDone b.view tuples st
  alloced : st.alloced = tuples.any isAppended
  freed : st.ownFreed = false ↔ tuples.Along TakesString
  codes : st.rcs.length = tuples.length
  frame : ∃ topics topicHeap, st.broker.view = { b.view with topics, topicHeap }
  view : b₂.view = st.broker.view.withTopics b₂.topicHeap
  covers : Covers st.broker.topicHeap b₂.topicHeap
  same : tuples.Along (FindsNothing b.view) → st.broker.topicHeap = b₂.topicHeap
  longer : ¬ tuples.Along (FindsNothing b.view) → ∃ t, Longer t st.broker.topicHeap b₂.topicHeap

namespace SideBySide

variable {b b₂ : Broker T} {cb : ClosureRef} {c : ClientRef} {client : SolClient}
  {closure : Closure} {pkt : MqttSubscribe} {tuples : List SubscribeTuple} {tuple : SubscribeTuple}
  {name : CString} {appended filter : Bool} {st : SubscribeState T}

theorem start (indexed : b.view.Indexed) : SideBySide b [] { broker := b } b where
  done := .start indexed
  alloced := rfl
  freed := iff_of_true rfl List.along_nil
  codes := rfl
  frame := ⟨_, _, rfl⟩
  view := rfl
  covers := .refl _
  same := fun _ => rfl
  longer := fun some_ => absurd List.along_nil some_

theorem findsNothing_iff (side : SideBySide b tuples st b₂)
    (named : tupleTopic tuple = .ok (name, appended, filter)) :
    FindsNothing b.view tuples tuple ↔
      (filter = false → st.wildcard = true → trieFind st.broker.view.topics name = none) := by
  rw [FindsNothing, isFilter_eq named, ← side.done.wildcard]
  constructor
  · intro nothing plain flag
    exact (side.done.find name).mpr (nothing plain flag name (tupleName_eq named))
  · intro nothing plain flag name' named'
    obtain rfl := Option.some.inj ((tupleName_eq named).symm.trans named')
    exact (side.done.find name).mp (nothing plain flag)

/-- One more tuple. -/
theorem snoc (side : SideBySide b tuples st b₂) (live : b.closureHeap.get? cb = some closure)
    (obj : closure.obj = some c) (held : b.clientHeap.get? c = some client)
    (named : tupleTopic tuple = .ok (name, appended, filter)) (pkt : MqttSubscribe) :
    ∃ st' b₃, subscribeTuple c st tuple = .ok st' ∧
      (subscribeHandler b₂ cb (pkt.only tuple)).map Prod.snd = .ok b₃ ∧
      SideBySide b (tuples ++ [tuple]) st' b₃ := by
  obtain ⟨st', round, view, wildcard, alloced, freed, codes⟩ := subscribeTuple_run c st named
  obtain ⟨topics, topicHeap, frame⟩ := side.frame
  -- the connection and its client are as they were
  have links : b₂.view.links = b.view.links := by
    rw [side.view, frame]
    rfl
  have clients : b₂.view.clientHeap = b.view.clientHeap := by
    rw [side.view, frame]
    rfl
  have linked : b₂.view.links cb = some closure.link := by
    rw [links, view_links live]
  obtain ⟨closure₂, live₂, same₂⟩ := Option.map_eq_some_iff.mp linked
  have obj₂ : closure₂.obj = some c := (congrArg Link.obj same₂).trans obj
  have held₂ : b₂.clientHeap.get? c = some client := (congrArg (Heap.get? · c) clients).trans held
  obtain ⟨b₃, single, view₃⟩ := subscribeHandler_only live₂ obj₂ held₂ named pkt
  rw [side.view] at view₃
  have weaker : filter = true → (st.wildcard || filter) = true := by
    intro flag
    rw [flag, Bool.or_true]
  have strings : StringsDone (tuples ++ [tuple]) st' :=
    StringsDone.snoc ⟨side.alloced, side.freed⟩ named alloced freed
  have covers : Covers st.broker.view.topicHeap b₂.topicHeap := side.covers
  obtain ⟨topics'', rounds, covers, longer⟩ := covers.subscribe weaker name ⟨tuple.qos, c⟩
  have topics₃ : b₃.topicHeap = topics'' := congrArg View.topicHeap (view₃.trans rounds)
  rw [← view, ← topics₃] at covers longer rounds
  refine ⟨st', b₃, round, single, ?_⟩
  exact
    { done := side.done.snoc named view wildcard
      alloced := strings.alloced
      freed := strings.freed
      codes := by
        rw [codes, List.length_append, List.length_append, side.codes]
        rfl
      frame := by
        obtain ⟨topics, topicHeap, kept⟩ :=
          st.broker.view.subscribe_frame name (st.wildcard || filter) ⟨tuple.qos, c⟩
        rw [view, kept, frame]
        exact ⟨_, _, rfl⟩
      view := view₃.trans rounds
      covers
      same := fun each => by
        obtain ⟨earlier, nothing⟩ := List.along_snoc.mp each
        rw [side.findsNothing_iff named] at nothing
        have identical : st.broker.view.withTopics b₂.topicHeap = st.broker.view := by
          rw [← side.same earlier]
          rfl
        rw [identical] at view₃
        have equal := st.broker.view.subscribe_flag nothing ⟨tuple.qos, c⟩
        exact congrArg View.topicHeap (view.trans (equal.trans view₃.symm))
      longer := fun some_ => by
        by_cases earlier : tuples.Along (FindsNothing b.view)
        · have fails : ¬ FindsNothing b.view tuples tuple := fun nothing =>
            some_ (List.along_snoc.mpr ⟨earlier, nothing⟩)
          rw [side.findsNothing_iff named] at fails
          simp only [Classical.not_imp] at fails
          obtain ⟨rfl, flag, found⟩ := fails
          obtain ⟨t, found⟩ := Option.ne_none_iff_exists'.mp found
          have now := side.done.indexed.longer_subscribe found side.covers ⟨tuple.qos, c⟩
          rw [flag, Bool.true_or] at view
          rw [← view, ← view₃] at now
          exact ⟨t, now⟩
        · obtain ⟨t, before⟩ := side.longer earlier
          exact ⟨t, longer t before⟩ }

/-- All tuples, if all of them have names. -/
theorem of_named (indexed : b.view.Indexed) (live : b.closureHeap.get? cb = some closure)
    (obj : closure.obj = some c) (held : b.clientHeap.get? c = some client)
    (named : ∀ tuple ∈ tuples, tupleName tuple ≠ none) (pkt : MqttSubscribe) :
    ∃ st b₂, tuples.foldlM (subscribeTuple c) { broker := b } = .ok st ∧
      tuples.foldlM (fun b tuple => (subscribeHandler b cb (pkt.only tuple)).map Prod.snd) b =
          .ok b₂ ∧
      SideBySide b tuples st b₂ := by
  induction tuples using List.reverseRecOn with
  | nil => exact ⟨_, _, rfl, rfl, .start indexed⟩
  | append_singleton tuples tuple ih =>
      obtain ⟨st, b₂, rounds, singles, side⟩ :=
        ih fun tuple member => named tuple (List.mem_append_left _ member)
      obtain ⟨⟨name, appended, filter⟩, has⟩ :=
        ok_of_tupleName (named tuple (List.mem_append_right _ (List.mem_singleton_self _)))
      obtain ⟨st', b₃, round, single, side'⟩ := side.snoc live obj held has pkt
      exact ⟨st', b₃, List.foldlM_snoc_eq_ok.mpr ⟨st, rounds, round⟩,
        List.foldlM_snoc_eq_ok.mpr ⟨b₂, singles, single⟩, side'⟩

end SideBySide

section Packets

variable {b b' : Broker T} {cb : ClosureRef} {c : ClientRef} {client : SolClient}
  {closure : Closure} {pkt : MqttSubscribe} {tuple : SubscribeTuple}

/-- A tuple without a name is a fault, in whatever packet it comes. -/
theorem subscribeHandler_nameless {rc : Int} (run : subscribeHandler b cb pkt = .ok (rc, b'))
    (member : tuple ∈ pkt.tuples.take pkt.tuplesLen.toNat) : tupleName tuple ≠ none := by
  obtain ⟨_, _, _, _, _, _, _, _, _, rounds, _⟩ := subscribeHandler_eq_ok run
  obtain ⟨_, _, round⟩ := List.foldlM_ok_of_mem rounds member
  obtain ⟨_, _, _, _, _, named, _⟩ := subscribeTuple_eq_ok round
  rw [tupleName_eq named]
  exact Option.some_ne_none _

theorem topicsLeft_error {run : Except Fault (Broker T)} (fails : ∀ b', run ≠ .ok b') :
    topicsLeft run = none := by
  cases run with
  | error e => rfl
  | ok b' => exact absurd rfl (fails b')

theorem homomorphic_iff_of_indexed (indexed : b.view.Indexed)
    (live : b.closureHeap.get? cb = some closure)
    (obj : closure.obj = some c) (held : b.clientHeap.get? c = some client)
    (counted : pkt.tuplesLen.toNat = pkt.tuples.length) :
    Homomorphic b cb pkt ↔
      (∃ tuple ∈ pkt.tuples, tupleName tuple = none) ∨ Separable b.view pkt.tuples := by
  by_cases nameless : ∃ tuple ∈ pkt.tuples, tupleName tuple = none
  · refine iff_of_true ?_ (.inl nameless)
    obtain ⟨tuple, member, nameless⟩ := nameless
    have whole : topicsLeft ((subscribeHandler b cb pkt).map Prod.snd) = none := by
      apply topicsLeft_error
      intro b' run
      obtain ⟨⟨rc, b₁⟩, handled, _⟩ := map_eq_ok.mp run
      refine subscribeHandler_nameless handled ?_ nameless
      rwa [counted, List.take_length]
    have each : topicsLeft (subscribeEach b cb pkt) = none := by
      apply topicsLeft_error
      intro b' run
      obtain ⟨_, _, single⟩ := List.foldlM_ok_of_mem run member
      obtain ⟨⟨rc, b₁⟩, handled, _⟩ := map_eq_ok.mp single
      exact subscribeHandler_nameless handled (List.mem_singleton_self _) nameless
    exact whole.trans each.symm
  · have named (tuple : SubscribeTuple) (member : tuple ∈ pkt.tuples) : tupleName tuple ≠ none :=
      fun none_ => nameless ⟨tuple, member, none_⟩
    rw [or_iff_right nameless]
    obtain ⟨st, b₂, rounds, singles, side⟩ :=
      SideBySide.of_named indexed live obj held named pkt
    have each : topicsLeft (subscribeEach b cb pkt) = some (b₂.topics, b₂.topicHeap) := by
      rw [subscribeEach, singles]
      rfl
    have topics : b₂.topics = st.broker.topics := congrArg View.topics side.view
    rw [Homomorphic, topicsLeft_subscribeHandler live obj held counted rounds side.codes, each,
      topics]
    constructor
    · intro same
      split at same
      · rename_i fine
        refine ⟨?_, side.freed.mp fine.1, fine.2⟩
        by_contra mixed
        obtain ⟨t, longer⟩ := side.longer mixed
        exact longer.ne (Prod.mk.inj (Option.some.inj same)).2
      · cases same
    · intro separable
      rw [if_pos ⟨side.freed.mpr separable.strings, separable.few⟩, side.same separable.filters]

/-- In any reachable state, one packet does what one packet for each tuple does exactly if
the tuples do not get into each other's way, or one of them is a fault in any case. -/
theorem homomorphic_iff [KeyTable T] {tr : List (Broker T × Event)}
    (run : Run BrokerStep startServer tr b) (live : b.closureHeap.get? cb = some closure)
    (obj : closure.obj = some c) (held : b.clientHeap.get? c = some client)
    (counted : pkt.tuplesLen.toNat = pkt.tuples.length) :
    Homomorphic b cb pkt ↔
      (∃ tuple ∈ pkt.tuples, tupleName tuple = none) ∨ Separable b.view pkt.tuples :=
  homomorphic_iff_of_indexed (indexed_of_run run) live obj held counted

end Packets

/-! ## A plain tuple behind a filter -/

/-- A SUBSCRIBE to `p/#` and to `p/`. -/
def filterThenPlain : MqttSubscribe where
  header := ⟨0x82⟩
  pktId := 1
  tuplesLen := 2
  tuples := [⟨3, [112, slashChar, hashChar], 0⟩, ⟨2, [112, slashChar], 0⟩]

/-- The length of the list of `p` where the topics are left. -/
def lengthOfP (run : Except Fault (Broker HashTable)) : Option Nat :=
  (topicsLeft run).bind fun (trie, topics) => (trieFind trie (literal "p/")).map (listLen topics)

/-- The lengths with one packet and with one for each tuple, and who the client is. -/
theorem replay_filterThenPlain :
    ((replay brokerNext (startServer : Broker HashTable) connectOnly).map fun r =>
      (lengthOfP ((subscribeHandler r.2 0 filterThenPlain).map Prod.snd),
        lengthOfP (subscribeEach r.2 0 filterThenPlain),
        (r.2.closureHeap.get? 0).map Closure.obj, r.2.clientHeap.get? 0)) =
      some (some 3, some 2, some (some 0), some (newClient (cstr [97]) 5 true)) := by
  decide +kernel

/-- In one packet the client is put into the list of `p` a third time. -/
theorem filterThenPlain_not_homomorphic :
    ¬ ∀ tr b, Run BrokerStep (startServer : Broker HashTable) tr b → ∀ cb closure c client,
      b.closureHeap.get? cb = some closure → closure.obj = some c →
      b.clientHeap.get? c = some client → ∀ pkt : MqttSubscribe,
      pkt.tuplesLen.toNat = pkt.tuples.length →
      (∀ tuple ∈ pkt.tuples, 0 < tuple.topicLen ∧ tuple.topicLen.toNat = tuple.topic.length) →
        Homomorphic b cb pkt := by
  intro always
  obtain ⟨tr, b, run, _, facts⟩ :=
    Run.of_replay_map (fun _ _ _ => brokerNext_step) replay_filterThenPlain
  simp only [Prod.mk.injEq] at facts
  obtain ⟨whole, each, owner, held⟩ := facts
  obtain ⟨closure, live, obj⟩ := Option.map_eq_some_iff.mp owner
  have same : topicsLeft ((subscribeHandler b 0 filterThenPlain).map Prod.snd) =
      topicsLeft (subscribeEach b 0 filterThenPlain) :=
    always tr b run 0 closure 0 _ live obj held filterThenPlain rfl (by decide)
  have three_two : some 3 = some 2 := calc
    some 3 = lengthOfP ((subscribeHandler b 0 filterThenPlain).map Prod.snd) := whole.symm
    _ = lengthOfP (subscribeEach b 0 filterThenPlain) := by rw [lengthOfP, same, lengthOfP]
    _ = some 2 := each
  cases three_two

/-- A SUBSCRIBE to `t` and to `u`. -/
def twoPlain : MqttSubscribe where
  header := ⟨0x82⟩
  pktId := 1
  tuplesLen := 2
  tuples := [⟨1, [116], 0⟩, ⟨1, [117], 0⟩]

/-- Two plain tuples may come in one packet. -/
theorem twoPlain_homomorphic :
    ∃ tr b, Run BrokerStep (startServer : Broker HashTable) tr b ∧
      tr.map Prod.snd = connectOnly ∧ Homomorphic b 0 twoPlain := by
  obtain ⟨tr, b, closure, run, labels, live, _, obj, held, _⟩ := run_of_tableOfT replay_connectOnly
  refine ⟨tr, b, run, labels, ?_⟩
  apply (homomorphic_iff run live obj held rfl).mpr
  refine .inr ⟨?_, ?_, by decide⟩
  · intro before tuple after split _ flagged
    have plain : twoPlain.tuples.any isFilter = false := by decide
    rw [split, List.any_append, flagged] at plain
    cases plain
  · intro before tuple after split _
    have appended : twoPlain.tuples.all isAppended = true := by decide
    exact List.all_eq_true.mp appended tuple
      (split ▸ List.mem_append_right _ (List.mem_cons_self ..))

end SolBroker
