import Mathlib
import SolBroker.Trie.Walks
import SolBroker.Broker.Accounting
import SolBroker.Broker.Fanout
import SolBroker.Broker.Progress
import SolBroker.Broker.Wildcard

/-!
# The broker as a board of topics

What the broker does with topics and subscribers, by name alone: a board on which requests are
posted one after the other. The trie, the numbers of the topics, the lists behind pointers and
the recursion that subscribes to what is below a filter are all accounted for, so the board
gives the exact list of subscribers of every topic, with every repetition, in every run.
-/

namespace SolBroker

open PubSub Transition

variable {T : Type → Type}

/-- The topics of a view, by the characters of their names. -/
def View.board (v : View T) : Board Int8 Subscriber := fun key =>
  (v.topics.root.lookup key).bind fun t =>
    v.topicHeap[t]?.map fun topic => topic.subscribers.nodes

/-- The topics are found by their names and by nothing else. -/
structure View.Charted (v : View T) : Prop where
  indexed : v.Indexed
  spelled : ∀ key t, v.topics.root.lookup key = some t → ∃ name : CString, name.chars = key

section Boards

variable {v : View T} {name : CString} {t : TopicRef} {sub : Subscriber}

theorem View.audience_board (v : View T) (name : CString) :
    v.board.audience name.chars = v.subscribers name := by
  rw [Board.audience, View.board, View.subscribers, trieFind_eq_lookup]
  cases v.topics.root.lookup name.chars with
  | none => rfl
  | some t =>
      show (Option.map _ v.topicHeap[t]?).getD [] = v.topicHeap[t]?.elim [] _
      cases v.topicHeap[t]? <;> rfl

namespace View.Charted

variable (charted : v.Charted)
include charted

/-- A topic that is found is there, under its name. -/
theorem held {key : List Int8} (found : v.topics.root.lookup key = some t) :
    ∃ topic, v.topicHeap[t]? = some topic ∧ topic.name.chars = key := by
  obtain ⟨name, rfl⟩ := charted.spelled key t found
  rw [← trieFind_eq_lookup] at found
  obtain ⟨topic, held, rfl⟩ := charted.indexed.find_iff.mp found
  exact ⟨topic, held, rfl⟩

theorem apart : v.topics.root.Apart := by
  intro key key' t found found'
  obtain ⟨topic, held, rfl⟩ := charted.held found
  obtain ⟨topic', held', rfl⟩ := charted.held found'
  cases held.symm.trans held'
  rfl

theorem ordered : Ordered v.topics.root := by
  obtain ⟨m, represents, _⟩ := charted.indexed.names
  exact represents.ordered

theorem isSome_board (key : List Int8) :
    (v.board key).isSome = (v.topics.root.lookup key).isSome := by
  rw [View.board]
  cases found : v.topics.root.lookup key with
  | none => rfl
  | some t =>
      obtain ⟨topic, held, _⟩ := charted.held found
      show (Option.map _ v.topicHeap[t]?).isSome = true
      rw [held]
      rfl

/-- The names stay the same as long as the trie and the number of topics do. -/
theorem pushes {topicHeap : List Topic} {P : Subscriber → Prop}
    (pushes : Pushes P v.topicHeap topicHeap) : View.Charted { v with topicHeap } where
  indexed := (View.Grows.of_pushes pushes charted.indexed).1
  spelled := charted.spelled

end View.Charted

/-! ## Pushing -/

/-- Pushing to several topics in turn. -/
theorem getElem?_foldl_push (ts : List TopicRef) (sub : Subscriber) (topics : List Topic)
    (u : TopicRef) :
    (ts.foldl (fun topics t => topics.modify t (.push sub)) topics)[u]? =
      topics[u]?.map (Topic.push sub)^[ts.count u] := by
  induction ts generalizing topics with
  | nil => exact Option.map_id_apply.symm
  | cons t ts ih =>
      rw [List.foldl_cons, ih, List.getElem?_modify, List.count_cons]
      cases topics[u]? with
      | none => rfl
      | some topic =>
          by_cases here : t = u
          · subst here
            simp
          · simp [here]

theorem Topic.nodes_iterate_push {topic : Topic} (counted : topic.subscribers.Counted)
    (sub : Subscriber) (k : Nat) :
    ((Topic.push sub)^[k] topic).subscribers.Counted ∧
      ((Topic.push sub)^[k] topic).subscribers.nodes =
        List.replicate k sub ++ topic.subscribers.nodes := by
  induction k with
  | zero => exact ⟨counted, rfl⟩
  | succ k ih =>
      rw [Function.iterate_succ_apply']
      refine ⟨counted_listPush ih.1 sub, ?_⟩
      show (listPush ((Topic.push sub)^[k] topic).subscribers sub).nodes = _
      rw [nodes_listPush ih.1, ih.2, List.replicate_succ, List.cons_append]

mutual

/-- `recursive_subscription` pushes to the topics its walk meets. -/
theorem recursiveSubscription_eq_foldl (sub : Subscriber) :
    ∀ (node : TrieNode TopicRef) (topics : List Topic), recursiveSubscription sub node topics =
      (dataMet node).foldl (fun topics t => topics.modify t (.push sub)) topics
  | .node _ _ none, topics => by
      rw [recursiveSubscription, dataMet]
      rfl
  | .node _ ⟨nodes, _⟩ (some t), topics => by
      rw [recursiveSubscription, dataMet, List.foldl_append,
        recursiveSubscriptions_eq_foldl sub nodes]
      rfl

theorem recursiveSubscriptions_eq_foldl (sub : Subscriber) :
    ∀ (nodes : List (TrieNode TopicRef)) (topics : List Topic),
      recursiveSubscriptions sub nodes topics =
        (dataMetBelow nodes).foldl (fun topics t => topics.modify t (.push sub)) topics
  | [], topics => by
      rw [recursiveSubscriptions, dataMetBelow]
      rfl
  | child :: next, topics => by
      rw [recursiveSubscriptions, dataMetBelow, List.foldl_append,
        recursiveSubscription_eq_foldl sub child]
      exact recursiveSubscriptions_eq_foldl sub next _

end

/-- The visit under a filter pushes to the topics that all the walks meet. -/
theorem triePrefixMapTuple_eq_foldl {trie : Trie TopicRef} {pfx : CString}
    {cursor : TrieNode TopicRef} (ordered : Ordered trie.root)
    (start : trieNodeFind trie.root pfx.chars = some cursor) (sub : Subscriber)
    (topics : List Topic) :
    triePrefixMapTuple trie pfx (recursiveSubscription sub) topics =
      (dataMetVisiting pfx.chars cursor).foldl (fun topics t => topics.modify t (.push sub))
        topics := by
  rw [triePrefixMapTuple, start, dataMetVisiting, List.foldl_flatMap]
  simp only [← recursiveSubscription_eq_foldl]
  exact triePrefixMapFunc2_eq_foldl _ (ordered.find start) pfx.chars topics

/-! ## What is done to the board -/

namespace View.Charted

variable (charted : v.Charted)
include charted

theorem board_push (found : trieFind v.topics name = some t) (sub : Subscriber) :
    View.board { v with topicHeap := v.topicHeap.modify t (.push sub) } =
      v.board.push name.chars sub := by
  have found' := (trieFind_eq_lookup _ _).symm.trans found
  obtain ⟨topic, held, _⟩ := charted.held found'
  funext key
  by_cases same : key = name.chars
  · subst same
    rw [Board.push, Function.update_self, v.audience_board, View.subscribers_of_find found held]
    have pushed : (v.topicHeap.modify t (.push sub))[t]? = some (topic.push sub) := by
      rw [List.getElem?_modify, held]
      simp
    rw [View.board]
    show (v.topics.root.lookup name.chars).bind _ = _
    rw [found', Option.bind_some, pushed]
    exact congrArg some (nodes_listPush (charted.indexed.counted t topic held) sub)
  · rw [Board.push, Function.update_of_ne same, View.board, View.board]
    cases other : v.topics.root.lookup key with
    | none => rfl
    | some u =>
        have elsewhere : t ≠ u := by
          rintro rfl
          exact same (charted.apart _ _ _ other found')
        show Option.map _ (v.topicHeap.modify t (.push sub))[u]? = Option.map _ v.topicHeap[u]?
        rw [List.getElem?_modify_ne _ _ elsewhere]

theorem create (free : trieFind v.topics name = none) :
    View.Charted { v with
      topics := trieInsert v.topics name v.topicHeap.length
      topicHeap := v.topicHeap ++ [topicInit name] } where
  indexed := charted.indexed.create free
  spelled := by
    intro key t found
    change (trieInsert v.topics name v.topicHeap.length).root.lookup key = some t at found
    rw [trieInsert, (trieNodeInsert_inserts _ charted.ordered _ _).lookup] at found
    split at found
    · rename_i own
      exact ⟨name, own.symm⟩
    · exact charted.spelled key t found

theorem board_create (free : trieFind v.topics name = none) :
    View.board { v with
      topics := trieInsert v.topics name v.topicHeap.length
      topicHeap := v.topicHeap ++ [topicInit name] } = v.board.publish name.chars := by
  funext key
  rw [Board.publish, View.board]
  show ((trieInsert v.topics name v.topicHeap.length).root.lookup key).bind _ = _
  rw [trieInsert, (trieNodeInsert_inserts _ charted.ordered _ _).lookup]
  by_cases same : key = name.chars
  · subst same
    rw [if_pos rfl, Function.update_self, v.audience_board, View.subscribers_of_free free]
    show Option.map _ (v.topicHeap ++ [topicInit name])[v.topicHeap.length]? = _
    rw [List.getElem?_concat_length]
    rfl
  · rw [if_neg same, Function.update_of_ne same, View.board]
    cases found : v.topics.root.lookup key with
    | none => rfl
    | some t =>
        obtain ⟨topic, held, _⟩ := charted.held found
        show Option.map _ (v.topicHeap ++ [topicInit name])[t]? = Option.map _ v.topicHeap[t]?
        rw [List.getElem?_append_left (List.getElem?_eq_some_iff.mp held).1]

/-- A PUBLISH, which makes a topic at most. -/
theorem createTopic (name : CString) :
    (v.createTopic name).Charted ∧ (v.createTopic name).board = v.board.publish name.chars := by
  rw [View.createTopic]
  cases found : trieFind v.topics name with
  | none => exact ⟨charted.create found, charted.board_create found⟩
  | some t =>
      refine ⟨charted, ?_⟩
      obtain ⟨topic, held, _⟩ := charted.indexed.find_iff.mp found
      have here : v.board name.chars = some topic.subscribers.nodes := by
        rw [View.board, ← trieFind_eq_lookup, found, Option.bind_some, held]
        rfl
      rw [Board.publish, Board.audience, here]
      exact (Function.update_eq_self_iff.mpr here.symm).symm

/-- The visit under a filter. -/
theorem board_mapped (found : trieFind v.topics name = some t) (sub : Subscriber) :
    View.board { v with
      topicHeap := triePrefixMapTuple v.topics name (recursiveSubscription sub) v.topicHeap } =
        v.board.pushBelow name.chars sub := by
  obtain ⟨cursor, start, _⟩ :=
    Option.bind_eq_some_iff.mp ((trieFind_eq_lookup _ _).symm.trans found)
  have inner (rest : List Int8) :
      v.topics.root.lookup (name.chars ++ rest) = cursor.lookup rest := by
    rw [TrieNode.lookup, trieNodeFind_append, start]
    rfl
  have ordered := charted.ordered.find start
  have apart : cursor.Apart := fun key key' value held held' =>
    List.append_cancel_left
      (charted.apart _ _ value ((inner key).trans held) ((inner key').trans held'))
  funext key
  rw [Board.pushBelow, View.board]
  show (v.topics.root.lookup key).bind _ = _
  cases other : v.topics.root.lookup key with
  | none =>
      rw [View.board, other]
      rfl
  | some u =>
      obtain ⟨topic, held, _⟩ := charted.held other
      have before : v.board key = some topic.subscribers.nodes := by
        rw [View.board, other, Option.bind_some, held]
        rfl
      rw [Option.bind_some, before, triePrefixMapTuple_eq_foldl charted.ordered start]
      show Option.map _ (List.foldl _ v.topicHeap _)[u]? = _
      rw [getElem?_foldl_push, held]
      have nodes := Topic.nodes_iterate_push (charted.indexed.counted u topic held) sub
        ((dataMetVisiting name.chars cursor).count u)
      refine congrArg some (nodes.2.trans ?_)
      split
      · rename_i below
        obtain ⟨rest, rfl⟩ := below
        rw [List.drop_left, count_dataMetVisiting ordered apart _ ((inner rest).symm.trans other)]
        simp only [charted.isSome_board, inner]
      · rename_i elsewhere
        rw [List.count_eq_zero_of_not_mem, List.replicate_zero, List.nil_append]
        intro met
        obtain ⟨rest, found'⟩ := exists_lookup_of_mem_dataMetVisiting ordered _ met
        exact elsewhere ⟨rest, charted.apart _ _ u ((inner rest).trans found') other⟩

/-- A round of a SUBSCRIBE. -/
theorem subscribe (name : CString) (wildcard : Bool) (sub : Subscriber) :
    (v.subscribe name wildcard sub).Charted ∧
      (v.subscribe name wildcard sub).board = v.board.subscribe name.chars wildcard sub := by
  have known : (v.board name.chars).isSome = (trieFind v.topics name).isSome := by
    rw [charted.isSome_board, trieFind_eq_lookup]
  rw [View.subscribe, Board.subscribe, known]
  cases found : trieFind v.topics name with
  | none =>
      have created := charted.create found
      have here : trieFind (trieInsert v.topics name v.topicHeap.length) name =
          some v.topicHeap.length :=
        created.indexed.find_iff.mpr ⟨topicInit name, List.getElem?_concat_length .., rfl⟩
      refine ⟨created.pushes (P := fun _ => True) (.push trivial), ?_⟩
      refine (created.board_push here sub).trans ?_
      rw [charted.board_create found, Option.isSome_none, Bool.and_false,
        if_neg Bool.false_ne_true, Board.push_publish]
  | some t =>
      rw [Option.isSome_some, Bool.and_true]
      cases wildcard with
      | false =>
          exact ⟨charted.pushes (P := fun _ => True) (.push trivial), charted.board_push found sub⟩
      | true =>
          have mapped := charted.pushes
            (triePrefixMapTuple_pushes (P := (· = sub)) rfl v.topics name v.topicHeap)
          refine ⟨mapped.pushes (P := fun _ => True) (.push trivial), ?_⟩
          refine (mapped.board_push found sub).trans ?_
          rw [charted.board_mapped found]
          rfl

end View.Charted

end Boards

/-! ## Requests -/

/-- What the tuples of a SUBSCRIBE post for a client. A filter turns the ones after it into
filters, too. -/
def tupleOps (obj : ClientRef) : Bool → List SubscribeTuple → List (Op Int8 Subscriber)
  | _, [] => []
  | wildcard, tuple :: tuples =>
      match tupleTopic tuple with
      | .error _ => tupleOps obj wildcard tuples
      | .ok (name, _, filter) =>
          .subscribe name.chars (wildcard || filter) ⟨tuple.qos, obj⟩ ::
            tupleOps obj (wildcard || filter) tuples

/-- What a request posts for a client. -/
def Request.posts (obj : ClientRef) : Request → List (Op Int8 Subscriber)
  | .subscribe pkt => tupleOps obj false (pkt.tuples.take pkt.tuplesLen.toNat)
  | .publish pkt => (publishTopic pkt).toOption.toList.map fun name => .publish name.chars
  | _ => []

/-- The client whose request an event on a closure has handled, if it has. -/
def Broker.requester (b : Broker T) (cb : ClosureRef) : Option ClientRef :=
  ((b.closureHeap.get? cb).filter fun closure => closure.call = .onRead).bind Closure.obj

/-- What an event posts. -/
def Event.posts (b : Broker T) : Event → List (Op Int8 Subscriber)
  | .ready cb (.request request) _ => (b.requester cb).elim [] request.posts
  | _ => []

def ServerEvent.posts (b : Broker T) : ServerEvent → List (Op Int8 Subscriber)
  | .socket event => event.posts b
  | .tick .. => []

/-- What a run has posted, in order. -/
def postings (tr : List (Broker T × ServerEvent)) : List (Op Int8 Subscriber) :=
  tr.flatMap fun visit => visit.2.posts visit.1

/-- The board that the server starts with. -/
def sysBoard : Board Int8 Subscriber :=
  sysTopics.foldl (fun board name => board.publish name.chars) fun _ => none

section Requests

variable {b b' : Broker T} {cb : ClosureRef} {closure : Closure} {obj : ClientRef}

theorem Broker.requester_eq (live : b.closureHeap.get? cb = some closure)
    (reads : closure.call = .onRead) : b.requester cb = closure.obj := by
  rw [Broker.requester, live, Option.filter_some, if_pos (decide_eq_true reads)]
  rfl

theorem Broker.requester_writing (live : b.closureHeap.get? cb = some closure)
    (writes : closure.call = .onWrite) : b.requester cb = none := by
  have other : ¬ closure.call = .onRead := by
    rw [writes]
    decide
  rw [Broker.requester, live, Option.filter_some, if_neg (mt of_decide_eq_true other)]
  rfl

theorem View.Charted.of_same {v v' : View T} (charted : v.Charted) (topics : v'.topics = v.topics)
    (topicHeap : v'.topicHeap = v.topicHeap) : v'.Charted ∧ v'.board = v.board := by
  refine ⟨⟨?_, ?_⟩, ?_⟩
  · exact ((View.Grows.of_same (P := fun _ => True) topics topicHeap) charted.indexed).1
  · rw [topics]
    exact charted.spelled
  · funext key
    rw [View.board, View.board, topics, topicHeap]

/-- The rounds of a SUBSCRIBE. -/
theorem tupleOps_of_run {tuples : List SubscribeTuple} {st st' : SubscribeState T}
    (run : tuples.foldlM (subscribeTuple obj) st = .ok st') (charted : st.broker.view.Charted) :
    st'.broker.view.Charted ∧ st'.broker.view.board =
      (tupleOps obj st.wildcard tuples).foldl Board.apply st.broker.view.board := by
  induction tuples generalizing st with
  | nil =>
      cases run
      exact ⟨charted, rfl⟩
  | cons tuple tuples ih =>
      obtain ⟨mid, first, rest⟩ := bind_eq_ok.mp run
      obtain ⟨name, appended, filter, _, _, named, _⟩ := subscribeTuple_eq_ok first
      obtain ⟨mid', again, view, wildcard, _⟩ := subscribeTuple_run obj st named
      cases first.symm.trans again
      obtain ⟨charted', board⟩ :=
        charted.subscribe name (st.wildcard || filter) ⟨tuple.qos, obj⟩
      rw [← view] at charted' board
      obtain ⟨last, boards⟩ := ih rest charted'
      refine ⟨last, ?_⟩
      rw [boards, board, wildcard, tupleOps, named]
      rfl

end Requests

section Events

variable [KeyTable T] {b b' : Broker T} {fuel : Nat} {v : View T}

/-- What an event does to the board. -/
theorem View.Charted.effect {event : Event} (charted : b.view.Charted)
    (effect : Effect fuel b event v) :
    v.Charted ∧ v.board = (event.posts b).foldl Board.apply b.view.board := by
  have drop (key key' : CString) : ((b.view.dropClient key).dropClosure key').Charted ∧
      ((b.view.dropClient key).dropClosure key').board = b.view.board := by
    obtain ⟨_, _, first⟩ := b.view.dropClient_frame key
    obtain ⟨_, _, second⟩ := (b.view.dropClient key).dropClosure_frame key'
    rw [second, first]
    exact charted.of_same rfl rfl
  have nothing (obj : Option ClientRef) :
      (obj.elim [] fun _ => ([] : List (Op Int8 Subscriber))) = [] := by
    cases obj <;> rfl
  cases effect with
  | accepted => exact charted.of_same rfl rfl
  | @quiet cb closure input results live silent =>
      refine ⟨charted, ?_⟩
      obtain writes | rfl | ⟨pkt, rfl⟩ := silent
      · cases input with
        | request request =>
            rw [Event.posts, Broker.requester_writing live writes]
            rfl
        | packetErr | dropped => rfl
      · rfl
      · rw [Event.posts]
        exact (congrArg (List.foldl Board.apply b.view.board) (nothing _)).symm
  | @left cb closure input results c client live reads leaves obj held =>
      obtain ⟨charted', board⟩ := drop client.clientId closure.closureId
      refine ⟨charted', board.trans ?_⟩
      obtain rfl | rfl := leaves
      · rfl
      · rw [Event.posts]
        exact (congrArg (List.foldl Board.apply b.view.board) (nothing _)).symm
  | @refused cb closure pkt block results live reads given found =>
      obtain ⟨charted', board⟩ := drop (cstr block) closure.closureId
      refine ⟨charted', board.trans ?_⟩
      rw [Event.posts]
      exact (congrArg (List.foldl Board.apply b.view.board) (nothing _)).symm
  | @connected cb closure pkt block results status clients live reads given free put =>
      let after := b.view.connect clients cb closure.link
        (newClient (cstr block) closure.fd pkt.cleanSession)
      have same : after.Charted ∧ after.board = b.view.board := charted.of_same rfl rfl
      refine ⟨same.1, same.2.trans ?_⟩
      rw [Event.posts]
      exact (congrArg (List.foldl Board.apply b.view.board) (nothing _)).symm
  | @subscribed cb closure pkt results obj c b₁ st live reads isObj held same rounds =>
      have charted₁ : b₁.view.Charted := same ▸ charted
      obtain ⟨charted', board⟩ := tupleOps_of_run rounds charted₁
      refine ⟨charted', board.trans ?_⟩
      rw [Event.posts, Broker.requester_eq live reads, isObj, ← same]
      rfl
  | @published cb closure pkt results obj c topic live reads isObj held named =>
      obtain ⟨charted', board⟩ := charted.createTopic topic
      refine ⟨charted', board.trans ?_⟩
      rw [Event.posts, Broker.requester_eq live reads, isObj, Option.elim_some, Request.posts,
        named]
      rfl

end Events

/-! ## The messages of a tick -/

section Ticks

variable {b b' : Broker T}

theorem publishStat_sends {message : (CString × CString) × List Int}
    (run : publishStat b message = .ok b') :
    ∃ sends, b'.sent = b.sent ++ sends ∧
      List.Forall₂ (SendsTo b.clientHeap (statPacket message.1))
        (b.view.subscribers message.1.1) sends := by
  obtain ⟨⟨topic, text⟩, results⟩ := message
  change publishMessage _ _ _ _ _ _ _ = _ at run
  have topics : b.view.topics = b.topics := rfl
  rw [publishMessage, solTopicGet] at run
  rw [View.subscribers, topics]
  dsimp only
  cases found : trieFind b.topics topic with
  | none =>
      rw [found] at run
      cases run
      exact ⟨[], (List.append_nil _).symm, .nil⟩
  | some t =>
      rw [found] at run
      exact publishLoop_sends (publishLoop_of_message run)

/-- There is an answer for each of the messages. -/
theorem statsMessages_zip (info : SolInfo) (uptime : Int) (solUptime : CString)
    (results : List (List Int)) :
    ((statsMessages info uptime solUptime).zip (results ++ List.replicate 6 [])).map Prod.fst =
      statsMessages info uptime solUptime := by
  rw [List.map_fst_zip]
  rw [List.length_append, List.length_replicate]
  exact Nat.le_add_left 6 _

/-- A tick sends a batch for each of its messages, to the subscribers of its topic. -/
theorem publishStats_sends {uptime : Int} {solUptime : CString} {results : List (List Int)}
    (run : publishStats b uptime solUptime results = .ok b') :
    ∃ batches : List (List Send), b'.sent = b.sent ++ batches.flatten ∧
      List.Forall₂ (fun message batch => List.Forall₂ (SendsTo b.clientHeap (statPacket message))
        (b.view.subscribers message.1) batch) (statsMessages b.info uptime solUptime) batches := by
  rw [publishStats] at run
  rw [← statsMessages_zip b.info uptime solUptime results]
  generalize (statsMessages b.info uptime solUptime).zip _ = pairs at run
  induction pairs generalizing b with
  | nil =>
      cases run
      exact ⟨[], (List.append_nil _).symm, .nil⟩
  | cons pair pairs ih =>
      obtain ⟨mid, first, rest⟩ := bind_eq_ok.mp run
      obtain ⟨sends, sent, each⟩ := publishStat_sends first
      obtain ⟨info, sent', rfl⟩ := publishStat_keeps first
      obtain ⟨batches, later, all⟩ := ih rest
      refine ⟨sends :: batches, ?_, .cons each all⟩
      rw [later, List.flatten_cons, ← List.append_assoc]
      exact congrArg (· ++ batches.flatten) sent

end Ticks

/-! ## Runs -/

section Runs

variable [KeyTable T] {b : Broker T} {tr : List (Broker T × ServerEvent)}

theorem charted_startServer : (startServer : Broker T).view.Charted ∧
    (startServer : Broker T).view.board = sysBoard := by
  have put (names : List CString) (b : Broker T) (charted : b.view.Charted) (apart : names.Nodup)
      (free : ∀ name ∈ names, trieFind b.topics name = none) :
      (names.foldl (fun b name => (solTopicPut b name).2) b).view.Charted ∧
        (names.foldl (fun b name => (solTopicPut b name).2) b).view.board =
          names.foldl (fun board name => board.publish name.chars) b.view.board := by
    induction names generalizing b with
    | nil => exact ⟨charted, rfl⟩
    | cons name names ih =>
        obtain ⟨new, apart⟩ := List.nodup_cons.mp apart
        have freeName := free name List.mem_cons_self
        have board : (solTopicPut b name).2.view.board = b.view.board.publish name.chars :=
          charted.board_create freeName
        rw [List.foldl_cons, List.foldl_cons, ← board]
        apply ih (solTopicPut b name).2 (charted.create freeName) apart
        intro other member
        have freeOther := free other (List.mem_cons_of_mem _ member)
        exact charted.indexed.find_create_ne freeName freeOther fun same => new (same ▸ member)
  have nothing (key : List Int8) : (trieInit : Trie TopicRef).root.lookup key = none :=
    lookup_trieCreateNode _ key
  have indexed : (solInit : Broker T).view.Indexed := ⟨⟨∅, represents_trieInit, .empty⟩, by
    intro t topic held
    cases held⟩
  have charted : (solInit : Broker T).view.Charted := by
    refine ⟨indexed, fun key t found => ?_⟩
    cases (nothing key).symm.trans found
  have empty : (solInit : Broker T).view.board = fun _ => none := by
    funext key
    show Option.bind ((trieInit : Trie TopicRef).root.lookup key) _ = none
    rw [nothing key]
    rfl
  rw [sysBoard, ← empty]
  refine put sysTopics solInit charted (by decide +kernel) fun name _ => ?_
  exact (trieFind_eq_lookup _ _).trans (nothing name.chars)

/-- The topics of a run are the board of what it has posted. -/
theorem charted_of_run (run : Run ServerStep startServer tr b) :
    b.view.Charted ∧ b.view.board = (postings tr).foldl Board.apply sysBoard := by
  induction run with
  | nil =>
      rw [postings, List.flatMap_nil, List.foldl_nil]
      exact charted_startServer
  | @snoc tr b event b' _ step ih =>
      obtain ⟨charted, board⟩ := ih
      have posted : postings (tr ++ [(b, event)]) = postings tr ++ event.posts b := by
        rw [postings, List.flatMap_append, List.flatMap_singleton]
        rfl
      rw [posted, List.foldl_append, ← board]
      obtain ⟨e, rfl, step⟩ | ⟨_, _, _, info, sent, rfl, rfl⟩ := step.cases
      · obtain ⟨_, fuel, run⟩ := step
        exact charted.effect (dispatch_effect run)
      · exact ⟨charted, rfl⟩

/-- In every run the broker has the topics and the subscribers of the board on which its
requests were posted, in the same order and with the same repetitions. A PUBLISH that is
handled next goes to the audience of its topic on that board, and so does each message of a
tick. -/
theorem topics_follow_board (run : Run ServerStep startServer tr b) :
    let board := (postings tr).foldl Board.apply sysBoard
    (∀ name, (trieFind b.topics name).isSome = (board name.chars).isSome ∧
        b.view.subscribers name = board.audience name.chars) ∧
      (∀ fuel cb closure pkt results b', b.closureHeap.get? cb = some closure →
        closure.call = .onRead →
        dispatch fuel b (.ready cb (.request (.publish pkt)) results) = .ok b' →
        ∃ name sends, publishTopic pkt = .ok name ∧ b'.sent = b.sent ++ sends ∧
          List.Forall₂ (SendsTo b.clientHeap pkt) (board.audience name.chars) sends) ∧
      ∀ uptime solUptime results b', publishStats b uptime solUptime results = .ok b' →
        ∃ batches : List (List Send), b'.sent = b.sent ++ batches.flatten ∧
          List.Forall₂ (fun message batch =>
            List.Forall₂ (SendsTo b.clientHeap (statPacket message))
              (board.audience message.1.chars) batch)
            (statsMessages b.info uptime solUptime) batches := by
  intro board
  obtain ⟨charted, same⟩ := charted_of_run run
  have audience (name : CString) : board.audience name.chars = b.view.subscribers name := by
    rw [← View.audience_board, same]
  refine ⟨fun name => ⟨?_, (audience name).symm⟩, ?_, ?_⟩
  · show _ = (List.foldl Board.apply sysBoard (postings tr) name.chars).isSome
    rw [← same, charted.isSome_board, trieFind_eq_lookup]
    rfl
  · intro fuel cb closure pkt results b' live reads handled
    obtain ⟨name, sends, named, sent, each⟩ := dispatch_publish_sends live reads handled
    exact ⟨name, sends, named, sent, (audience name).symm ▸ each⟩
  · intro uptime solUptime results b' ticked
    obtain ⟨batches, sent, all⟩ := publishStats_sends ticked
    refine ⟨batches, sent, ?_⟩
    simp only [audience]
    exact all

/-- A client that subscribes to `$SOL/#`. -/
def subscribeToSol : List ServerEvent :=
  [.socket (.accept 5 (uuidOf 0)), .socket (.ready 0 (.request (.connect (connectAs 97))) []),
    .socket (.ready 0 .dropped []),
    .socket (.ready 0 (.request (.subscribe subscribeBelowSol)) [])]

theorem replay_subscribeToSol :
    (replay serverNext (startServer : Broker HashTable) subscribeToSol).map (fun r =>
      postings r.1) = some [.subscribe (literal "$SOL/").chars true ⟨0, 0⟩] := by
  decide +kernel

/-- It is on the list of `$SOL/` twice, as on the board. -/
theorem subscribeToSol_twice : ∃ tr b, Run ServerStep (startServer : Broker HashTable) tr b ∧
    tr.map Prod.snd = subscribeToSol ∧ b.view.subscribers (literal "$SOL/") = [⟨0, 0⟩, ⟨0, 0⟩] := by
  obtain ⟨tr, b, run, labels, posted⟩ := Run.of_replay_map serverNext_step replay_subscribeToSol
  refine ⟨tr, b, run, labels, ?_⟩
  obtain ⟨topics, _⟩ := topics_follow_board run
  rw [(topics _).2]
  change postings tr = _ at posted
  rw [posted]
  decide +kernel

/-- The name that is one character shorter. -/
theorem chars_shorter {name shorter : CString} {c : UInt8}
    (split : name.bytes = shorter.bytes ++ [c]) : shorter.chars = name.chars.dropLast := by
  rw [CString.chars, CString.chars, split, List.map_append, List.map_singleton,
    List.dropLast_concat]

theorem exists_shorter {name : CString} (some_ : name.chars ≠ []) :
    ∃ shorter : CString, ∃ c, name.bytes = shorter.bytes ++ [c] := by
  have bytes : name.bytes ≠ [] := fun none_ => some_ (by rw [CString.chars, none_, List.map_nil])
  have nulFree : 0 ∉ name.bytes.dropLast := fun member =>
    name.nulFree (List.mem_of_mem_dropLast member)
  exact ⟨⟨name.bytes.dropLast, nulFree⟩, name.bytes.getLast bytes,
    (List.dropLast_append_getLast bytes).symm⟩

/-- What a filter on its own does to the list of a topic when its own topic is there: it puts
the client into the list of every topic below, and into no other. It does so once exactly for
the topics other than its own for which there is no topic one character shorter. -/
theorem filter_entries (run : Run ServerStep startServer tr b) {cb : ClosureRef}
    {closure : Closure} {c : ClientRef} {client : SolClient} {tuple : SubscribeTuple}
    {root : CString} {appended : Bool} (live : b.closureHeap.get? cb = some closure)
    (obj : closure.obj = some c) (held : b.clientHeap.get? c = some client)
    (named : tupleTopic tuple = .ok (root, appended, true))
    (known : trieFind b.topics root ≠ none) (pkt : MqttSubscribe) :
    ∃ b', (subscribeHandler b cb (pkt.only tuple)).map Prod.snd = .ok b' ∧
      ∀ name, trieFind b.topics name ≠ none →
        ∃ k, b'.view.subscribers name =
            List.replicate k ⟨tuple.qos, c⟩ ++ b.view.subscribers name ∧
          (k = 0 ↔ ¬ root.bytes <+: name.bytes) ∧
          (k = 1 ↔ root.bytes <+: name.bytes ∧ name ≠ root ∧
            ∀ (shorter : CString) a, name.bytes = shorter.bytes ++ [a] →
              trieFind b.topics shorter = none) := by
  obtain ⟨charted, _⟩ := charted_of_run run
  obtain ⟨b', handled, view⟩ := subscribeHandler_only live obj held named pkt
  refine ⟨b', handled, fun name there => ?_⟩
  obtain ⟨_, board⟩ := charted.subscribe root true ⟨tuple.qos, c⟩
  have isSome (name : CString) : (b.view.board name.chars).isSome = true ↔
      trieFind b.topics name ≠ none := by
    rw [charted.isSome_board, ← trieFind_eq_lookup, Option.isSome_iff_ne_none]
    rfl
  rw [view, ← View.audience_board, ← View.audience_board, board]
  by_cases own : name = root
  · subst own
    refine ⟨2, Board.audience_subscribe_root ((isSome name).mpr known), ?_, ?_⟩
    · exact iff_of_false (by decide) (not_not.mpr (List.prefix_refl _))
    · exact iff_of_false (by decide) fun all => all.2.1 rfl
  · have other : name.chars ≠ root.chars := fun same => own (CString.chars_injective same)
    rw [Board.audience_subscribe_below ((isSome root).mpr known) other]
    by_cases below : root.bytes <+: name.bytes
    · obtain ⟨rest, split⟩ := chars_prefix_iff.mpr below
      have some_ : rest ≠ [] := by
        rintro rfl
        exact other (split.symm.trans (List.append_nil _))
      have here : (b.view.board (root.chars ++ rest)).isSome = true := by
        rw [split]
        exact (isSome name).mpr there
      rw [← split, Board.audience_pushBelow rest here]
      refine ⟨_, rfl, iff_of_false (links_pos here).ne' (not_not.mpr below), ?_⟩
      rw [links_eq_one_iff]
      have last : root.chars ++ rest.dropLast = name.chars.dropLast := by
        rw [← split, List.dropLast_append_of_ne_nil some_]
      constructor
      · rintro ⟨_, none_ | gap⟩
        · exact absurd none_ some_
        · refine ⟨below, own, fun shorter a cut => ?_⟩
          rw [last, ← chars_shorter cut] at gap
          by_contra found
          rw [(isSome shorter).mpr found] at gap
          cases gap
      · rintro ⟨_, _, gap⟩
        refine ⟨here, .inr ?_⟩
        have long : name.chars ≠ [] := by
          rw [← split]
          exact List.append_ne_nil_of_right_ne_nil _ some_
        obtain ⟨shorter, a, cut⟩ := exists_shorter long
        rw [last, ← chars_shorter cut]
        exact Bool.eq_false_iff.mpr fun found => (isSome shorter).mp found (gap shorter a cut)
    · have elsewhere : ¬ root.chars <+: name.chars := fun inside =>
        below (chars_prefix_iff.mp inside)
      rw [Board.audience_pushBelow_elsewhere elsewhere]
      refine ⟨0, rfl, iff_of_true rfl below, ?_⟩
      exact iff_of_false (by decide) fun all => below all.1

/-- A client that has connected. -/
def connectedOnly : List ServerEvent := connectOnly.map .socket

theorem replay_connectedOnly :
    (replay serverNext (startServer : Broker HashTable) connectedOnly).map (fun r =>
      ((r.2.closureHeap.get? 0).bind Closure.obj, (r.2.clientHeap.get? 0).isSome,
        [literal "$SOL/", literal "$SOL/broker/", literal "$SOL/broker"].map (trieFind r.2.topics),
        r.2.view.subscribers (literal "$SOL/broker/"))) =
      some (some 0, true, [some 0, some 1, none], []) := by
  decide +kernel

/-- The filter `$SOL/#` puts it into the list of `$SOL/broker/` once. -/
theorem connectedOnly_entries : ∃ tr b b', Run ServerStep (startServer : Broker HashTable) tr b ∧
    tr.map Prod.snd = connectedOnly ∧
    (subscribeHandler b 0 (subscribeBelowSol.only belowSol)).map Prod.snd = .ok b' ∧
    b'.view.subscribers (literal "$SOL/broker/") = [⟨0, 0⟩] := by
  obtain ⟨tr, b, run, labels, facts⟩ := Run.of_replay_map serverNext_step replay_connectedOnly
  simp only [List.map_cons, List.map_nil, Prod.mk.injEq, List.cons.injEq, and_true] at facts
  obtain ⟨owner, there, ⟨root, topic, shorter⟩, nobody⟩ := facts
  obtain ⟨closure, live, obj⟩ := Option.bind_eq_some_iff.mp owner
  obtain ⟨client, held⟩ := Option.isSome_iff_exists.mp there
  have named : tupleTopic belowSol = .ok (literal "$SOL/", false, true) := by decide +kernel
  obtain ⟨b', handled, entries⟩ := filter_entries run live obj held named
    (Option.ne_none_iff_exists'.mpr ⟨0, root⟩) subscribeBelowSol
  obtain ⟨k, after, _, once⟩ :=
    entries (literal "$SOL/broker/") (Option.ne_none_iff_exists'.mpr ⟨1, topic⟩)
  have one : k = 1 := by
    refine once.mpr ⟨by decide +kernel, by decide +kernel, fun name a cut => ?_⟩
    have same : name.bytes = (literal "$SOL/broker").bytes := by
      have cut' : (literal "$SOL/broker/").bytes = (literal "$SOL/broker").bytes ++ [47] := by
        decide +kernel
      exact (List.append_inj' (cut.symm.trans cut') rfl).1
    rw [CString.ext same]
    exact shorter
  refine ⟨tr, b, b', run, labels, handled, ?_⟩
  rw [after, one, nobody]
  rfl

end Runs

end SolBroker
