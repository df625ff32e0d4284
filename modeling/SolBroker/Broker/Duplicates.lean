import Mathlib
import SolBroker.Lib.Along
import SolBroker.Lib.Run
import SolBroker.Broker.Publish
import SolBroker.Broker.Rounds
import SolBroker.Broker.Subscribers

/-!
# One entry per client

A client gets a PUBLISH once for each of its entries in the list of the topic. A round
of a SUBSCRIBE adds an entry without looking for an older one, and adds two if it finds
its topic under the wildcard flag. So the lists keep one entry per client exactly as
long as every tuple is for a topic its client has no entry in yet, and for one that does
not exist yet once a wildcard filter has been met in the packet.
-/

namespace SolBroker

open Transition

variable {T : Type → Type}

/-- No topic has two entries of one client. -/
def NoDuplicates (v : View T) : Prop :=
  ∀ name, ((v.subscribers name).map Subscriber.client).Nodup

/-- The client is among the subscribers of the topic. -/
def View.HasClient (v : View T) (name : CString) (c : ClientRef) : Prop :=
  c ∈ (v.subscribers name).map Subscriber.client

theorem View.hasClient_iff {v : View T} {name : CString} {c : ClientRef} :
    v.HasClient name c ↔ ∃ qos, v.Holds name ⟨qos, c⟩ := by
  rw [View.HasClient, List.mem_map]
  constructor
  · rintro ⟨sub, member, rfl⟩
    exact ⟨sub.qos, View.holds_iff_mem.mpr member⟩
  · rintro ⟨qos, holds⟩
    exact ⟨⟨qos, c⟩, View.holds_iff_mem.mp holds, rfl⟩

/-- The condition on a tuple and the ones before it: the topic is none of theirs, and if
any of them is a filter it does not exist, otherwise it does not have the client. -/
def NewTo (v : View T) (c : ClientRef) (before : List SubscribeTuple)
    (tuple : SubscribeTuple) : Prop :=
  ∀ name, tupleName tuple = some name → some name ∉ before.map tupleName ∧
    if (before ++ [tuple]).any isFilter then trieFind v.topics name = none else ¬ v.HasClient name c

/-- The condition on an event. -/
def SubscribesOnce (b : Broker T) : Event → Prop
  | .ready cb (.request (.subscribe pkt)) _ => ∀ closure c, b.closureHeap.get? cb = some closure →
      closure.call = .onRead → closure.obj = some c →
        (pkt.tuples.take pkt.tuplesLen.toNat).Along (NewTo b.view c)
  | _ => True

/-! ## Rounds -/

section Rounds

variable {v : View T} {name other : CString} {wildcard : Bool} {sub : Subscriber} {c : ClientRef}

theorem hasClient_of_free (free : trieFind v.topics name = none) : ¬ v.HasClient name c := by
  rw [View.HasClient, View.subscribers_of_free free]
  exact List.not_mem_nil

theorem newTo_iff {before : List SubscribeTuple} {tuple : SubscribeTuple}
    (named : tupleName tuple = some name) : NewTo v c before tuple ↔
      some name ∉ before.map tupleName ∧ if (before ++ [tuple]).any isFilter
        then trieFind v.topics name = none else ¬ v.HasClient name c := by
  constructor
  · intro new
    exact new name named
  · intro new name' named'
    obtain rfl := Option.some.inj (named.symm.trans named')
    exact new

/-- A round keeps one entry per client exactly if its topic is new to the client, and new
altogether under the flag. -/
theorem View.Indexed.noDuplicates_subscribe_iff (indexed : v.Indexed) (name : CString)
    (wildcard : Bool) (sub : Subscriber) :
    NoDuplicates (v.subscribe name wildcard sub) ↔ NoDuplicates v ∧
      (wildcard = true → trieFind v.topics name = none) ∧ ¬ v.HasClient name sub.client := by
  by_cases once : wildcard = true → trieFind v.topics name = none
  · rw [and_iff_right once]
    have lists := indexed.subscribers_subscribe once sub
    constructor
    · intro apart
      have here := apart name
      rw [lists, if_pos rfl, List.map_cons, List.nodup_cons] at here
      refine ⟨fun other => ?_, here.1⟩
      have there := apart other
      rw [lists] at there
      split at there
      · rw [List.map_cons, List.nodup_cons] at there
        exact there.2
      · exact there
    · rintro ⟨apart, new⟩ other
      rw [lists]
      split
      · rename_i same
        rw [List.map_cons, List.nodup_cons, same]
        exact ⟨new, apart name⟩
      · exact apart other
  · refine iff_of_false (fun apart => ?_) fun conditions => once conditions.2.1
    obtain ⟨rfl, found⟩ := Classical.not_imp.mp once
    obtain ⟨t, found⟩ := Option.ne_none_iff_exists'.mp found
    obtain ⟨mid, twice, member⟩ := indexed.subscribers_subscribe_twice found sub
    have here := apart name
    rw [twice, List.map_cons, List.nodup_cons] at here
    exact here.1 (List.mem_map_of_mem member)

/-- The client of a round is in the list of its topic afterwards, and in no other list
than before as long as the round pushes once. -/
theorem View.Indexed.hasClient_subscribe_iff (indexed : v.Indexed)
    (once : wildcard = true → trieFind v.topics name = none) (sub : Subscriber) (other : CString) :
    (v.subscribe name wildcard sub).HasClient other sub.client ↔
      v.HasClient other sub.client ∨ other = name := by
  rw [View.HasClient, indexed.subscribers_subscribe once]
  split
  · rename_i same
    exact iff_of_true (List.mem_cons_self ..) (.inr same)
  · rename_i different
    exact (or_iff_left different).symm

variable {b : Broker T} {tuples : List SubscribeTuple} {st : SubscribeState T}

/-- The rounds of a packet keep one entry per client exactly if every tuple is new to the
client when it is met. -/
theorem noDuplicates_rounds_iff (indexed : b.view.Indexed) (apart : NoDuplicates b.view)
    (run : tuples.foldlM (subscribeTuple c) { broker := b } = .ok st) :
    (NoDuplicates st.broker.view ↔ tuples.Along (NewTo b.view c)) ∧
      (NoDuplicates st.broker.view → ∀ other, st.broker.view.HasClient other c ↔
        b.view.HasClient other c ∨ some other ∈ tuples.map tupleName) := by
  induction tuples using List.reverseRecOn generalizing st with
  | nil =>
      cases run
      refine ⟨iff_of_true apart List.along_nil, fun _ _ => ?_⟩
      exact (or_iff_left List.not_mem_nil).symm
  | append_singleton tuples tuple ih =>
      obtain ⟨mid, earlier, last⟩ := List.foldlM_snoc_eq_ok.mp run
      obtain ⟨exactly, clients⟩ := ih earlier
      have done := roundsDone_of_run indexed earlier
      have done' := roundsDone_of_run indexed run
      obtain ⟨name, appended, filter, _, _, named, _⟩ := subscribeTuple_eq_ok last
      obtain ⟨st', again, view, wildcard, _⟩ := subscribeTuple_run c mid named
      obtain rfl := Except.ok.inj (last.symm.trans again)
      have round := done.indexed.noDuplicates_subscribe_iff name (mid.wildcard || filter)
        ⟨tuple.qos, c⟩
      rw [← view, ← wildcard, done'.wildcard] at round
      have new : NoDuplicates mid.broker.view →
          (((tuples ++ [tuple]).any isFilter = true → trieFind mid.broker.view.topics name = none) ∧
            ¬ mid.broker.view.HasClient name c ↔ NewTo b.view c tuples tuple) := by
        intro inside
        rw [newTo_iff (tupleName_eq named)]
        by_cases flag : (tuples ++ [tuple]).any isFilter = true
        · rw [if_pos flag, done.find, and_comm (a := some name ∉ _)]
          refine ⟨fun both => both.1 flag, fun free => ⟨fun _ => free, ?_⟩⟩
          exact hasClient_of_free ((done.find name).mpr free)
        · rw [if_neg flag, clients inside name, not_or, and_comm (a := some name ∉ _)]
          exact and_iff_right fun flag' => absurd flag' flag
      refine ⟨?_, fun inside other => ?_⟩
      · rw [round, List.along_snoc, ← exactly]
        exact and_congr_right new
      · obtain ⟨inside', once, _⟩ := round.mp inside
        rw [← done'.wildcard, wildcard] at once
        have here := done.indexed.hasClient_subscribe_iff once ⟨tuple.qos, c⟩ other
        rw [← view] at here
        refine here.trans ?_
        rw [clients inside' other, List.map_append, List.mem_append, List.map_singleton,
          List.mem_singleton, tupleName_eq named, Option.some_inj, or_assoc]

end Rounds

/-! ## Events -/

section Events

variable {b b' : Broker T} {v v' : View T} {event : Event} {fuel : Nat}

theorem subscribers_congr (topics : v'.topics = v.topics) (topicHeap : v'.topicHeap = v.topicHeap)
    (name : CString) : v'.subscribers name = v.subscribers name := by
  rw [View.subscribers, View.subscribers, topics, topicHeap]

theorem noDuplicates_congr (same : ∀ name, v'.subscribers name = v.subscribers name) :
    NoDuplicates v' ↔ NoDuplicates v := by
  rw [NoDuplicates, NoDuplicates]
  exact forall_congr' fun name => by rw [same]

variable [KeyTable T]

/-- An event keeps one entry per client exactly under its condition. -/
theorem noDuplicates_effect_iff (indexed : b.view.Indexed) (apart : NoDuplicates b.view)
    (effect : Effect fuel b event v) : NoDuplicates v ↔ SubscribesOnce b event := by
  have same (topics : v.topics = b.view.topics) (topicHeap : v.topicHeap = b.view.topicHeap) :
      NoDuplicates v := (noDuplicates_congr (subscribers_congr topics topicHeap)).mpr apart
  cases effect with
  | accepted | connected => exact iff_of_true (same rfl rfl) trivial
  | @quiet cb closure input results live silent =>
      refine iff_of_true (same rfl rfl) ?_
      match input with
      | .request (.subscribe pkt) =>
          intro closure' c live' reads
          obtain rfl := Option.some.inj (live.symm.trans live')
          simp [reads] at silent
      | .dropped | .packetErr => trivial
      | .request (.connect _) | .request .disconnect => trivial
      | .request (.unsubscribe _) | .request (.publish _) => trivial
  | @left cb closure input results c client live reads leaves =>
      obtain ⟨_, _, first⟩ := b.view.dropClient_frame client.clientId
      obtain ⟨_, _, second⟩ :=
        (b.view.dropClient client.clientId).dropClosure_frame closure.closureId
      refine iff_of_true (same ?_ ?_) ?_
      · rw [second, first]
      · rw [second, first]
      · obtain rfl | rfl := leaves <;> trivial
  | @refused cb closure pkt block =>
      obtain ⟨_, _, first⟩ := b.view.dropClient_frame (cstr block)
      obtain ⟨_, _, second⟩ := (b.view.dropClient (cstr block)).dropClosure_frame closure.closureId
      refine iff_of_true (same ?_ ?_) trivial
      · rw [second, first]
      · rw [second, first]
  | @subscribed cb closure pkt results c _ b₁ st live reads isObj _ view rounds =>
      rw [← view] at indexed apart
      obtain ⟨exactly, _⟩ := noDuplicates_rounds_iff indexed apart rounds
      rw [exactly, view]
      constructor
      · intro new closure' c' live' _ isObj'
        obtain rfl := Option.some.inj (live.symm.trans live')
        obtain rfl := Option.some.inj (isObj.symm.trans isObj')
        exact new
      · intro new
        exact new closure c live reads isObj
  | published =>
      refine iff_of_true ?_ trivial
      exact (noDuplicates_congr (indexed.subscribers_createTopic _)).mpr apart

theorem indexed_step (indexed : b.view.Indexed) (step : BrokerStep b event b') :
    b'.view.Indexed := by
  obtain ⟨_, fuel, run⟩ := step
  exact ((dispatch_effect run).grows indexed).1

theorem indexed_of_run {tr : List (Broker T × Event)} (run : Run BrokerStep startServer tr b) :
    b.view.Indexed :=
  @Run.invariant _ _ BrokerStep startServer (fun b => b.view.Indexed) indexed_startServer
    (fun _ _ _ => indexed_step) tr b run

theorem subscribers_startServer (name : CString) :
    (startServer : Broker T).view.subscribers name = [] := by
  apply List.eq_nil_iff_forall_not_mem.mpr
  intro sub member
  exact holds_startServer name sub (View.holds_iff_mem.mpr member)

/-- A PUBLISH is sent to no client twice. -/
def SendsOnce (b : Broker T) : Prop :=
  ∀ fuel cb closure pkt results b', b.closureHeap.get? cb = some closure → closure.call = .onRead →
    dispatch fuel b (.ready cb (.request (.publish pkt)) results) = .ok b' →
      ∃ subs sends, b'.sent = b.sent ++ sends ∧
        List.Forall₂ (SendsTo b.clientHeap pkt) subs sends ∧ (subs.map Subscriber.client).Nodup

/-- Every list has one entry per client, so that a PUBLISH is sent to each once. -/
structure OncePerClient (b : Broker T) : Prop where
  lists : NoDuplicates b.view
  sends : SendsOnce b

theorem oncePerClient_iff : OncePerClient b ↔ NoDuplicates b.view := by
  refine ⟨OncePerClient.lists, fun apart => ⟨apart, ?_⟩⟩
  intro fuel cb closure pkt results b' live reads run
  obtain ⟨name, sends, _, sent, each⟩ := dispatch_publish_sends live reads run
  exact ⟨b.view.subscribers name, sends, sent, each, apart name⟩

/-- A run visits states with one entry per client only exactly if every SUBSCRIBE of it
is for topics that are new to its client. -/
theorem oncePerClient_throughout_iff {tr : List (Broker T × Event)}
    (run : Run BrokerStep startServer tr b) :
    ((∀ visit ∈ tr, OncePerClient visit.1) ∧ OncePerClient b) ↔
      ∀ visit ∈ tr, SubscribesOnce visit.1 visit.2 := by
  simp only [oncePerClient_iff]
  refine @Run.invariant_iff _ _ BrokerStep startServer (fun b => b.view.Indexed)
    (fun b => NoDuplicates b.view) SubscribesOnce indexed_startServer
    (fun _ _ _ indexed step => indexed_step indexed step) (fun name => ?_)
    (fun _ _ _ indexed apart step => noDuplicates_effect_iff indexed apart
      (dispatch_effect step.2.choose_spec)) tr b run
  rw [subscribers_startServer]
  exact List.nodup_nil

end Events

/-! ## A subscription made again -/

/-- A client connects and subscribes to `t` twice. -/
def subscribeTwice : List Event :=
  [.accept 5 (uuidOf 0), .ready 0 (.request (.connect (connectAs 97))) [], .ready 0 .dropped [],
    .ready 0 (.request (.subscribe (subscribeTo 116 0))) [], .ready 0 .dropped [],
    .ready 0 (.request (.subscribe (subscribeTo 116 1))) []]

theorem replay_subscribeTwice :
    (replay brokerNext (startServer : Broker HashTable) subscribeTwice).map (fun r =>
      r.2.view.subscribers (literal "t/")) = some [⟨1, 0⟩, ⟨0, 0⟩] := by
  decide +kernel

/-- Both entries stay. -/
theorem run_subscribeTwice : ∃ tr b, Run BrokerStep (startServer : Broker HashTable) tr b ∧
    tr.map Prod.snd = subscribeTwice ∧ ¬ OncePerClient b := by
  obtain ⟨tr, b, run, labels, lists⟩ :=
    Run.of_replay_map (fun _ _ _ => brokerNext_step) replay_subscribeTwice
  refine ⟨tr, b, run, labels, fun once => ?_⟩
  have apart := once.lists (literal "t/")
  change b.view.subscribers (literal "t/") = _ at lists
  rw [lists] at apart
  exact absurd apart (by decide)

theorem subscribeTwice_not_oncePerClient :
    ¬ ∀ tr b, Run BrokerStep (startServer : Broker HashTable) tr b → OncePerClient b := by
  intro always
  obtain ⟨tr, b, run, _, twice⟩ := run_subscribeTwice
  exact twice (always tr b run)

/-- The second SUBSCRIBE is not new to the client. -/
theorem subscribeTwice_not_subscribesOnce :
    ∃ tr b, Run BrokerStep (startServer : Broker HashTable) tr b ∧
      tr.map Prod.snd = subscribeTwice ∧ ¬ ∀ visit ∈ tr, SubscribesOnce visit.1 visit.2 := by
  obtain ⟨tr, b, run, labels, twice⟩ := run_subscribeTwice
  refine ⟨tr, b, run, labels, fun once => ?_⟩
  exact twice ((oncePerClient_throughout_iff run).mpr once).2

end SolBroker
