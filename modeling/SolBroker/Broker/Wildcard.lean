import Mathlib
import SolBroker.Broker.Filters
import SolBroker.Broker.Tuples

/-!
# How often a wildcard filter subscribes

The visit of the topics below the prefix of a filter starts at the topic of the prefix and puts
the client into its list. When it is over, `subscribe_handler` puts the client into that list once
more, as it does for a plain tuple. So the topic of the prefix has the client twice, and one
entry for each topic is what no filter with such a topic comes to.
-/

namespace SolBroker

open Transition

variable {T : Type → Type}

/-- A SUBSCRIBE with this tuple alone is handled, and leaves one entry more of its client, with the
QoS of the tuple, in the list of every topic there is whose name starts with `root`, and all other
lists as they were. -/
def AddsOneBelow (b : Broker T) (cb : ClosureRef) (pkt : MqttSubscribe) (tuple : SubscribeTuple)
    (root : CString) : Prop :=
  ∃ closure c rc b', b.closureHeap.get? cb = some closure ∧ closure.obj = some c ∧
    subscribeHandler b cb (pkt.only tuple) = .ok (rc, b') ∧
    ∀ name, trieFind b.topics name ≠ none →
      if root.bytes <+: name.bytes then
        (b'.view.subscribers name).Perm (⟨tuple.qos, c⟩ :: b.view.subscribers name)
      else b'.view.subscribers name = b.view.subscribers name

section Lengths

variable {v : View T} {name : CString} {t : TopicRef}

theorem View.Indexed.length_subscribers (indexed : v.Indexed)
    (found : trieFind v.topics name = some t) :
    (v.subscribers name).length = listLen v.topicHeap t := by
  obtain ⟨topic, held, _⟩ := indexed.find_iff.mp found
  rw [View.subscribers_of_find found held, listLen, held]
  exact (indexed.counted t topic held).symm

/-- A round that finds its topic under the flag leaves at least two entries more in its list. -/
theorem View.Indexed.length_subscribe_twice (indexed : v.Indexed)
    (found : trieFind v.topics name = some t) (sub : Subscriber) :
    (v.subscribers name).length + 2 ≤ ((v.subscribe name true sub).subscribers name).length := by
  obtain ⟨topic, held, _⟩ := indexed.find_iff.mp found
  have inside := (List.getElem?_eq_some_iff.mp held).1
  have found' : trieFind (v.subscribe name true sub).topics name = some t := by
    rw [View.subscribe, found]
    exact found
  have longer := (longer_mapped found inside sub).both t sub
  have once := longer.lt
  rw [listLen_push inside, if_pos rfl] at once
  have whole : (v.subscribe name true sub).topicHeap =
      (triePrefixMapTuple v.topics name (recursiveSubscription sub) v.topicHeap).modify t
        (.push sub) := by
    rw [View.subscribe, found]
    rfl
  rw [indexed.length_subscribers found, indexed.subscribe.length_subscribers found', whole]
  exact once

end Lengths

section Filters

variable [KeyTable T] {b : Broker T} {tr : List (Broker T × Event)} {tuple : SubscribeTuple}
  {P : CString}

/-- No filter `P/#` whose topic `P/` exists adds one entry to every topic below it. -/
theorem not_addsOneBelow (run : Run BrokerStep startServer tr b)
    (is : IsTopic tuple.topicLen tuple.topic)
    (filter : tuple.topic = P.bytes ++ [slashChar, hashChar])
    (found : trieFind b.topics (appendString P slash 1) ≠ none) (cb : ClosureRef)
    (pkt : MqttSubscribe) : ¬ AddsOneBelow b cb pkt tuple (appendString P slash 1) := by
  rintro ⟨closure, c, rc, b', live, obj, handled, adds⟩
  have indexed := indexed_of_run run
  -- the name that is looked up: `P/`, unless there are hash characters in `P`
  obtain ⟨looked, named⟩ : ∃ looked, tupleTopic tuple = .ok (looked, false, true) :=
    ⟨_, is.tupleTopic_hash filter⟩
  obtain ⟨_, _, client, _, _, live', obj', held, _⟩ := subscribeHandler_eq_ok handled
  obtain rfl := Option.some.inj (live.symm.trans live')
  obtain rfl := Option.some.inj (obj.symm.trans obj')
  obtain ⟨b₁, single, view⟩ := subscribeHandler_only live obj held named pkt
  obtain rfl : b' = b₁ := by
    rw [handled] at single
    exact Except.ok.inj single
  rw [view] at adds
  cases finds : trieFind b.topics looked with
  | none =>
      -- nothing is visited, and the topic of the prefix has no entry more
      have other : appendString P slash 1 ≠ looked := fun same => found (same ▸ finds)
      have once : true = true → trieFind b.view.topics looked = none := fun _ => finds
      have alone := indexed.subscribers_subscribe once ⟨tuple.qos, c⟩
        (appendString P slash 1)
      rw [if_neg other] at alone
      have added := adds _ found
      rw [if_pos (List.prefix_refl _), alone] at added
      exact absurd added.length_eq (by simp)
  | some t =>
      have twice := indexed.length_subscribe_twice finds ⟨tuple.qos, c⟩
      have added := adds looked (by rw [finds]; exact Option.some_ne_none t)
      split at added
      · rw [added.length_eq, List.length_cons] at twice
        omega
      · rw [added] at twice
        omega

end Filters

def solName : CString := literal "$SOL"

/-- The filter `$SOL/#`. -/
def belowSol : SubscribeTuple := ⟨6, solName.bytes ++ [slashChar, hashChar], 0⟩

def subscribeBelowSol : MqttSubscribe where
  header := ⟨0x82⟩
  pktId := 1
  tuplesLen := 1
  tuples := [belowSol]

theorem belowSol_isTopic : IsTopic belowSol.topicLen belowSol.topic :=
  ⟨by decide +kernel, by decide +kernel, by decide +kernel⟩

/-- Who the client is, and the list of `$SOL/` before and after its SUBSCRIBE. -/
theorem replay_subscribeBelowSol :
    ((replay brokerNext (startServer : Broker HashTable) connectOnly).map fun r =>
      ((r.2.closureHeap.get? 0).bind Closure.obj,
        trieFind r.2.topics (appendString solName slash 1),
        r.2.view.subscribers (appendString solName slash 1),
        (subscribeHandler r.2 0 (subscribeBelowSol.only belowSol)).toOption.map fun r =>
          r.2.view.subscribers (appendString solName slash 1))) =
      some (some 0, some 0, [], some [⟨0, 0⟩, ⟨0, 0⟩]) := by
  decide +kernel

theorem connectOnly_not_addsOneBelow :
    ∃ tr b, Run BrokerStep (startServer : Broker HashTable) tr b ∧ tr.map Prod.snd = connectOnly ∧
      ¬ AddsOneBelow b 0 subscribeBelowSol belowSol (appendString solName slash 1) := by
  obtain ⟨tr, b, run, labels, facts⟩ :=
    Run.of_replay_map (fun _ _ _ => brokerNext_step) replay_subscribeBelowSol
  simp only [Prod.mk.injEq] at facts
  obtain ⟨_, found, _⟩ := facts
  refine ⟨tr, b, run, labels, not_addsOneBelow run belowSol_isTopic rfl ?_ 0 subscribeBelowSol⟩
  rw [found]
  exact Option.some_ne_none 0

/-- The list of `$SOL/` has the client twice then. -/
theorem subscribeBelowSol_twice :
    ¬ ∀ tr b, Run BrokerStep (startServer : Broker HashTable) tr b → ∀ cb closure c,
      b.closureHeap.get? cb = some closure → closure.obj = some c →
      ∀ (pkt : MqttSubscribe) tuple (P : CString), IsTopic tuple.topicLen tuple.topic →
      tuple.topic = P.bytes ++ [slashChar, hashChar] →
      trieFind b.topics (appendString P slash 1) ≠ none →
        AddsOneBelow b cb pkt tuple (appendString P slash 1) := by
  intro always
  obtain ⟨tr, b, run, _, facts⟩ :=
    Run.of_replay_map (fun _ _ _ => brokerNext_step) replay_subscribeBelowSol
  simp only [Prod.mk.injEq] at facts
  obtain ⟨owner, found, before, after⟩ := facts
  obtain ⟨closure, live, obj⟩ := Option.bind_eq_some_iff.mp owner
  have exists_ : trieFind b.topics (appendString solName slash 1) ≠ none := by
    rw [found]
    exact Option.some_ne_none 0
  obtain ⟨closure', c, rc, b', live', obj', handled, adds⟩ := always tr b run 0 closure 0 live obj
    subscribeBelowSol belowSol solName belowSol_isTopic rfl exists_
  rw [handled] at after
  have added := adds _ exists_
  rw [if_pos (List.prefix_refl _), before] at added
  have twice : b'.view.subscribers (appendString solName slash 1) = [⟨0, 0⟩, ⟨0, 0⟩] :=
    Option.some.inj after
  rw [twice] at added
  exact absurd added.length_eq (by simp)

end SolBroker
