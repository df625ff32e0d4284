import Mathlib
import SolBroker.Broker.Duplicates

/-!
# What an UNSUBSCRIBE removes

`unsubscribe_handler` looks at none of the filters: it acknowledges the packet and
leaves every list as it is. A client is therefore out of the topics it names, then and
in all of the run that follows, exactly if it was in none of them before.
-/

namespace SolBroker

open Transition

variable {T : Type → Type}

/-- A topic named by an UNSUBSCRIBE, in the form SUBSCRIBE gives it. -/
def MqttUnsubscribe.Names (pkt : MqttUnsubscribe) (name : CString) : Prop :=
  ∃ tuple ∈ pkt.tuples, tupleName ⟨tuple.topicLen, tuple.topic, 0⟩ = some name

section Removal

variable [KeyTable T]

/-- From `b'` on, PUBLISH packets to the topics are not sent to the client until it
subscribes again. -/
def KeptOut (b' : Broker T) (c : ClientRef) (names : CString → Prop) : Prop :=
  ∀ tr b, Run BrokerStep b' tr b → (∀ visit ∈ tr, ¬ Subscribes visit.1 visit.2 c) →
    ∀ fuel cb closure pkt results b₁ name, b.closureHeap.get? cb = some closure →
      closure.call = .onRead → publishTopic pkt = .ok name → names name →
        dispatch fuel b (.ready cb (.request (.publish pkt)) results) = .ok b₁ →
          ∃ subs sends, b₁.sent = b.sent ++ sends ∧
            List.Forall₂ (SendsTo b.clientHeap pkt) subs sends ∧ c ∉ subs.map Subscriber.client

/-- What is asked of an UNSUBSCRIBE of the client `c`, handled in `b`. -/
structure Unsubscribed (b b' : Broker T) (c : ClientRef) (names : CString → Prop) : Prop where
  gone : ∀ name, names name → ¬ b'.view.HasClient name c
  others : ∀ name, (b'.view.subscribers name).filter (·.client ≠ c) =
    (b.view.subscribers name).filter (·.client ≠ c)
  elsewhere : ∀ name, ¬ names name → b'.view.subscribers name = b.view.subscribers name
  later : KeptOut b' c names

variable {b b' : Broker T} {v v' : View T} {cb : ClosureRef} {closure : Closure} {c : ClientRef}
  {client : SolClient} {pkt : MqttUnsubscribe} {event : Event} {fuel : Nat} {results : List Int}

/-- A client gets into a list by a SUBSCRIBE of its own only. -/
theorem hasClient_of_step {name : CString} (indexed : b.view.Indexed)
    (other : ¬ Subscribes b event c) (step : BrokerStep b event b')
    (has : b'.view.HasClient name c) : b.view.HasClient name c := by
  obtain ⟨_, fuel, run⟩ := step
  obtain ⟨qos, holds⟩ := View.hasClient_iff.mp has
  obtain subscribes | old := holds.of_grown indexed (dispatch_effect run).grows
  · exact absurd subscribes other
  · exact View.hasClient_iff.mpr ⟨qos, old⟩

/-- A client that is in none of the lists stays out of them. -/
theorem keptOut_of_gone {names : CString → Prop} (indexed : b.view.Indexed)
    (gone : ∀ name, names name → ¬ b.view.HasClient name c) : KeptOut b c names := by
  intro tr b₁ run quiet fuel cb closure pkt results b₂ name live reads named inside handled
  let Out (b : Broker T) : Prop := b.view.Indexed ∧ ∀ name, names name → ¬ b.view.HasClient name c
  have stays (b : Broker T) (event : Event) (b' : Broker T) (out : Out b)
      (other : ¬ Subscribes b event c) (step : BrokerStep b event b') : Out b' := by
    refine ⟨indexed_step out.1 step, fun name inside has => ?_⟩
    exact out.2 name inside (hasClient_of_step out.1 other step has)
  obtain ⟨_, _, gone⟩ := Run.invariant_of_good (show Out b from ⟨indexed, gone⟩) stays run quiet
  obtain ⟨name', sends, named', sent, each⟩ := dispatch_publish_sends live reads handled
  obtain rfl := Except.ok.inj (named.symm.trans named')
  exact ⟨_, sends, sent, each, gone name inside⟩

/-- An UNSUBSCRIBE of a connected client is handled and changes no list. -/
theorem dispatch_unsubscribe (live : b.closureHeap.get? cb = some closure)
    (reads : closure.call = .onRead) (obj : closure.obj = some c)
    (held : b.clientHeap.get? c = some client) (fuel : Nat) (pkt : MqttUnsubscribe)
    (results : List Int) :
    ∃ b', dispatch fuel b (.ready cb (.request (.unsubscribe pkt)) results) = .ok b' ∧
      b'.view = b.view := by
  let b₀ := readyToHandle b cb closure
  have live₀ : b₀.closureHeap.get? cb = some { closure with armed := none } :=
    get?_setClosure live _
  let packed : Packed := ⟨mqttAckLen, unsubackByte :: 2 :: u16Bytes pkt.pktId⟩
  have handled : unsubscribeHandler b₀ cb pkt =
      .ok (reply b₀ cb { closure with armed := none } packed) :=
    bind_eq_ok.mpr ⟨_, deref_eq_ok.mpr live₀, bind_eq_ok.mpr ⟨(c, client),
      derefObj_eq_ok.mpr ⟨obj, held⟩, bind_eq_ok.mpr ⟨_, packMqttAck_eq _, rfl⟩⟩⟩
  have live₁ := get?_setClosure live₀ { closure with armed := none, payload := some packed }
  obtain ⟨b', run⟩ :
      ∃ b', dispatch fuel b (.ready cb (.request (.unsubscribe pkt)) results) = .ok b' := by
    rw [dispatch_reading live reads]
    exact ⟨_, bind_eq_ok.mpr ⟨_, handled, bind_eq_ok.mpr ⟨_, deref_eq_ok.mpr live₁, rfl⟩⟩⟩
  refine ⟨b', run, ?_⟩
  have effect := dispatch_effect run
  generalize b'.view = v at effect ⊢
  cases effect with
  | quiet => rfl
  | left _ _ leaves => simp at leaves

/-- In any reachable state, the UNSUBSCRIBE of a connected client does what is asked of
it exactly if the client is in none of the topics it names. -/
theorem unsubscribed_iff {tr : List (Broker T × Event)} (run : Run BrokerStep startServer tr b)
    (live : b.closureHeap.get? cb = some closure) (reads : closure.call = .onRead)
    (obj : closure.obj = some c) (held : b.clientHeap.get? c = some client)
    (pkt : MqttUnsubscribe) :
    (∃ b', dispatch fuel b (.ready cb (.request (.unsubscribe pkt)) results) = .ok b' ∧
        Unsubscribed b b' c pkt.Names) ↔
      ∀ name, pkt.Names name → ¬ b.view.HasClient name c := by
  have indexed := indexed_of_run run
  obtain ⟨b', handled, same⟩ := dispatch_unsubscribe live reads obj held fuel pkt results
  constructor
  · rintro ⟨b₁, handled', removed⟩
    obtain rfl := Except.ok.inj (handled.symm.trans handled')
    rw [← same]
    exact removed.gone
  · intro gone
    rw [← same] at gone
    refine ⟨b', handled, gone, fun name => ?_, fun name _ => ?_, ?_⟩
    · rw [same]
    · rw [same]
    · exact keptOut_of_gone (same ▸ indexed) gone

end Removal

/-! ## Unsubscribing from one topic -/

/-- An UNSUBSCRIBE from one topic of one letter. -/
def unsubscribeFrom (c : UInt8) : MqttUnsubscribe where
  header := ⟨0xA2⟩
  pktId := 2
  tuplesLen := 1
  tuples := [⟨1, [c]⟩]

theorem names_unsubscribeFrom {name : CString} :
    (unsubscribeFrom 116).Names name ↔ name = literal "t/" := by
  have named : tupleName ⟨1, [116], 0⟩ = some (literal "t/") := by decide
  simp [MqttUnsubscribe.Names, unsubscribeFrom, named, eq_comm]

/-- A client connects, and may then subscribe to `t`. -/
def connectOnly : List Event :=
  [.accept 5 (uuidOf 0), .ready 0 (.request (.connect (connectAs 97))) [], .ready 0 .dropped []]

def connectAndSubscribe : List Event :=
  connectOnly ++ [.ready 0 (.request (.subscribe (subscribeTo 116 0))) [], .ready 0 .dropped []]

/-- The client, its closure and the list of `t` where a run ends. -/
def tableOfT (b : Broker HashTable) :
    Option ((Callback × Option ClientRef) × SolClient × List Subscriber) := do
  let closure ← b.closureHeap.get? 0
  let client ← b.clientHeap.get? 0
  return ((closure.call, closure.obj), client, b.view.subscribers (literal "t/"))

theorem replay_connectOnly :
    ((replay brokerNext (startServer : Broker HashTable) connectOnly).bind fun r => tableOfT r.2) =
      some ((.onRead, some 0), newClient (cstr [97]) 5 true, []) := by
  decide +kernel

theorem replay_connectAndSubscribe :
    ((replay brokerNext (startServer : Broker HashTable) connectAndSubscribe).bind
      fun r => tableOfT r.2) =
      some ((.onRead, some 0), newClient (cstr [97]) 5 true, [⟨0, 0⟩]) := by
  decide +kernel

/-- What such a replay says of the run. -/
theorem run_of_tableOfT {events : List Event} {client : SolClient} {subs : List Subscriber}
    (replayed : ((replay brokerNext (startServer : Broker HashTable) events).bind
      fun r => tableOfT r.2) = some ((.onRead, some 0), client, subs)) :
    ∃ tr b closure, Run BrokerStep (startServer : Broker HashTable) tr b ∧
      tr.map Prod.snd = events ∧
      b.closureHeap.get? 0 = some closure ∧ closure.call = .onRead ∧ closure.obj = some 0 ∧
      b.clientHeap.get? 0 = some client ∧ b.view.subscribers (literal "t/") = subs := by
  obtain ⟨tr, b, run, labels, table⟩ := Run.of_replay_bind (fun _ _ _ => brokerNext_step) replayed
  obtain ⟨closure, live, table⟩ := Option.bind_eq_some_iff.mp table
  obtain ⟨client, held, table⟩ := Option.bind_eq_some_iff.mp table
  simp only [Option.pure_def, Option.some.injEq, Prod.mk.injEq] at table
  obtain ⟨⟨reads, obj⟩, rfl, subs⟩ := table
  exact ⟨tr, b, closure, run, labels, live, reads, obj, held, subs⟩

/-- The subscription is still there after it has been given up. -/
theorem unsubscribe_keeps_subscriber :
    ¬ ∀ tr b, Run BrokerStep (startServer : Broker HashTable) tr b → ∀ cb closure c client,
      b.closureHeap.get? cb = some closure → closure.call = .onRead → closure.obj = some c →
      b.clientHeap.get? c = some client → ∀ pkt, ∃ b',
        dispatch 0 b (.ready cb (.request (.unsubscribe pkt)) []) = .ok b' ∧
          Unsubscribed b b' c pkt.Names := by
  intro always
  obtain ⟨tr, b, closure, run, _, live, reads, obj, held, subs⟩ :=
    run_of_tableOfT replay_connectAndSubscribe
  obtain ⟨b', handled, removed⟩ :=
    always tr b run 0 closure 0 _ live reads obj held (unsubscribeFrom 116)
  obtain ⟨b₁, handled₁, same⟩ := dispatch_unsubscribe live reads obj held 0 (unsubscribeFrom 116) []
  obtain rfl := Except.ok.inj (handled.symm.trans handled₁)
  apply removed.gone (literal "t/") (names_unsubscribeFrom.mpr rfl)
  rw [View.HasClient, same, subs]
  exact List.mem_singleton_self _

/-- A client that never subscribed is not in the list afterwards either. -/
theorem connectOnly_unsubscribed :
    ∃ tr b b', Run BrokerStep (startServer : Broker HashTable) tr b ∧
      tr.map Prod.snd = connectOnly ∧
      dispatch 0 b (.ready 0 (.request (.unsubscribe (unsubscribeFrom 116))) []) = .ok b' ∧
      Unsubscribed b b' 0 (unsubscribeFrom 116).Names := by
  obtain ⟨tr, b, closure, run, labels, live, reads, obj, held, subs⟩ :=
    run_of_tableOfT replay_connectOnly
  have out (name : CString) (named : (unsubscribeFrom 116).Names name) :
      ¬ b.view.HasClient name 0 := by
    rw [names_unsubscribeFrom.mp named, View.HasClient, subs]
    exact List.not_mem_nil
  obtain ⟨b', handled, removed⟩ :=
    (unsubscribed_iff run live reads obj held (unsubscribeFrom 116)).mpr out
  exact ⟨tr, b, b', run, labels, handled, removed⟩

end SolBroker
