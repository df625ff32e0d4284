import Mathlib
import SolBroker.Net.Dispatch
import SolBroker.Broker.Duplicates
import SolBroker.Broker.Server

/-!
# The server from the bytes up

Up to here an event of a closure comes with a packet. In the program it comes with bytes:
`on_read` has `recv_packet` read them, decodes them and calls a handler by the type in the
first byte. Put together, the two levels meet in very few runs. No packet gets through, so a
connection is accepted and that is all there is to it: nothing is registered, sent or closed,
and the only reads that return are those that `recv_packet` has given up without a packet.
-/

namespace SolBroker

open Transition

variable {T : Type → Type}

/-- What happens to the server, with what the calls of `recv` meet and the block that is
allocated for the packet. -/
inductive ReceivedEvent
  | accept (fd : Int) (uuid : CString)
  | ready (cb : ClosureRef) (received : List RecvEvent) (block : List UInt8) (results : List Int)
  | tick (uptime : Int) (solUptime : CString) (results : List (List Int))
deriving DecidableEq, Repr

/-- The handlers that are declared and defined nowhere, and what they would do. -/
abbrev MissingHandlers (T : Type → Type) :=
  Handler → Broker T → ClosureRef → MqttPacket → Except Fault (Int × Broker T)

section Definitions

variable [KeyTable T] (missing : MissingHandlers T)

/-- The call through `handlers`. Each handler reads the union through its own member. -/
def callHandler (fuel : Nat) (b : Broker T) (cb : ClosureRef) (results : List Int) :
    Handler → MqttPacket → Except Fault (Int × Broker T)
  | .connectHandler, .connect pkt => connectHandler fuel b cb pkt
  | .disconnectHandler, _ => disconnectHandler b cb
  | .subscribeHandler, .subscribe pkt => subscribeHandler b cb pkt
  | .unsubscribeHandler, .unsubscribe pkt => unsubscribeHandler b cb pkt
  | .publishHandler, .publish pkt => publishHandler b cb pkt results
  | .connectHandler, _ => .error .wrongMember
  | .subscribeHandler, _ => .error .wrongMember
  | .unsubscribeHandler, _ => .error .wrongMember
  | .publishHandler, _ => .error .wrongMember
  | handler, packet => missing handler b cb packet

/-- `on_read`, from the bytes. -/
def onReadReceived (fuel : Nat) (b : Broker T) (cb : ClosureRef) (received : List RecvEvent)
    (block : List UInt8) (results : List Int) : Except Fault (Broker T) := do
  match ← onReadDispatch received block with
  | .exit => onRead fuel b cb results .dropped
  | .errdc => onRead fuel b cb results .packetErr
  | .handled handler packet =>
      let b := { b with info := { b.info with bytesRecv := b.info.bytesRecv + 1 } }
      let (rc, b) ← callHandler missing fuel b cb results handler packet
      rearm b cb rc

/-- The callback of an event. -/
def serveReceived (fuel : Nat) (b : Broker T) : ReceivedEvent → Except Fault (Broker T)
  | .accept fd uuid => onAccept fuel b fd uuid
  | .ready cb received block results => do
      let closure ← deref b.closureHeap cb
      let b := setClosure b cb { closure with armed := none }
      match closure.call with
      | .onRead => onReadReceived missing fuel b cb received block results
      | .onWrite => onWrite b cb results
  | .tick uptime solUptime results => publishStats b uptime solUptime results

/-- The event with the packet that has been received: none at all. -/
def ReceivedEvent.decoded : ReceivedEvent → ServerEvent
  | .accept fd uuid => .socket (.accept fd uuid)
  | .ready cb _ _ results => .socket (.ready cb .dropped results)
  | .tick uptime solUptime results => .tick uptime solUptime results

def ReceivedEvent.isAccept : ReceivedEvent → Bool
  | .accept .. => true
  | .ready .. => false
  | .tick .. => false

/-- An event of the server whose callback returns. -/
def ReceivedStep (b : Broker T) (event : ReceivedEvent) (b' : Broker T) : Prop :=
  event.decoded.Fresh b ∧ ∃ fuel, serveReceived missing fuel b event = .ok b'

/-- A step that can be evaluated, as long as no put rebuilds a table twice. -/
def receivedNext (b : Broker T) (event : ReceivedEvent) : Option (Broker T) :=
  if event.decoded.Fresh b then (serveReceived missing 2 b event).toOption else none

theorem receivedNext_step (b : Broker T) (event : ReceivedEvent) (b' : Broker T)
    (next : receivedNext missing b event = some b') : ReceivedStep missing b event b' := by
  rw [receivedNext] at next
  split at next
  · rename_i fresh
    exact ⟨fresh, 2, toOption_eq_some.mp next⟩
  · cases next

end Definitions

/-! ## Reads -/

/-- `recv_packet` reports that nothing is there, that the peer has gone, or that the packet is
too large. -/
def GivenUp (received : List RecvEvent) (block : List UInt8) : Prop :=
  ∃ r, recvPacket received block = .ok r ∧
    (r.nbytes = -errClientDC ∨ r.nbytes = -errMaxReqSize)

theorem onReadDispatch_exit_iff {received : List RecvEvent} {block : List UInt8} :
    onReadDispatch received block = .ok .exit ↔ GivenUp received block := by
  constructor
  · intro run
    obtain ⟨r, got, rest⟩ := bind_eq_ok.mp run
    split at rest
    · rename_i given
      exact ⟨r, got, given⟩
    · split at rest
      · cases rest
      · obtain ⟨_, _, rest⟩ := bind_eq_ok.mp rest
        obtain ⟨_, _, done⟩ := bind_eq_ok.mp rest
        cases done
  · rintro ⟨r, got, given⟩
    refine bind_eq_ok.mpr ⟨r, got, ?_⟩
    rw [if_pos given]
    rfl

/-- No packet is ever handed to a handler. -/
theorem onReadDispatch_not_handled {received : List RecvEvent} {block : List UInt8}
    {handler : Handler} {packet : MqttPacket} :
    onReadDispatch received block ≠ .ok (.handled handler packet) := by
  intro run
  obtain ⟨_, outcome, run', other⟩ | ⟨_, e, fault⟩ := onReadDispatch_spec received block
  · exact other handler packet (Except.ok.inj (run'.symm.trans run))
  · cases fault.symm.trans run

/-! ## Idle connections -/

/-- A broker that has accepted connections and done nothing else. -/
structure Idle [KeyTable T] (b : Broker T) (accepted : Nat) : Prop where
  same : b = { (startServer : Broker T) with
    closures := b.closures
    closureHeap := b.closureHeap
    info := { (startServer : Broker T).info with nclients := accepted, nconnections := accepted } }
  waiting : ∀ cb closure, b.closureHeap.get? cb = some closure →
    closure.obj = none ∧ closure.payload = none ∧ closure.call = .onRead

section Idle

variable [KeyTable T] {missing : MissingHandlers T} {b b' : Broker T} {accepted fuel : Nat}

theorem idle_startServer : Idle (startServer : Broker T) 0 := by
  obtain ⟨topics, topicHeap, same⟩ := startServer_eq (T := T)
  refine ⟨?_, fun cb closure live => ?_⟩
  · rw [same]
    rfl
  · rw [same] at live
    cases live

theorem Idle.accept (idle : Idle b accepted) {fd : Int} {uuid : CString}
    (run : onAccept fuel b fd uuid = .ok b') : Idle b' (accepted + 1) := by
  obtain ⟨⟨status, closures⟩, _, done⟩ := bind_eq_ok.mp run
  cases done
  refine ⟨?_, fun cb closure live => ?_⟩
  · rw [idle.same, Nat.cast_succ]
  · change (b.closureHeap.alloc _).get? cb = some closure at live
    rw [Heap.get?_alloc] at live
    split at live
    · cases live
      exact ⟨rfl, rfl, rfl⟩
    · exact idle.waiting cb closure live

/-- Nobody has subscribed to anything. -/
theorem Idle.subscribers (idle : Idle b accepted) (name : CString) :
    b.view.subscribers name = [] := by
  have same := congrArg (fun b : Broker T => b.view.subscribers name) idle.same
  have kept (b : Broker T) (closures : T ClosureRef) (closureHeap : Heap Closure)
      (info : SolInfo) : ({ b with closures, closureHeap, info } : Broker T).view.subscribers name =
        b.view.subscribers name := rfl
  exact same.trans ((kept _ _ _ _).trans (subscribers_startServer name))

omit [KeyTable T] in
/-- A message to nobody. -/
theorem publishMessage_nobody {pktId topiclen payloadlen : UInt16} {topic : CString}
    {payload : List UInt8} {results : List Int} (nobody : b.view.subscribers topic = []) :
    publishMessage b pktId topiclen topic payloadlen payload results = .ok b := by
  have topics : b.view.topics = b.topics := rfl
  rw [View.subscribers, topics] at nobody
  rw [publishMessage, solTopicGet]
  cases found : trieFind b.topics topic with
  | none => rfl
  | some t =>
      rw [found] at nobody
      have nodes : (b.topicHeap[t]?.elim [] fun topic => topic.subscribers.nodes) = [] := nobody
      show publishMessageLoop _ (b.topicHeap[t]?.elim [] fun topic => topic.subscribers.nodes) _
        b = _
      rw [nodes]
      rfl

omit [KeyTable T] in
theorem publishStats_nobody (nobody : ∀ name, b.view.subscribers name = []) (uptime : Int)
    (solUptime : CString) (results : List (List Int)) :
    publishStats b uptime solUptime results = .ok b := by
  rw [publishStats]
  generalize (statsMessages b.info uptime solUptime).zip _ = messages
  induction messages with
  | nil => rfl
  | cons message messages ih =>
      rw [List.foldlM_cons]
      obtain ⟨⟨topic, text⟩, results⟩ := message
      exact bind_eq_ok.mpr ⟨b, publishMessage_nobody (nobody topic), ih⟩

/-- A read returns if it has been given up, and takes the interest of the descriptor away. -/
theorem Idle.ready_eq_ok_iff (idle : Idle b accepted) {cb : ClosureRef} {closure : Closure}
    (live : b.closureHeap.get? cb = some closure) {received : List RecvEvent}
    {block : List UInt8} {results : List Int} :
    serveReceived missing fuel b (.ready cb received block results) = .ok b' ↔
      GivenUp received block ∧ b' = setClosure b cb { closure with armed := none } := by
  obtain ⟨noObj, _, reads⟩ := idle.waiting cb closure live
  have found : deref b.closureHeap cb = .ok closure := deref_eq_ok.mpr live
  have unfolded : serveReceived missing fuel b (.ready cb received block results) =
      onReadReceived missing fuel (setClosure b cb { closure with armed := none }) cb received block
        results := by
    show (deref b.closureHeap cb >>= _) = _
    rw [found]
    show (match closure.call with | .onRead => _ | .onWrite => _) = _
    rw [reads]
  rw [unfolded, onReadReceived, ← onReadDispatch_exit_iff]
  cases dispatched : onReadDispatch received block with
  | error e => exact iff_of_false (fun run => by cases run) fun both => by cases both.1
  | ok outcome =>
      cases outcome with
      | exit =>
          show Except.ok _ = Except.ok b' ↔ _
          rw [Except.ok.injEq]
          exact ⟨fun same => ⟨rfl, same.symm⟩, fun both => both.2.symm⟩
      | handled => exact absurd dispatched onReadDispatch_not_handled
      | errdc =>
          refine iff_of_false (fun run => ?_) fun both => by cases both.1
          change onRead fuel _ cb results .packetErr = _ at run
          obtain ⟨closure', live', rest⟩ := bind_eq_ok.mp run
          cases (get?_setClosure live { closure with armed := none }).symm.trans
            (deref_eq_ok.mp live')
          obtain ⟨_, owner, _⟩ := bind_eq_ok.mp rest
          change derefObj _ closure.obj = _ at owner
          rw [noObj] at owner
          cases owner

/-- The closure stays as it was but for its interest. -/
theorem Idle.disarm (idle : Idle b accepted) {cb : ClosureRef} {closure : Closure}
    (live : b.closureHeap.get? cb = some closure) :
    Idle (setClosure b cb { closure with armed := none }) accepted := by
  refine ⟨?_, fun cb' closure' live' => ?_⟩
  · rw [setClosure, idle.same]
  · change (b.closureHeap.write cb _).get? cb' = some closure' at live'
    rw [Heap.get?_write live] at live'
    split at live'
    · cases live'
      exact idle.waiting cb closure live
    · exact idle.waiting cb' closure' live'

end Idle

/-! ## Runs -/

section Runs

variable [KeyTable T] {missing : MissingHandlers T} {b : Broker T}
  {tr : List (Broker T × ReceivedEvent)}

/-- The connections that have been accepted. -/
def acceptedIn (tr : List (Broker T × ReceivedEvent)) : Nat :=
  tr.countP fun visit => visit.2.isAccept

theorem idle_of_run (run : Run (ReceivedStep missing) startServer tr b) :
    Idle b (acceptedIn tr) ∧
      Run ServerStep startServer (tr.map fun visit => (visit.1, visit.2.decoded)) b := by
  induction run with
  | nil => exact ⟨idle_startServer, .nil⟩
  | @snoc tr b event b' _ step ih =>
      obtain ⟨idle, decoded⟩ := ih
      obtain ⟨fresh, fuel, run⟩ := step
      have counted : acceptedIn (tr ++ [(b, event)]) =
          acceptedIn tr + if event.isAccept then 1 else 0 := by
        rw [acceptedIn, List.countP_append, List.countP_singleton]
        rfl
      rw [counted, List.map_append, List.map_singleton]
      cases event with
      | accept fd uuid => exact ⟨idle.accept run, .snoc decoded ⟨fresh, fuel, run⟩⟩
      | ready cb received block results =>
          obtain ⟨closure, live, _⟩ := bind_eq_ok.mp run
          have found := live
          have live := deref_eq_ok.mp live
          obtain ⟨_, rfl⟩ := (idle.ready_eq_ok_iff live).mp run
          refine ⟨idle.disarm live, .snoc decoded ⟨fresh, 0, ?_⟩⟩
          show (deref b.closureHeap cb >>= _) = _
          rw [found]
          show (match closure.call with | .onRead => _ | .onWrite => _) = _
          rw [(idle.waiting cb closure live).2.2]
          rfl
      | tick uptime solUptime results =>
          have same : b = b' :=
            Except.ok.inj ((publishStats_nobody idle.subscribers _ _ _).symm.trans run)
          subst same
          exact ⟨idle, .snoc decoded ⟨fresh, fuel, run⟩⟩

/-- In every run of the server from the bytes up, nothing has happened but that connections
were accepted: apart from the table of closures and the number of connections the broker is as
it was started. It has had the run of the decoded server in which every read came back empty.
A read that comes next returns exactly if `recv_packet` has given it up; every other one, of a
malformed, a cut or a good packet, faults. -/
theorem nothing_received (run : Run (ReceivedStep missing) startServer tr b) :
    b = { (startServer : Broker T) with
        closures := b.closures
        closureHeap := b.closureHeap
        info := { (startServer : Broker T).info with
          nclients := acceptedIn tr
          nconnections := acceptedIn tr } } ∧
      Run ServerStep startServer (tr.map fun visit => (visit.1, visit.2.decoded)) b ∧
      ∀ cb closure, b.closureHeap.get? cb = some closure →
        closure.obj = none ∧ closure.payload = none ∧ closure.call = .onRead ∧
          ∀ received block results, GivenUp received block ↔
            ∃ fuel b', serveReceived missing fuel b (.ready cb received block results) =
              .ok b' := by
  obtain ⟨idle, decoded⟩ := idle_of_run run
  refine ⟨idle.same, decoded, fun cb closure live => ?_⟩
  obtain ⟨obj, payload, reads⟩ := idle.waiting cb closure live
  refine ⟨obj, payload, reads, fun received block results => ⟨fun given => ?_, ?_⟩⟩
  · exact ⟨0, _, (idle.ready_eq_ok_iff live).mpr ⟨given, rfl⟩⟩
  · rintro ⟨fuel, b', returns⟩
    exact ((idle.ready_eq_ok_iff live).mp returns).1

/-- A connection is accepted, and then there is nothing to be read. -/
def acceptAndWait : List ReceivedEvent :=
  [.accept 5 (uuidOf 0), .ready 0 [.wouldBlock] (List.replicate 64 0) []]

theorem replay_acceptAndWait :
    (replay (receivedNext fun _ _ _ _ => .error .nullCall) (startServer : Broker HashTable)
      acceptAndWait).map (fun r => (r.2.closureHeap.get? 0).isSome) = some true := by
  decide +kernel

/-- The CONNECT that comes next is the end of the server. -/
theorem acceptAndWait_connect : ∃ tr b,
    Run (ReceivedStep fun _ _ _ _ => .error .nullCall) (startServer : Broker HashTable) tr b ∧
      tr.map Prod.snd = acceptAndWait ∧ ∀ fuel b',
        serveReceived (fun _ _ _ _ => .error .nullCall) fuel b
          (.ready 0 [.data 0x10 connectFromA.tail] (List.replicate 64 0) []) ≠ .ok b' := by
  obtain ⟨tr, b, run, labels, there⟩ := Run.of_replay_map (receivedNext_step _) replay_acceptAndWait
  refine ⟨tr, b, run, labels, fun fuel b' returns => ?_⟩
  obtain ⟨closure, live⟩ := Option.isSome_iff_exists.mp there
  obtain ⟨_, _, _, returns_iff⟩ := (nothing_received run).2.2 0 closure live
  have exit := onReadDispatch_exit_iff.mpr ((returns_iff _ _ _).mpr ⟨fuel, b', returns⟩)
  revert exit
  decide

end Runs

end SolBroker
