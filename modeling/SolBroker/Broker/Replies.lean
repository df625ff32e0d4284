import Mathlib
import SolBroker.Broker.Attachment
import SolBroker.Broker.Closures

/-!
# Replies waiting to be written

A handler leaves its reply with the closure and `on_read` then gives the closure to
`on_write`, which releases the reply and gives it back. So a closure has a reply exactly
while its callback is `on_write`: this one finds a reply whenever it is called, and the
handlers, which run for `on_read` only, find none that they could overwrite. Nothing of it
depends on how the tables behave or on the ids of connections.
-/

namespace SolBroker

open Transition

variable {T : Type → Type}

/-! ## Replies -/

/-- The bytes a packet is answered with. -/
def IsReply (written : List UInt8) : Request → Prop
  | .connect _ => written = [connackByte, 2, 0, 0]
  | .disconnect => False
  | .subscribe pkt => written = subackBytes pkt.pktId
      ((pkt.tuples.take pkt.tuplesLen.toNat).map SubscribeTuple.qos)
  | .unsubscribe pkt => written = unsubackByte :: 2 :: u16Bytes pkt.pktId
  | .publish pkt =>
      (pkt.header.qos = atLeastOnce ∧ written = pubackByte :: 2 :: u16Bytes pkt.pktId) ∨
        (pkt.header.qos = exactlyOnce ∧ written = pubrecByte :: 2 :: u16Bytes pkt.pktId)

/-- The return codes are the QoS bytes of the tuples, in order. -/
theorem subscribeTuples_codes {obj : ClientRef} {tuples : List SubscribeTuple}
    {st st' : SubscribeState T} (run : tuples.foldlM (subscribeTuple obj) st = .ok st') :
    st'.rcs = st.rcs ++ tuples.map SubscribeTuple.qos := by
  induction tuples generalizing st with
  | nil =>
      cases run
      exact (List.append_nil _).symm
  | cons tuple tuples ih =>
      obtain ⟨mid, first, rest⟩ := bind_eq_ok.mp run
      obtain ⟨topic, _, round⟩ := bind_eq_ok.mp first
      cases round
      rw [ih rest, List.map_cons, List.append_assoc]
      rfl

/-- A closure with a reply to the packet. -/
def LeftWith (b : Broker T) (cb : ClosureRef) (request : Request) : Prop :=
  ∃ closure payload, b.closureHeap.get? cb = some closure ∧ closure.payload = some payload ∧
    IsReply payload.written request

section Handlers

variable {b b' : Broker T} {cb : ClosureRef} {closure : Closure}

theorem leftWith_reply {request : Request} {packed : Packed}
    (live : b.closureHeap.get? cb = some closure) (closure' : Closure)
    (own : IsReply packed.written request) :
    LeftWith (reply b cb closure' packed).2 cb request :=
  ⟨_, packed, get?_setClosure live _, rfl, own⟩

/-- A handler that asks for `on_write` has left the reply to its packet. -/
theorem handle_leaves [KeyTable T] {fuel : Nat} {results : List Int} {request : Request}
    (live : b.closureHeap.get? cb = some closure)
    (run : handle fuel b cb results request = .ok (rearmW, b')) : LeftWith b' cb request := by
  generalize asked : rearmW = rc at run
  cases handle_eq_ok live run with
  | refused | disconnected => cases asked
  | connected _ _ _ packs =>
      cases packs
      exact leftWith_reply live _ rfl
  | @subscribed pkt _ _ st packed _ _ enough rounds packs =>
      obtain ⟨_, _, same⟩ := subscribeTuples_keep rounds
      have live₁ : st.broker.closureHeap.get? cb = some closure := by
        rw [same]
        exact live
      have codes : st.rcs = (pkt.tuples.take pkt.tuplesLen.toNat).map SubscribeTuple.qos :=
        subscribeTuples_codes rounds
      have counted : st.rcs.length = pkt.tuplesLen.toNat := by
        rw [codes, List.length_map, List.length_take, Nat.min_eq_left enough]
      refine leftWith_reply live₁ _ ?_
      rw [IsReply, ← codes]
      exact packMqttSuback_bytes counted packs
  | unsubscribed => exact leftWith_reply live _ rfl
  | @published pkt _ _ topic b₁ _ _ _ _ _ loop replies =>
      obtain ⟨info, sent, rfl⟩ := publishLoop_keeps loop
      obtain ⟨_, _, _, same⟩ := b.published_keeps topic
      have live₁ : (b.published topic).2.closureHeap.get? cb = some closure := by
        rw [same]
        exact live
      obtain ⟨rfl, _⟩ | ⟨byte, _, rfl, answered⟩ := publishReply_eq_ok replies
      · cases asked
      · apply leftWith_reply live₁
        obtain ⟨once, rfl⟩ | ⟨exactly, rfl⟩ := answered
        · exact .inl ⟨once, rfl⟩
        · exact .inr ⟨exactly, rfl⟩

end Handlers

/-! ## Events -/

/-- What an event on a closure makes of it, if it still exists. -/
inductive Passed (closure : Closure) (input : Input) : Closure → Prop
  | wrote (writes : closure.call = .onWrite) :
      Passed closure input { closure with payload := none, call := .onRead, armed := some .input }
  | replied {request} (reads : closure.call = .onRead) (obj : Option ClientRef) (payload : Packed)
      (handled : input = .request request) (own : IsReply payload.written request) :
      Passed closure input
        { closure with obj, payload := some payload, call := .onWrite, armed := some .output }
  | disarmed (reads : closure.call = .onRead) :
      Passed closure input { closure with armed := none }

section Events

variable [KeyTable T] {fuel : Nat} {b b' : Broker T} {cb cb' : ClosureRef}
  {closure closure' : Closure} {input : Input} {results : List Int}

/-- A closure that writes hands over its reply and is given back. -/
theorem dispatch_writing_passed (live : b.closureHeap.get? cb = some closure)
    (writes : closure.call = .onWrite) (run : dispatch fuel b (.ready cb input results) = .ok b') :
    b'.closureHeap = b.closureHeap.write cb
        { closure with payload := none, call := .onRead, armed := some .input } ∧
      ∃ payload, closure.payload = some payload ∧ b'.sent = b.sent ++
        [⟨closure.fd, payload, payload.size, results.headD payload.size⟩] := by
  cases dispatch_eq_ok run with
  | wrote live' _ held =>
      cases live.symm.trans live'
      exact ⟨rfl, _, held, rfl⟩
  | failed live' reads | malformed live' reads | handled live' reads =>
      cases live.symm.trans live'
      cases reads.symm.trans writes

/-- A closure that is written is this one as it was written, or another as it was. -/
theorem passed_of_write {heap : Heap Closure} {closure₁ : Closure}
    (live : heap.get? cb = some closure) (passed : Passed closure input closure₁)
    (live' : (heap.write cb closure₁).get? cb' = some closure') :
    (cb' = cb ∧ Passed closure input closure') ∨ heap.get? cb' = some closure' := by
  rw [Heap.get?_write live] at live'
  split at live'
  · rename_i own
    cases live'
    exact .inl ⟨own, passed⟩
  · exact .inr live'

/-- Every closure after an event is a new one, the one of the event as this leaves it, or
as it was. -/
theorem dispatch_passed {event : Event} (run : dispatch fuel b event = .ok b')
    (live' : b'.closureHeap.get? cb' = some closure') :
    (b.closureHeap.get? cb' = none ∧ closure'.payload = none ∧ closure'.call = .onRead) ∨
      (∃ closure input results, event = .ready cb' input results ∧
        b.closureHeap.get? cb' = some closure ∧ Passed closure input closure') ∨
      b.closureHeap.get? cb' = some closure' := by
  -- the closure of the event, or another one
  have own {cb : ClosureRef} {closure : Closure} {input : Input} {results : List Int}
      (live : b.closureHeap.get? cb = some closure)
      (left : (cb' = cb ∧ Passed closure input closure') ∨ b.closureHeap.get? cb' = some closure') :
      (∃ closure input' results', Event.ready cb input results = .ready cb' input' results' ∧
        b.closureHeap.get? cb' = some closure ∧ Passed closure input' closure') ∨
      b.closureHeap.get? cb' = some closure' := by
    obtain ⟨rfl, passed⟩ | old := left
    · exact .inl ⟨closure, input, results, rfl, live, passed⟩
    · exact .inr old
  cases dispatch_eq_ok run with
  | accepted run =>
      obtain ⟨⟨status, closures⟩, _, done⟩ := bind_eq_ok.mp run
      cases done
      change (b.closureHeap.alloc _).get? cb' = some closure' at live'
      rw [Heap.get?_alloc] at live'
      split at live'
      · rename_i next
        cases live'
        exact .inl ⟨next ▸ Heap.get?_next, rfl, rfl⟩
      · exact .inr (.inr live')
  | wrote live writes => exact .inr (own live (passed_of_write live (.wrote writes) live'))
  | failed live reads => exact .inr (own live (passed_of_write live (.disarmed reads) live'))
  | malformed live reads _ _ dropped =>
      exact .inr (own live
        (passed_of_write live (.disarmed reads) (dropConnection_others dropped live')))
  | @handled cb closure request _ _ b₂ _ live reads live₁ returned rearmed =>
      refine .inr (own live ?_)
      obtain ⟨answer, _⟩ := handle_answer live₁ returned
      cases answer with
      | @reply _ obj payload heap same =>
          have written := heap.trans (Heap.write_write b.closureHeap cb _ _)
          obtain ⟨closure₂, payload₂, live₂, held, reply⟩ := handle_leaves live₁ returned
          rw [written, Heap.get?_write live, if_pos rfl] at live₂
          cases live₂
          cases held
          obtain ⟨closure₂, live₂, done⟩ := bind_eq_ok.mp rearmed
          have live₂ := deref_eq_ok.mp live₂
          rw [written, Heap.get?_write live, if_pos rfl] at live₂
          cases live₂
          cases done
          refine passed_of_write live (.replied reads obj payload rfl reply) ?_
          change (b₂.closureHeap.write cb _).get? cb' = some closure' at live'
          rwa [written, Heap.write_write] at live'
      | leave heap view dropped =>
          cases rearmed
          have old := dropConnection_others dropped live'
          rw [heap] at old
          exact passed_of_write live (.disarmed reads) old
      | nothing heap same =>
          cases rearmed
          rw [heap] at live'
          exact passed_of_write live (.disarmed reads) live'

end Events

/-! ## The invariant -/

/-- A reply is held exactly while `on_write` is to be called. -/
def Closure.Paired (closure : Closure) : Prop :=
  closure.payload ≠ none ↔ closure.call = .onWrite

theorem Passed.paired {closure closure' : Closure} {input : Input} (paired : closure.Paired)
    (passed : Passed closure input closure') : closure'.Paired := by
  cases passed with
  | wrote => exact iff_of_false (fun held => held rfl) nofun
  | replied => exact iff_of_true (Option.some_ne_none _) rfl
  | disarmed => exact paired

section Runs

variable [KeyTable T] {b b' : Broker T}

/-- A callback that returns, whatever the ids of new connections. -/
def DispatchStep (b : Broker T) (event : Event) (b' : Broker T) : Prop :=
  ∃ fuel, dispatch fuel b event = .ok b'

/-- Every closure there is has a reply exactly while it is to be written. -/
def AllPaired (b : Broker T) : Prop :=
  ∀ cb closure, b.closureHeap.get? cb = some closure → closure.Paired

theorem allPaired_step {event : Event} (all : AllPaired b) (step : DispatchStep b event b') :
    AllPaired b' := by
  obtain ⟨fuel, run⟩ := step
  intro cb closure live
  obtain ⟨_, none, reads⟩ | ⟨closure₀, input, results, _, live₀, passed⟩ | old :=
    dispatch_passed run live
  · rw [Closure.Paired, none, reads]
    exact iff_of_false (fun held => held rfl) nofun
  · exact passed.paired (all cb closure₀ live₀)
  · exact all cb closure old

theorem allPaired_startServer : AllPaired (startServer : Broker T) := by
  intro cb closure live
  obtain ⟨topics, topicHeap, same⟩ := startServer_eq (T := T)
  rw [same] at live
  cases live

/-- An event takes a reply from a closure only by handing it to `send_bytes`. -/
theorem AllPaired.payload_kept {event : Event} {fuel : Nat} (all : AllPaired b)
    (run : dispatch fuel b event = .ok b') {cb : ClosureRef} {closure closure' : Closure}
    {payload : Packed} (live : b.closureHeap.get? cb = some closure)
    (held : closure.payload = some payload) (live' : b'.closureHeap.get? cb = some closure') :
    closure'.payload = some payload ∨ ∃ input results, event = .ready cb input results ∧
      b'.sent = b.sent ++ [⟨closure.fd, payload, payload.size, results.headD payload.size⟩] := by
  have writes : closure.call = .onWrite := (all cb closure live).mp (held ▸ Option.some_ne_none _)
  have same (old : b.closureHeap.get? cb = some closure') : closure'.payload = some payload := by
    cases live.symm.trans old
    exact held
  obtain ⟨new, _⟩ | ⟨closure₀, input, results, here, live₀, _⟩ | old := dispatch_passed run live'
  · rw [live] at new
    cases new
  · subst here
    obtain ⟨_, written, other, sent⟩ := dispatch_writing_passed live writes run
    cases held.symm.trans other
    exact .inr ⟨input, results, rfl, sent⟩
  · exact .inl (same old)

/-- In every state of every run a closure has a reply exactly while its callback is
`on_write`. So this one finds a reply and sends it, handlers are called without one, and no
event replaces a reply before it has been handed over. -/
theorem replies_held {tr : List (Broker T × Event)} (run : Run DispatchStep startServer tr b) :
    (∀ cb closure, b.closureHeap.get? cb = some closure →
        (closure.payload ≠ none ↔ closure.call = .onWrite)) ∧
      (∀ cb closure, b.closureHeap.get? cb = some closure → closure.call = .onWrite →
        ∃ payload, closure.payload = some payload ∧ ∀ fuel input results b',
          dispatch fuel b (.ready cb input results) = .ok b' → b'.sent = b.sent ++
            [⟨closure.fd, payload, payload.size, results.headD payload.size⟩]) ∧
      ∀ fuel event b', dispatch fuel b event = .ok b' → ∀ cb closure closure' payload,
        b.closureHeap.get? cb = some closure → closure.payload = some payload →
        b'.closureHeap.get? cb = some closure' →
          closure'.payload = some payload ∨ ∃ input results, event = .ready cb input results ∧
            b'.sent = b.sent ++
              [⟨closure.fd, payload, payload.size, results.headD payload.size⟩] := by
  have all : AllPaired b :=
    run.invariant allPaired_startServer fun _ _ _ all step => allPaired_step all step
  refine ⟨all, fun cb closure live writes => ?_, ?_⟩
  · obtain ⟨payload, held⟩ := Option.ne_none_iff_exists'.mp ((all cb closure live).mpr writes)
    refine ⟨payload, held, fun fuel input results b' turn => ?_⟩
    obtain ⟨_, written, same, sent⟩ := dispatch_writing_passed live writes turn
    cases held.symm.trans same
    exact sent
  · intro fuel event b' turn cb closure closure' payload live held live'
    exact all.payload_kept turn live held live'

end Runs

/-- A client that connects. -/
def connectOnce : List Event :=
  [.accept 5 (uuidOf 0), .ready 0 (.request (.connect (connectAs 97))) []]

theorem replay_connectOnce :
    ((replay brokerNext (startServer : Broker HashTable) connectOnce).bind fun r =>
      (r.2.closureHeap.get? 0).map Closure.call) = some .onWrite := by
  decide +kernel

/-- Its CONNACK is there to be written. -/
theorem connectOnce_held : ∃ tr b closure payload,
    Run DispatchStep (startServer : Broker HashTable) tr b ∧ tr.map Prod.snd = connectOnce ∧
      b.closureHeap.get? 0 = some closure ∧ closure.payload = some payload := by
  obtain ⟨tr, b, run, labels, facts⟩ := Run.of_replay_bind
    (fun (_ : Broker HashTable) _ _ next => (brokerNext_step next).2) replay_connectOnce
  obtain ⟨closure, live, writes⟩ := Option.map_eq_some_iff.mp facts
  obtain ⟨payload, held, _⟩ := (replies_held run).2.1 0 closure live writes
  exact ⟨tr, b, closure, payload, run, labels, live, held⟩

end SolBroker
