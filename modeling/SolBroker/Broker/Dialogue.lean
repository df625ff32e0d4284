import Mathlib
import SolBroker.Broker.Replies
import SolBroker.Broker.Server

/-!
# The dialogue on a connection

A connection is served by turns: a request is handled, and if a reply is due to it this is
written before the next request is looked at. So the replies that have been written on a
connection answer the requests it has been handled, one by one and in their order, and at most
the last of them is still to be written.
-/

namespace SolBroker

open Transition

variable {T : Type → Type}

section Definitions

variable [KeyTable T]

/-- A reply is due to the request: none to a DISCONNECT, to a CONNECT under an id that is in
use, and to a PUBLISH with no QoS that asks for one. -/
def Request.due (b : Broker T) : Request → Bool
  | .connect pkt =>
      pkt.payload.clientId.elim false fun block => !KeyTable.contains b.clients (cstr block)
  | .disconnect => false
  | .subscribe _ => true
  | .unsubscribe _ => true
  | .publish pkt => pkt.header.qos = atLeastOnce ∨ pkt.header.qos = exactlyOnce

/-- The closure has `on_read` called. -/
def Broker.reading (b : Broker T) (cb : ClosureRef) : Bool :=
  (b.closureHeap.get? cb).any fun closure => closure.call = .onRead

/-- The request with a reply due that an event hands to a closure. -/
def ServerEvent.dueOn (b : Broker T) (cb : ClosureRef) : ServerEvent → List Request
  | .socket (.ready cb' (.request request) _) =>
      if cb' = cb ∧ b.reading cb ∧ request.due b then [request] else []
  | _ => []

/-- The reply that an event has a closure write. -/
def ServerEvent.writtenOn (b : Broker T) (cb : ClosureRef) : ServerEvent → List Packed
  | .socket (.ready cb' _ _) =>
      if cb' = cb ∧ ¬ b.reading cb then ((b.closureHeap.get? cb).bind Closure.payload).toList
      else []
  | _ => []

/-- The requests of a connection with replies due, over a run. -/
def dueOn (cb : ClosureRef) (tr : List (Broker T × ServerEvent)) : List Request :=
  tr.flatMap fun visit => visit.2.dueOn visit.1 cb

/-- The replies written on a connection, over a run. -/
def writtenOn (cb : ClosureRef) (tr : List (Broker T × ServerEvent)) : List Packed :=
  tr.flatMap fun visit => visit.2.writtenOn visit.1 cb

end Definitions

section Events

variable [KeyTable T] {fuel : Nat} {b b' : Broker T} {cb cb' : ClosureRef}
  {closure closure' : Closure} {input : Input} {results : List Int} {request : Request}

omit [KeyTable T] in
theorem Broker.reading_eq (live : b.closureHeap.get? cb = some closure) :
    b.reading cb = decide (closure.call = .onRead) := by
  rw [Broker.reading, live, Option.any_some]

/-- The code of a handler asks for a reply to be written exactly if one is due. -/
theorem handle_due {rc : Int} (live : b.closureHeap.get? cb = some closure)
    (run : handle fuel b cb results request = .ok (rc, b')) :
    rc = rearmW ↔ request.due b = true := by
  cases handle_eq_ok live run with
  | refused given found =>
      rw [Request.due, given, Option.elim_some, found]
      exact iff_of_false (by decide) (by decide)
  | connected given free =>
      rw [Request.due, given, Option.elim_some, free]
      exact iff_of_true rfl rfl
  | disconnected => exact iff_of_false (by decide) Bool.false_ne_true
  | subscribed | unsubscribed => exact iff_of_true rfl rfl
  | published _ _ _ _ replies =>
      rw [Request.due, decide_eq_true_iff]
      obtain ⟨rfl, _, notOnce, notExactly⟩ | ⟨_, rfl, _, asked⟩ := publishReply_eq_ok replies
      · exact iff_of_false (by decide) (not_or.mpr ⟨notOnce, notExactly⟩)
      · exact iff_of_true rfl (asked.imp And.left And.left)

/-- A closure that reads holds the reply to what it has been handed, if one is due, and none
otherwise. -/
theorem dispatch_reading_due (live : b.closureHeap.get? cb = some closure)
    (reads : closure.call = .onRead) (none_ : closure.payload = none)
    (run : dispatch fuel b (.ready cb input results) = .ok b') :
    ∃ pending : Option Packed,
      (∀ closure', b'.closureHeap.get? cb = some closure' → closure'.payload = pending) ∧
      List.Forall₂ (fun packed request => IsReply packed.written request) pending.toList
        (ServerEvent.dueOn b cb (.socket (.ready cb input results))) := by
  have reading : b.reading cb = true := (b.reading_eq live).trans (decide_eq_true reads)
  -- what is left of the closure where nothing is due
  have bare {heap : Heap Closure}
      (same : heap = b.closureHeap.write cb { closure with armed := none }) (closure' : Closure)
      (live' : heap.get? cb = some closure') : closure'.payload = none := by
    rw [same, Heap.get?_write live, if_pos rfl] at live'
    cases live'
    exact none_
  cases dispatch_eq_ok run with
  | wrote live' writes =>
      cases live.symm.trans live'
      cases reads.symm.trans writes
  | failed live' =>
      cases live.symm.trans live'
      exact ⟨none, bare rfl, .nil⟩
  | malformed live' _ _ _ dropped =>
      cases live.symm.trans live'
      refine ⟨none, fun closure' held => bare rfl closure' ?_, .nil⟩
      exact dropConnection_others dropped held
  | @handled _ _ request _ rc b₂ _ live' _ live₁ returned rearmed =>
      cases live.symm.trans live'
      have same : request.due (readyToHandle b cb closure) = request.due b := by
        cases request <;> rfl
      have due : rc = rearmW ↔ request.due b = true := same ▸ handle_due live₁ returned
      rw [ServerEvent.dueOn, reading]
      simp only [true_and]
      obtain ⟨answer, _⟩ := handle_answer live₁ returned
      cases answer with
      | reply =>
          obtain ⟨closure₂, payload, live₂, held, own⟩ := handle_leaves live₁ returned
          obtain ⟨closure₃, live₃, done⟩ := bind_eq_ok.mp rearmed
          cases live₂.symm.trans (deref_eq_ok.mp live₃)
          cases done
          rw [if_pos (due.mp rfl)]
          refine ⟨some payload, fun closure' held' => ?_, .cons own .nil⟩
          change (b₂.closureHeap.write cb _).get? cb = some closure' at held'
          rw [Heap.get?_write live₂, if_pos rfl] at held'
          cases held'
          exact held
      | leave heap view dropped =>
          cases rearmed
          rw [if_neg (mt due.mpr (by decide))]
          refine ⟨none, fun closure' held => bare rfl closure' ?_, .nil⟩
          have old := dropConnection_others dropped held
          rwa [heap] at old
      | nothing heap =>
          cases rearmed
          rw [if_neg (mt due.mpr (by decide))]
          exact ⟨none, bare heap, .nil⟩

/-- An event on a closure makes no other. -/
theorem dispatch_ready_old (run : dispatch fuel b (.ready cb input results) = .ok b')
    (live' : b'.closureHeap.get? cb' = some closure') :
    ∃ closure, b.closureHeap.get? cb' = some closure := by
  obtain ⟨closure, live, _⟩ := bind_eq_ok.mp run
  have live := deref_eq_ok.mp live
  have old {closure₁ : Closure} (heap : b'.closureHeap = b.closureHeap.write cb closure₁) :
      ∃ closure, b.closureHeap.get? cb' = some closure := by
    rw [heap, Heap.get?_write live] at live'
    split at live'
    · rename_i own
      exact ⟨closure, own ▸ live⟩
    · exact ⟨closure', live'⟩
  cases dispatch_turn live run with
  | wrote _ heap | replied _ _ heap | silent _ _ heap => exact old heap
  | left _ _ _ others =>
      by_cases own : cb' = cb
      · exact ⟨closure, own ▸ live⟩
      · exact ⟨closure', others cb' closure' live' own⟩

theorem dispatch_ready_next (run : dispatch fuel b (.ready cb input results) = .ok b') :
    b'.closureHeap.next = b.closureHeap.next := by
  show b'.view.nextClosure = b.view.nextClosure
  have drop (key key' : CString) :
      ((b.view.dropClient key).dropClosure key').nextClosure = b.view.nextClosure := by
    obtain ⟨_, _, first⟩ := b.view.dropClient_frame key
    obtain ⟨_, _, second⟩ := (b.view.dropClient key).dropClosure_frame key'
    rw [second, first]
  generalize after : b'.view = v
  have effect := dispatch_effect run
  rw [after] at effect
  cases effect with
  | quiet | connected => rfl
  | left | refused => exact drop _ _
  | subscribed _ _ _ _ same rounds =>
      obtain ⟨_, _, kept⟩ := subscribeTuples_view same rounds
      rw [kept]
  | published =>
      obtain ⟨_, _, kept⟩ := b.view.createTopic_frame _
      rw [kept]

end Events

/-! ## Runs -/

/-- The replies written for a closure and the one it holds answer the requests that it has
been handed. -/
structure InOrder [KeyTable T] (cb : ClosureRef) (tr : List (Broker T × ServerEvent))
    (b : Broker T) (pending : Option Packed) : Prop where
  held : ∀ closure, b.closureHeap.get? cb = some closure → closure.payload = pending
  answers : List.Forall₂ (fun packed request => IsReply packed.written request)
    (writtenOn cb tr ++ pending.toList) (dueOn cb tr)
  unused : b.closureHeap.next ≤ cb → dueOn cb tr = []

section Runs

variable [KeyTable T] {b b' : Broker T} {cb : ClosureRef} {pending : Option Packed}
  {tr : List (Broker T × ServerEvent)} {event : ServerEvent}

theorem dueOn_snoc : dueOn cb (tr ++ [(b, event)]) = dueOn cb tr ++ event.dueOn b cb := by
  rw [dueOn, List.flatMap_append, List.flatMap_singleton]
  rfl

omit [KeyTable T] in
theorem writtenOn_snoc :
    writtenOn cb (tr ++ [(b, event)]) = writtenOn cb tr ++ event.writtenOn b cb := by
  rw [writtenOn, List.flatMap_append, List.flatMap_singleton]
  rfl

namespace InOrder

variable (answered : InOrder cb tr b pending)
include answered

/-- A closure that has not been used has nothing to answer. -/
theorem pending_unused (beyond : b.closureHeap.next ≤ cb) : pending = none := by
  have lengths := answered.answers.length_eq
  rw [answered.unused beyond, List.length_append, List.length_nil] at lengths
  cases pending with
  | none => rfl
  | some packed => exact absurd lengths (by simp)

/-- An event that is not the closure's. -/
theorem other (due : event.dueOn b cb = []) (written : event.writtenOn b cb = [])
    (kept : ∀ closure, b'.closureHeap.get? cb = some closure →
      b.closureHeap.get? cb = some closure ∨
        (b.closureHeap.next ≤ cb ∧ closure.payload = none))
    (next : b.closureHeap.next ≤ b'.closureHeap.next) :
    InOrder cb (tr ++ [(b, event)]) b' pending where
  held := by
    intro closure live
    obtain old | ⟨beyond, none_⟩ := kept closure live
    · exact answered.held closure old
    · rw [none_, answered.pending_unused beyond]
  answers := by
    rw [dueOn_snoc, writtenOn_snoc, due, written, List.append_nil, List.append_nil]
    exact answered.answers
  unused := by
    intro beyond
    rw [dueOn_snoc, due, List.append_nil]
    exact answered.unused (next.trans beyond)

theorem accept {fuel : Nat} {fd : Int} {uuid : CString}
    (run : dispatch fuel b (.accept fd uuid) = .ok b') :
    InOrder cb (tr ++ [(b, .socket (.accept fd uuid))]) b' pending := by
  obtain ⟨⟨status, closures⟩, _, done⟩ := bind_eq_ok.mp run
  cases done
  refine answered.other rfl rfl (fun closure live => ?_) ?_
  · change (b.closureHeap.alloc _).get? cb = some closure at live
    rw [Heap.get?_alloc] at live
    split at live
    · rename_i new
      cases live
      exact .inr ⟨new.ge, rfl⟩
    · exact .inl live
  · show b.closureHeap.next ≤ (b.closureHeap.alloc _).next
    rw [Heap.next_alloc]
    exact Nat.le_succ _

theorem ready {fuel : Nat} {cb' : ClosureRef} {input : Input} {results : List Int}
    (all : AllPaired b) (run : dispatch fuel b (.ready cb' input results) = .ok b') :
    ∃ pending', InOrder cb (tr ++ [(b, .socket (.ready cb' input results))]) b' pending' := by
  have next := dispatch_ready_next run
  by_cases own : cb' = cb
  · subst own
    obtain ⟨closure, live, _⟩ := bind_eq_ok.mp run
    have live := deref_eq_ok.mp live
    have inside : ¬ b'.closureHeap.next ≤ cb' := by
      rw [next]
      exact not_le.mpr (Heap.lt_next live)
    have holds := answered.held closure live
    have answers := answered.answers
    cases call : closure.call with
    | onWrite =>
        -- what was pending is written
        have reading : b.reading cb' = false := by
          rw [b.reading_eq live, call]
          rfl
        obtain ⟨heap, payload, held, _⟩ := dispatch_writing_passed live call run
        have due : ServerEvent.dueOn b cb' (.socket (.ready cb' input results)) = [] := by
          cases input with
          | request request => rw [ServerEvent.dueOn, reading, if_neg (by simp)]
          | packetErr | dropped => rfl
        have written : ServerEvent.writtenOn b cb' (.socket (.ready cb' input results)) =
            pending.toList := by
          rw [ServerEvent.writtenOn, reading, if_pos (by simp), live, ← holds]
          rfl
        refine ⟨none, fun closure' live' => ?_, ?_, fun beyond => absurd beyond inside⟩
        · rw [heap, Heap.get?_write live, if_pos rfl] at live'
          cases live'
          rfl
        · rw [dueOn_snoc, writtenOn_snoc, due, written, List.append_nil, Option.toList_none,
            List.append_nil]
          exact answers
    | onRead =>
        have none_ : closure.payload = none := by
          by_contra some_
          rw [(all cb' closure live).mp some_] at call
          cases call
        obtain ⟨pending', held, each⟩ := dispatch_reading_due live call none_ run
        have written : ServerEvent.writtenOn b cb' (.socket (.ready cb' input results)) = [] := by
          rw [ServerEvent.writtenOn, b.reading_eq live, call, if_neg (by simp)]
        refine ⟨pending', held, ?_, fun beyond => absurd beyond inside⟩
        rw [← holds, none_, Option.toList_none, List.append_nil] at answers
        rw [dueOn_snoc, writtenOn_snoc, written, List.append_nil]
        exact List.rel_append answers each
  · refine ⟨pending, answered.other ?_ ?_ (fun closure live => .inl ?_) next.ge⟩
    · cases input with
      | request request => rw [ServerEvent.dueOn, if_neg fun both => own both.1]
      | packetErr | dropped => rfl
    · rw [ServerEvent.writtenOn, if_neg fun both => own both.1]
    · obtain ⟨fresh, _⟩ | ⟨_, _, _, here, _⟩ | old := dispatch_passed run live
      · obtain ⟨_, old⟩ := dispatch_ready_old run live
        rw [fresh] at old
        cases old
      · cases here
        exact absurd rfl own
      · exact old

end InOrder

theorem inOrder_of_run (run : Run ServerStep startServer tr b) (cb : ClosureRef) :
    AllPaired b ∧ ∃ pending, InOrder cb tr b pending := by
  induction run with
  | nil =>
      refine ⟨allPaired_startServer, none, fun closure live => ?_, .nil, fun _ => rfl⟩
      obtain ⟨_, _, same⟩ := startServer_eq (T := T)
      rw [same] at live
      cases live
  | @snoc tr b event b' _ step ih =>
      obtain ⟨all, pending, answered⟩ := ih
      obtain ⟨e, rfl, _, fuel, run⟩ | ⟨_, _, _, info, sent, rfl, rfl⟩ := step.cases
      · refine ⟨allPaired_step all ⟨fuel, run⟩, ?_⟩
        cases e with
        | accept fd uuid => exact ⟨pending, answered.accept run⟩
        | ready cb' input results => exact answered.ready all run
      · exact ⟨all, pending, answered.other rfl rfl (fun _ live => .inl live) le_rfl⟩

/-- In every run, whatever the connections do in between, the replies that have been written
on a connection are those to its requests, in the order in which these were handled, each with
the packet id and the codes of its own request. At most the last request that a reply is due
to is without one; then the closure holds it, and the next event on it has it sent. -/
theorem replies_in_order (run : Run ServerStep startServer tr b) (cb : ClosureRef) :
    ∃ pending : Option Packed,
      (∀ closure, b.closureHeap.get? cb = some closure → closure.payload = pending) ∧
      List.Forall₂ (fun packed request => IsReply packed.written request)
        (writtenOn cb tr ++ pending.toList) (dueOn cb tr) ∧
      ∀ fuel input results b', b.reading cb = false →
        dispatch fuel b (.ready cb input results) = .ok b' → ∃ fd payload,
          pending = some payload ∧
            b'.sent = b.sent ++ [⟨fd, payload, payload.size, results.headD payload.size⟩] := by
  obtain ⟨_, pending, answered⟩ := inOrder_of_run run cb
  refine ⟨pending, answered.held, answered.answers, fun fuel input results b' writes turn => ?_⟩
  obtain ⟨closure, live, _⟩ := bind_eq_ok.mp turn
  have live := deref_eq_ok.mp live
  have call : closure.call = .onWrite := by
    rw [b.reading_eq live, decide_eq_false_iff_not] at writes
    cases call : closure.call with
    | onRead => exact absurd call writes
    | onWrite => rfl
  obtain ⟨_, payload, held, sent⟩ := dispatch_writing_passed live call turn
  exact ⟨closure.fd, payload, (answered.held closure live).symm.trans held, sent⟩

/-- A client connects, has its CONNACK and asks for topic `t`. -/
def connectAndAsk : List ServerEvent :=
  connectOnly.map .socket ++ [.socket (.ready 0 (.request (.subscribe (subscribeTo 116 0))) [])]

theorem replay_connectAndAsk :
    (replay serverNext (startServer : Broker HashTable) connectAndAsk).map (fun r =>
      (dueOn 0 r.1, (writtenOn 0 r.1).length, (r.2.closureHeap.get? 0).isSome)) =
      some ([.connect (connectAs 97), .subscribe (subscribeTo 116 0)], 1, true) := by
  decide +kernel

/-- Its closure holds the SUBACK. -/
theorem connectAndAsk_pending : ∃ tr b closure payload,
    Run ServerStep (startServer : Broker HashTable) tr b ∧ tr.map Prod.snd = connectAndAsk ∧
      b.closureHeap.get? 0 = some closure ∧ closure.payload = some payload ∧
      payload.written = [0x90, 3, 0, 1, 0] := by
  obtain ⟨tr, b, run, labels, facts⟩ := Run.of_replay_map serverNext_step replay_connectAndAsk
  simp only [Prod.mk.injEq] at facts
  obtain ⟨due, once, there⟩ := facts
  obtain ⟨closure, live⟩ := Option.isSome_iff_exists.mp there
  obtain ⟨pending, held, answers, _⟩ := replies_in_order run 0
  rw [due] at answers
  obtain ⟨connack, written⟩ := List.length_eq_one_iff.mp once
  rw [written] at answers
  cases pending with
  | none =>
      obtain ⟨_, answers⟩ := List.forall₂_cons.mp answers
      cases answers
  | some payload =>
      obtain ⟨_, answers⟩ := List.forall₂_cons.mp answers
      obtain ⟨own, _⟩ := List.forall₂_cons.mp answers
      refine ⟨tr, b, closure, payload, run, labels, live, held closure live, ?_⟩
      exact Eq.trans own (by decide)

end Runs

end SolBroker
