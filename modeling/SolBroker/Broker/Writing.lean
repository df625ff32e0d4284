import Mathlib
import SolBroker.Broker.Replies
import SolBroker.Net.Send

/-!
# Writing a reply to a slow socket

`on_write` calls `send_bytes` once, releases the payload and gives the closure back to
`on_read`, whatever the count that `send_bytes` has returned. The bytes that have been
taken are the front of the payload in any case; they are all of it exactly if the socket
takes them all in the first write event, before it would block.
-/

namespace SolBroker

open Transition

variable {T : Type → Type}

/-- A broker, and what the socket of a closure has taken since it was armed. -/
structure Writing (T : Type → Type) where
  broker : Broker T
  stream : List UInt8

section Events

variable [KeyTable T]

/-- A write event of the closure `cb`, whose payload is `data`, with what the calls of `send`
meet in it. A closure that is back to reading has no write events. -/
def writeEvent (data : List UInt8) (cb : ClosureRef) (w : Writing T) (events : List SendEvent) :
    Except Fault (Writing T) := do
  let closure ← deref w.broker.closureHeap cb
  match closure.call with
  | .onRead => return w
  | .onWrite =>
      let sent := sendBytesOn events data
      let b ← dispatch 0 w.broker (.ready cb .dropped [sent.ret])
      return ⟨b, w.stream ++ sent.accepted⟩

/-- What is taken of the payload while it is written, and after it has been released. -/
structure NothingLost (data : List UInt8) (cb : ClosureRef) (w : Writing T) : Prop where
  inOrder : w.stream <+: data
  released : ∀ closure, w.broker.closureHeap.get? cb = some closure →
    closure.payload = none ∨ closure.call = .onRead → w.stream = data

/-- Nothing is lost in the course of the write events. -/
def WritesAll (b : Broker T) (cb : ClosureRef) (data : List UInt8)
    (outcomes : List (List SendEvent)) : Prop :=
  ∀ past, past <+: outcomes → ∃ w, past.foldlM (writeEvent data cb) ⟨b, []⟩ = .ok w ∧
    NothingLost data cb w

variable {b : Broker T} {cb : ClosureRef} {closure : Closure} {payload : Packed} {data : List UInt8}
  {events : List SendEvent}

/-- A write event that meets no error is handled. -/
theorem dispatch_writing_returns {sent : Int} (live : b.closureHeap.get? cb = some closure)
    (writes : closure.call = .onWrite) (held : closure.payload = some payload)
    (success : 0 ≤ sent) :
    ∃ b', dispatch 0 b (.ready cb .dropped [sent]) = .ok b' := by
  have found : deref (b.closureHeap.write cb { closure with armed := none }) cb =
      .ok { closure with armed := none } := deref_eq_ok.mpr (get?_setClosure live _)
  rw [dispatch_writing live writes]
  refine Exists.imp (fun b' rest => bind_eq_ok.mpr ⟨_, found, rest⟩) ?_
  simp only [held]
  exact ⟨_, bind_eq_ok.mpr ⟨(), if_neg (not_lt.mpr success), rfl⟩⟩

/-- One write event: the front of the payload is taken, and the payload is released. -/
theorem writeEvent_writing (live : b.closureHeap.get? cb = some closure)
    (writes : closure.call = .onWrite) (held : closure.payload = some payload)
    (soft : .err ∉ events) (stream : List UInt8) :
    ∃ b', writeEvent data cb ⟨b, stream⟩ events =
        .ok ⟨b', stream ++ data.take (capacity events)⟩ ∧
      b'.closureHeap.get? cb =
        some { closure with payload := none, call := .onRead, armed := some .input } := by
  have success : 0 ≤ (sendBytesOn events data).ret := by
    rw [sendBytesOn_ret soft]
    exact Int.natCast_nonneg _
  obtain ⟨b', run⟩ := dispatch_writing_returns live writes held success
  have found : deref b.closureHeap cb = .ok closure := deref_eq_ok.mpr live
  refine ⟨b', ?_, ?_⟩
  · rw [writeEvent]
    show (deref b.closureHeap cb >>= _) = _
    rw [found]
    show (match closure.call with | .onRead => _ | .onWrite => _) = _
    rw [writes]
    show (dispatch 0 b (.ready cb .dropped [(sendBytesOn events data).ret]) >>= _) = _
    rw [run, ← sendBytesOn_accepted]
    rfl
  · rw [(dispatch_writing_passed live writes run).1, Heap.get?_write live, if_pos rfl]

/-- After that there are no more. -/
theorem writeEvents_reading {w : Writing T} (live : w.broker.closureHeap.get? cb = some closure)
    (reads : closure.call = .onRead) (outcomes : List (List SendEvent)) :
    outcomes.foldlM (writeEvent data cb) w = .ok w := by
  have found : deref w.broker.closureHeap cb = .ok closure := deref_eq_ok.mpr live
  induction outcomes with
  | nil => rfl
  | cons events outcomes ih =>
      have idle : writeEvent data cb w events = .ok w := by
        rw [writeEvent, found]
        show (match closure.call with | .onRead => _ | .onWrite => _) = _
        rw [reads]
        rfl
      rw [List.foldlM_cons, idle]
      exact ih

/-- Nothing of a reply is lost exactly if the socket takes all of it in the first write
event. -/
theorem writesAll_iff (live : b.closureHeap.get? cb = some closure)
    (writes : closure.call = .onWrite) (held : closure.payload = some payload)
    (holds : payload.Holds data) {first : List SendEvent} (soft : .err ∉ first)
    (later : List (List SendEvent)) :
    WritesAll b cb data (first :: later) ↔ payload.size ≤ capacity first := by
  obtain ⟨b', run, live'⟩ := @writeEvent_writing _ _ b cb closure _ data _ live writes held soft []
  have through (past : List (List SendEvent)) :
      (first :: past).foldlM (writeEvent data cb) ⟨b, []⟩ =
        .ok ⟨b', data.take (capacity first)⟩ := by
    rw [List.foldlM_cons, run]
    exact writeEvents_reading live' rfl past
  rw [← holds.1, ← List.take_eq_self_iff]
  constructor
  · intro all
    obtain ⟨w, now, kept⟩ := all [first] (List.prefix_append [first] later)
    cases now.symm.trans (through [])
    exact kept.released _ live' (.inl rfl)
  · intro whole past before
    cases past with
    | nil =>
        refine ⟨⟨b, []⟩, rfl, List.nil_prefix, fun closure' live₁ released => ?_⟩
        cases live.symm.trans live₁
        rw [held, writes] at released
        cases released <;> contradiction
    | cons events past =>
        obtain ⟨rfl, _⟩ := List.cons_prefix_cons.mp before
        exact ⟨_, through past, List.take_prefix .., fun _ _ _ => whole⟩

end Events

/-! ## A CONNACK on a slow socket -/

def connackData : List UInt8 := [0x20, 2, 0, 0]

theorem replay_connack :
    ((replay brokerNext (startServer : Broker HashTable) connectOnce).bind fun r =>
      (r.2.closureHeap.get? 0).map fun closure => (closure.call, closure.payload)) =
        some (.onWrite, some ⟨4, connackData⟩) := by
  decide +kernel

/-- A client that has been left its CONNACK. -/
theorem run_connack : ∃ tr b closure, Run BrokerStep (startServer : Broker HashTable) tr b ∧
    tr.map Prod.snd = connectOnce ∧ b.closureHeap.get? 0 = some closure ∧
      closure.call = .onWrite ∧ closure.payload = some ⟨4, connackData⟩ := by
  obtain ⟨tr, b, run, labels, facts⟩ :=
    Run.of_replay_bind (fun _ _ _ => brokerNext_step) replay_connack
  obtain ⟨closure, live, facts⟩ := Option.map_eq_some_iff.mp facts
  obtain ⟨writes, held⟩ := Prod.mk.inj facts
  exact ⟨tr, b, closure, run, labels, live, writes, held⟩

theorem holds_connack : (⟨4, connackData⟩ : Packed).Holds connackData :=
  ⟨rfl, List.prefix_refl _⟩

/-- The socket takes a byte and would block, and takes three more when it is ready again. -/
theorem connack_cut_short :
    ¬ ∀ tr b, Run BrokerStep (startServer : Broker HashTable) tr b →
      ∀ cb closure payload data first later, b.closureHeap.get? cb = some closure →
        closure.call = .onWrite → closure.payload = some payload → payload.Holds data →
        (∀ events ∈ first :: later, SendEvent.err ∉ events) →
          WritesAll b cb data (first :: later) := by
  intro always
  obtain ⟨tr, b, closure, run, _, live, writes, held⟩ := run_connack
  obtain ⟨w, now, kept⟩ :=
    always tr b run 0 closure _ connackData [.taken 1, .wouldBlock] [[.taken 3]]
    live writes held holds_connack (by decide) [[.taken 1, .wouldBlock], [.taken 3]]
    (List.prefix_refl _)
  have soft : SendEvent.err ∉ [.taken 1, .wouldBlock] := by decide
  obtain ⟨b', first, live'⟩ :=
    @writeEvent_writing _ _ b 0 closure _ connackData _ live writes held soft []
  rw [List.foldlM_cons, first] at now
  cases now.symm.trans (writeEvents_reading live' rfl [[.taken 3]])
  have whole : connackData.take 1 = connackData := kept.released _ live' (.inl rfl)
  exact absurd whole (by decide)

/-- A socket that takes it at once gets all of it. -/
theorem connack_written :
    ∃ tr b, Run BrokerStep (startServer : Broker HashTable) tr b ∧ tr.map Prod.snd = connectOnce ∧
      WritesAll b 0 connackData [[.taken 3, .taken 1]] := by
  obtain ⟨tr, b, closure, run, labels, live, writes, held⟩ := run_connack
  refine ⟨tr, b, run, labels, ?_⟩
  exact (writesAll_iff live writes held holds_connack (by decide) []).mpr (by decide)

end SolBroker
