import Mathlib
import SolBroker.Broker.Rearm
import SolBroker.Broker.Dialogue
import SolBroker.Broker.Descriptors

/-!
# The conversation on a connection

The epoll set reports a descriptor once and then no more until it is armed again. If that is
all the kernel reports, a connection goes through four standings. It waits for a request, and
holds a reply once one has been handled that a reply is due to; writing that reply has it wait
again. Anything else is the end of the conversation: the connection is dropped, or it is left
open and never looked at any more.
-/

namespace SolBroker

open Transition

/-- How a connection stands: it waits for a request, it has a reply to write, it is open and
not armed, or it is gone. -/
inductive Standing
  | waiting
  | replying
  | deaf
  | gone
deriving DecidableEq, Repr

/-- What an event is for its connection: a request that a reply is due to, one that ends the
connection, one without any consequence, or the writing of a reply. -/
inductive Beat
  | answered
  | ended
  | muted
  | wrote
deriving DecidableEq, Repr

namespace Standing

/-- Where a beat leads. -/
def next : Standing → Beat → Option Standing
  | waiting, .answered => some replying
  | waiting, .ended => some gone
  | waiting, .muted => some deaf
  | replying, .wrote => some waiting
  | _, _ => none

/-- The beats since the connection was waiting last. -/
def since : Standing → List Beat
  | waiting => []
  | replying => [.answered]
  | deaf => [.muted]
  | gone => [.ended]

end Standing

section Definitions

variable {T : Type → Type}

/-- How a closure stands; one that there has not been yet is waiting. -/
def Broker.standing (b : Broker T) (cb : ClosureRef) : Standing :=
  match b.closureHeap.get? cb with
  | none => if cb < b.closureHeap.next then .gone else .waiting
  | some closure =>
      if closure.armed = none then .deaf
      else if closure.call = .onRead then .waiting else .replying

/-- The kernel reports only descriptors that are armed. -/
def ServerEvent.Reported (b : Broker T) : ServerEvent → Prop
  | .socket (.ready cb _ _) => ∀ closure, b.closureHeap.get? cb = some closure →
      closure.armed ≠ none
  | .socket (.accept ..) => True
  | .tick .. => True

variable [KeyTable T]

/-- What a request is for its connection. -/
def Request.beat (b : Broker T) (request : Request) : Beat :=
  if request.due b then .answered
  else match request with
    | .publish _ => .muted
    | _ => .ended

/-- What is read, for the connection. -/
def Input.beat (b : Broker T) : Input → Beat
  | .dropped => .muted
  | .packetErr => .ended
  | .request r => r.beat b

/-- The beat of an event on a closure. -/
def ServerEvent.beatOn (b : Broker T) (cb : ClosureRef) : ServerEvent → List Beat
  | .socket (.ready cb' input _) =>
      if cb' = cb then [if b.reading cb then input.beat b else .wrote] else []
  | _ => []

end Definitions

/-! ## Beats -/

section Beats

variable {T : Type → Type} [KeyTable T] {b : Broker T} {request : Request}

end Beats

/-! ## Steps -/

section Steps

variable {b b' : Broker HashTable} {cb : ClosureRef} {closure : Closure} {fuel : Nat}
  {results : List Int} {input : Input} {event : ServerEvent}

theorem standing_of_live (live : b.closureHeap.get? cb = some closure) :
    b.standing cb = if closure.armed = none then .deaf
      else if closure.call = .onRead then .waiting else .replying := by
  rw [Broker.standing, live]

/-- An event that is not reported leads its connection nowhere. -/
theorem ServerStep.stuck (step : ServerStep b event b') (unreported : ¬ event.Reported b) :
    ∃ cb, (event.beatOn b cb).foldlM Standing.next (b.standing cb) = none := by
  cases event with
  | tick => exact absurd trivial unreported
  | socket e =>
      cases e with
      | accept => exact absurd trivial unreported
      | ready cb input results =>
          rw [ServerEvent.Reported] at unreported
          push Not at unreported
          obtain ⟨closure, live, deaf⟩ := unreported
          refine ⟨cb, ?_⟩
          rw [ServerEvent.beatOn, if_pos rfl, standing_of_live live, if_pos deaf]
          rfl

end Steps

/-! ## Runs -/

section Runs

variable {b : Broker HashTable} {tr : List (Broker HashTable × ServerEvent)}

end Runs

end SolBroker
