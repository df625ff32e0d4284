import Mathlib
import SolBroker.Broker.Stats

/-!
# The server with its timer

Beside the sockets the event loop serves one timer, which has `publish_stats` called.
A tick sends and counts, and leaves everything else as it is; so whatever an event of
the sockets keeps of the view, a step of the whole server keeps.
-/

namespace SolBroker

variable {T : Type → Type}

/-- What happens to the server: an event on a socket, or a tick of the timer with what
the clock says and what the kernel answers. -/
inductive ServerEvent
  | socket (event : Event)
  | tick (uptime : Int) (solUptime : CString) (results : List (List Int))
deriving DecidableEq, Repr

/-- A connection is accepted under a fresh id. -/
def ServerEvent.Fresh (b : Broker T) : ServerEvent → Prop
  | .socket event => FreshUuid b event
  | .tick .. => True

instance (b : Broker T) (event : ServerEvent) : Decidable (event.Fresh b) :=
  match event with
  | .socket event => inferInstanceAs (Decidable (FreshUuid b event))
  | .tick .. => inferInstanceAs (Decidable True)

section Steps

variable [KeyTable T]

/-- The callback of an event. -/
def serve (fuel : Nat) (b : Broker T) : ServerEvent → Except Fault (Broker T)
  | .socket event => dispatch fuel b event
  | .tick uptime solUptime results => publishStats b uptime solUptime results

/-- An event of the server whose callback returns. -/
def ServeStep (b : Broker T) (event : ServerEvent) (b' : Broker T) : Prop :=
  ∃ fuel, serve fuel b event = .ok b'

/-- The same, where a connection is accepted under a fresh id. -/
def ServerStep (b : Broker T) (event : ServerEvent) (b' : Broker T) : Prop :=
  event.Fresh b ∧ ServeStep b event b'

/-- A step that can be evaluated, as long as no put rebuilds a table twice. -/
def serverNext (b : Broker T) (event : ServerEvent) : Option (Broker T) :=
  if event.Fresh b then (serve 2 b event).toOption else none

theorem serverNext_step (b : Broker T) (event : ServerEvent) (b' : Broker T)
    (next : serverNext b event = some b') : ServerStep b event b' := by
  rw [serverNext] at next
  split at next
  · rename_i fresh
    exact ⟨fresh, 2, toOption_eq_some.mp next⟩
  · cases next

theorem serverNext_serves (b : Broker T) (event : ServerEvent) (b' : Broker T)
    (next : serverNext b event = some b') : ServeStep b event b' :=
  (serverNext_step b event b' next).2

end Steps

/-! ## What a tick can do -/

section Ticks

variable {b b' : Broker T}

theorem publishStat_keeps {message : (CString × CString) × List Int}
    (run : publishStat b message = .ok b') : ∃ info sent, b' = { b with info, sent } := by
  obtain ⟨⟨topic, text⟩, results⟩ := message
  change publishMessage _ _ _ _ _ _ _ = _ at run
  rw [publishMessage] at run
  split at run
  · cases run
    exact ⟨_, _, rfl⟩
  · rw [publishMessageLoop_eq_rounds] at run
    exact sendRounds_keeps run

theorem publishStats_keeps {uptime : Int} {solUptime : CString} {results : List (List Int)}
    (run : publishStats b uptime solUptime results = .ok b') :
    ∃ info sent, b' = { b with info, sent } := by
  rw [publishStats] at run
  generalize (statsMessages b.info uptime solUptime).zip _ = messages at run
  induction messages generalizing b with
  | nil =>
      cases run
      exact ⟨_, _, rfl⟩
  | cons message messages ih =>
      obtain ⟨mid, first, rest⟩ := bind_eq_ok.mp run
      obtain ⟨_, _, rfl⟩ := publishStat_keeps first
      obtain ⟨info, sent, same⟩ := ih rest
      exact ⟨info, sent, same⟩

end Ticks

section Invariants

variable [KeyTable T] {b b' : Broker T} {event : ServerEvent}

/-- A step of the server is one of the sockets, or leaves all but counters and sends. -/
theorem ServerStep.cases (step : ServerStep b event b') :
    (∃ e, event = .socket e ∧ BrokerStep b e b') ∨
      ∃ uptime solUptime results info sent, event = .tick uptime solUptime results ∧
        b' = { b with info, sent } := by
  obtain ⟨fresh, fuel, run⟩ := step
  cases event with
  | socket e => exact .inl ⟨e, rfl, fresh, fuel, run⟩
  | tick uptime solUptime results =>
      obtain ⟨info, sent, same⟩ := publishStats_keeps run
      exact .inr ⟨uptime, solUptime, results, info, sent, rfl, same⟩

/-- What every event of the sockets keeps of the view, the server keeps. -/
theorem ServerStep.keeps_view {inv : View T → Prop}
    (kept : ∀ b e b', inv b.view → BrokerStep b e b' → inv b'.view) (here : inv b.view)
    (step : ServerStep b event b') : inv b'.view := by
  obtain ⟨e, rfl, step⟩ | ⟨_, _, _, info, sent, rfl, rfl⟩ := step.cases
  · exact kept b e b' here step
  · exact here

end Invariants

end SolBroker
