import Mathlib
import SolBroker.Broker.Ending
import SolBroker.Broker.Server

/-!
# Descriptors

A descriptor is opened by `accept` and closed where its connection is dropped, and it lives in
the closure of the connection in between. Over any run the accounts balance: the descriptors
that were opened are those that have been closed together with those of the closures there
are. So none is closed twice, and as long as the kernel does not hand out a descriptor that
is still open, none is closed that another connection goes on using.
-/

namespace SolBroker

open Transition

/-- The descriptors of the closures. -/
def Broker.descriptors {T : Type → Type} (b : Broker T) : List Int :=
  b.closureHeap.objects.map Closure.fd

/-- The descriptor that an event opens. -/
def ServerEvent.opened : ServerEvent → List Int
  | .socket (.accept fd _) => [fd]
  | _ => []

section Steps

variable {T : Type → Type} {b b' : Broker T} {cb : ClosureRef} {closure : Closure}

theorem descriptors_write {closure' : Closure} (live : b.closureHeap.get? cb = some closure)
    {heap : Heap Closure} (written : heap = b.closureHeap.write cb closure')
    (same : closure'.fd = closure.fd) :
    heap.objects.map Closure.fd = b.descriptors := by
  obtain ⟨before, after, objects, write, _⟩ := Heap.objects_split live
  rw [written, write, Broker.descriptors, objects, List.map_append, List.map_append, List.map_cons,
    List.map_cons, same]

end Steps

section Dropping

variable {b b' : Broker HashTable} {cb : ClosureRef} {closure : Closure} {fuel : Nat}

/-- What is closed by an event, and what stays open. -/
structure Balances (b b' : Broker HashTable) (opened : List Int) : Prop where
  closes : ∃ gone, b'.closed = b.closed ++ gone ∧
    (gone ++ b'.descriptors).Perm (b.descriptors ++ opened)

theorem Balances.of_same (closed : b'.closed = b.closed)
    (descriptors : b'.descriptors = b.descriptors) : Balances b b' [] := by
  refine ⟨[], by rw [closed, List.append_nil], ?_⟩
  rw [descriptors, List.nil_append, List.append_nil]

/-- A connection that is dropped has its descriptor closed, once. -/
theorem Balances.of_drop (sound : TablesSound b.view)
    (live : b.closureHeap.get? cb = some closure) {key : CString}
    (run : dropConnection (closeFd b closure.fd) key closure.closureId = .ok b') :
    Balances b b' [] := by
  have sound₁ : TablesSound (closeFd b closure.fd).view := sound
  have live₁ : (closeFd b closure.fd).closureHeap.get? cb = some closure := live
  obtain ⟨b₁, run', closed, _, heap⟩ := dropConnection_ok sound₁ live₁ key
  cases run.symm.trans run'
  refine ⟨[closure.fd], closed, ?_⟩
  obtain ⟨before, after, objects, _, free⟩ := Heap.objects_split live
  have heap : b'.closureHeap = b.closureHeap.free cb := heap
  rw [Broker.descriptors, heap, free, Broker.descriptors, objects, List.append_nil,
    List.map_append, List.map_append, List.map_cons, List.singleton_append]
  exact List.perm_middle.symm

theorem handle_balances (sound : TablesSound b.view) {results : List Int} {request : Request}
    {rc : Int} (live : b.closureHeap.get? cb = some closure)
    (run : handle fuel b cb results request = .ok (rc, b')) : Balances b b' [] := by
  cases handle_eq_ok live run with
  | refused _ _ dropped => exact .of_drop sound live dropped
  | @disconnected c client _ isObj held dropped =>
      have own : client.fd = closure.fd :=
        sound.owned.fd cb closure.link c client (view_links live) isObj held
      rw [own] at dropped
      exact .of_drop sound live dropped
  | connected => exact .of_same rfl (descriptors_write live rfl rfl)
  | @subscribed pkt obj _ st packed _ _ _ rounds =>
      obtain ⟨_, _, same⟩ := subscribeTuples_keep rounds
      have closed : st.broker.closed = b.closed := by
        rw [same]
      have heap : st.broker.closureHeap = b.closureHeap := by
        rw [same]
      have written : (reply st.broker cb closure packed).2.closureHeap =
          b.closureHeap.write cb { closure with payload := some packed } := by
        rw [← heap]
        rfl
      exact .of_same closed (descriptors_write live written rfl)
  | unsubscribed => exact .of_same rfl (descriptors_write live rfl rfl)
  | @published pkt _ _ topic b₁ _ _ _ _ _ loop replies =>
      obtain ⟨_, _, same₁⟩ := publishLoop_keeps loop
      obtain ⟨_, _, _, same⟩ := b.published_keeps topic
      have closed : b₁.closed = b.closed := by
        rw [same₁, same]
      have heap : b₁.closureHeap = b.closureHeap := by
        rw [same₁, same]
      obtain ⟨_, rfl, _⟩ | ⟨byte, _, rfl, _⟩ := publishReply_eq_ok replies
      · refine .of_same closed ?_
        rw [Broker.descriptors, heap]
        rfl
      · have written (packed : Packed) : (reply b₁ cb closure packed).2.closureHeap =
            b.closureHeap.write cb { closure with payload := some packed } := by
          rw [← heap]
          rfl
        exact .of_same closed (descriptors_write live (written _) rfl)

/-- An event closes the descriptors that are no longer there, and opens those of its
connections. -/
theorem dispatch_balances (sound : TablesSound b.view) {event : Event}
    (run : dispatch fuel b event = .ok b') :
    Balances b b' (ServerEvent.opened (.socket event)) := by
  -- a closure that is disarmed has its descriptor
  have disarmed {cb : ClosureRef} {closure : Closure}
      (live : b.closureHeap.get? cb = some closure) :
      (setClosure b cb { closure with armed := none }).descriptors = b.descriptors :=
    descriptors_write live rfl rfl
  cases dispatch_eq_ok run with
  | accepted run =>
      obtain ⟨⟨status, closures⟩, _, done⟩ := bind_eq_ok.mp run
      cases done
      refine ⟨[], (List.append_nil _).symm, ?_⟩
      rw [List.nil_append, Broker.descriptors, Heap.objects_alloc, List.map_append]
      exact List.Perm.refl _
  | wrote live => exact .of_same rfl (descriptors_write live rfl rfl)
  | failed live => exact .of_same rfl (disarmed live)
  | @malformed cb closure _ c client _ live _ _ _ dropped =>
      have sound₁ : TablesSound (setClosure b cb { closure with armed := none }).view := by
        have view : (setClosure b cb { closure with armed := none }).view = b.view :=
          view_setClosure_same live rfl
        rw [view]
        exact sound
      obtain ⟨gone, closed, perm⟩ :=
        (Balances.of_drop sound₁ (get?_setClosure live _) dropped).closes
      exact ⟨gone, closed, disarmed live ▸ perm⟩
  | @handled cb closure request results rc b₂ _ live reads live₁ returned rearmed =>
      have sound₁ : TablesSound (readyToHandle b cb closure).view := by
        have view : (readyToHandle b cb closure).view = b.view := view_setClosure_same live rfl
        rw [view]
        exact sound
      have same : b'.closed = b₂.closed ∧ b'.descriptors = b₂.descriptors := by
        rw [rearm] at rearmed
        split at rearmed
        · obtain ⟨closure₂, live₂, done⟩ := bind_eq_ok.mp rearmed
          cases done
          exact ⟨rfl, descriptors_write (deref_eq_ok.mp live₂) rfl rfl⟩
        · cases rearmed
          exact ⟨rfl, rfl⟩
      obtain ⟨gone, closed, perm⟩ := (handle_balances sound₁ live₁ returned).closes
      refine ⟨gone, same.1.trans closed, ?_⟩
      rw [same.2, ← disarmed live]
      exact perm

end Dropping

/-! ## Runs -/

section Runs

variable {b b' : Broker HashTable} {tr : List (Broker HashTable × ServerEvent)}
  {event : ServerEvent}

theorem TablesSound.serverStep (sound : TablesSound b.view) (step : ServerStep b event b') :
    TablesSound b'.view := by
  refine ServerStep.keeps_view (fun b event b' sound step => ?_) sound step
  obtain ⟨fuel, run⟩ := step.2
  exact ⟨clientsSound_step sound.clients step, closuresKept_step sound.closures step,
    sound.owned.effect (dispatch_effect run)⟩

theorem tablesSound_serverRun (run : Run ServerStep (startServer : Broker HashTable) tr b) :
    TablesSound b.view := by
  have start : TablesSound (startServer : Broker HashTable).view :=
    ⟨clientsSound_startServer, closuresKept_startServer, owned_startServer⟩
  exact @Run.invariant _ _ ServerStep startServer (fun b => TablesSound b.view) start
    (fun _ _ _ sound step => sound.serverStep step) tr b run

theorem ServerStep.balances (sound : TablesSound b.view) (step : ServerStep b event b') :
    Balances b b' event.opened := by
  obtain ⟨e, rfl, _, fuel, run⟩ | ⟨_, _, _, info, sent, rfl, rfl⟩ := step.cases
  · exact dispatch_balances sound run
  · exact .of_same rfl rfl

/-- The kernel opens no descriptor that is open already. -/
def ServerEvent.Unopened (b : Broker HashTable) (event : ServerEvent) : Prop :=
  ∀ fd ∈ event.opened, fd ∉ b.descriptors

theorem Balances.nodup (balances : Balances b b' event.opened) (unopened : event.Unopened b)
    (nodup : b.descriptors.Nodup) :
    ∃ gone, b'.closed = b.closed ++ gone ∧ (gone ++ b'.descriptors).Nodup := by
  obtain ⟨gone, closed, perm⟩ := balances.closes
  refine ⟨gone, closed, perm.nodup_iff.mpr (List.nodup_append.mpr ⟨nodup, ?_, ?_⟩)⟩
  · cases event with
    | socket e =>
        cases e with
        | accept => exact List.nodup_singleton _
        | ready => exact List.nodup_nil
    | tick => exact List.nodup_nil
  · intro fd open_ fd' opened same
    exact unopened fd' opened (same ▸ open_)

end Runs

end SolBroker
