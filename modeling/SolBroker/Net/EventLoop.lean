import Mathlib
import SolBroker.Lib.Along
import SolBroker.Memory

/-!
# One pass of the event loop

The loop of `evloop_wait` over the events that epoll has reported, and the loop over the
periodic tasks inside it. Both count with a variable of the same name, so that the inner
loop compares task number `i` with event number `i` of the array and never looks at the
event it runs for. Whatever it finds is the same for every event of the pass, and depends
on what earlier passes have left behind the events of this one. A pass is modelled up to
the callbacks, which change neither the array of events nor the tasks.
-/

namespace SolBroker

/-- `struct epoll_event`, with the union `data` as its eight bytes. Where a descriptor has
been assigned, the upper four are whatever was there. -/
structure EpollEvent where
  events : UInt32
  data : UInt64
deriving DecidableEq, Repr

def epollIn : UInt32 := 0x001
def epollOut : UInt32 := 0x004
def epollErr : UInt32 := 0x008
def epollHup : UInt32 := 0x010

namespace EpollEvent

/-- `data.fd`. -/
def fd (e : EpollEvent) : Int := e.data.toUInt32.toInt32.toInt

/-- `data.ptr`. -/
def ptr (e : EpollEvent) : UInt64 := e.data

/-- The test in front of the loop over the tasks. -/
def failed (e : EpollEvent) : Bool :=
  e.events &&& epollErr ≠ 0 || e.events &&& epollHup ≠ 0 ||
    (e.events &&& epollIn = 0 && e.events &&& epollOut = 0)

end EpollEvent

/-- An entry of `periodic_tasks`, with the address of its closure. -/
structure PeriodicTask where
  timerfd : Int
  closure : UInt64
deriving DecidableEq, Repr

/-- The two arrays of `struct evloop`. The first has `max_events` entries; of the second
the entries in use are kept, which have room in it and descriptors of their own. -/
structure Evloop where
  events : List EpollEvent
  periodicMaxsize : Nat
  periodicTasks : List PeriodicTask
  positive : 0 < periodicMaxsize
  room : periodicTasks.length ≤ periodicMaxsize
  distinct : (periodicTasks.map PeriodicTask.timerfd).Nodup

def evloopInitialSize : Nat := 4

/-- `evloop_init`. The events are what the allocated block happens to contain. -/
def evloopInit (block : List EpollEvent) : Evloop where
  events := block
  periodicMaxsize := evloopInitialSize
  periodicTasks := []
  positive := by decide
  room := by decide
  distinct := List.nodup_nil

/-- `evloop_add_periodic_task`, with the descriptor of the timer and the results of
`timerfd_settime` and `epoll_ctl`. A new timer has none of the descriptors in use. -/
def evloopAddPeriodicTask (loop : Evloop) (timerfd settime ctl : Int) (cb : UInt64)
    (new : timerfd ∉ loop.periodicTasks.map PeriodicTask.timerfd) : Evloop :=
  if settime < 0 then loop
  else if ctl < 0 then loop
  else
    { events := loop.events
      periodicMaxsize :=
        if loop.periodicTasks.length + 1 > loop.periodicMaxsize then loop.periodicMaxsize * 2
        else loop.periodicMaxsize
      periodicTasks := loop.periodicTasks ++ [⟨timerfd, cb⟩]
      positive := by
        have := loop.positive
        split <;> omega
      room := by
        have := loop.positive
        have := loop.room
        rw [List.length_append, List.length_singleton]
        split <;> omega
      distinct := by
        rw [List.map_append, List.nodup_append']
        refine ⟨loop.distinct, List.nodup_singleton _, ?_⟩
        simpa using new }

/-- What the loop does for an event, in order. -/
inductive LoopAction
  | shutdown (fd : Int)
  | close (fd : Int)
  | read (fd : Int)
  | call (closure : UInt64)
deriving DecidableEq, Repr

section Pass

variable (heap : UInt64 → Bool)

/-- The call through a pointer, where `heap` tells the addresses with a closure. -/
def callClosure (closure : UInt64) : Except Fault (List LoopAction) :=
  if heap closure then .ok [.call closure] else .error .useAfterFree

/-- The loop over the tasks, and whether `periodic_done` has been set. The event it looks
at in a round is the one with the number of the task. -/
def periodicLoop : List EpollEvent → List PeriodicTask → Except Fault (Option (List LoopAction))
  | _, [] => .ok none
  | [], _ :: _ => .error .outOfBounds
  | e :: events, task :: tasks =>
      if e.fd = task.timerfd then
        (callClosure heap task.closure).map fun calls => some (.read e.fd :: calls)
      else periodicLoop events tasks

/-- The rest of a round, by `periodic_done`. -/
def afterTasks (e : EpollEvent) : Option (List LoopAction) → Except Fault (List LoopAction)
  | some actions => .ok actions
  | none => callClosure heap e.ptr

/-- One round of the loop over the events. -/
def dispatchEvent (el : Evloop) (e : EpollEvent) : Except Fault (List LoopAction) :=
  if e.failed then .ok [.shutdown e.fd, .close e.fd]
  else periodicLoop heap el.events el.periodicTasks >>= afterTasks heap e

/-- `epoll_wait` writes the events that are ready to the front of the array. -/
def epollWait (el : Evloop) (ready : List EpollEvent) : Evloop :=
  { el with events := ready ++ el.events.drop ready.length }

/-- One pass of `evloop_wait`, with what is done for each event. -/
def evloopPass (el : Evloop) (ready : List EpollEvent) : Except Fault (List (List LoopAction)) :=
  let el := epollWait el ready
  (el.events.take ready.length).mapM (dispatchEvent heap el)

/-! ## What a pass is for -/

/-- The event of a timer. -/
def IsTimer (tasks : List PeriodicTask) (e : EpollEvent) : Prop :=
  ∃ task ∈ tasks, task.timerfd = e.fd

/-- What is to be done for an event: a timer is read and the closure of its task called,
for any other event its own closure. -/
def handling (tasks : List PeriodicTask) (e : EpollEvent) : List LoopAction :=
  match tasks.find? fun task => task.timerfd = e.fd with
  | some task => [.read e.fd, .call task.closure]
  | none => [.call e.ptr]

/-- The events are timers and closures, without an error among them, and no pointer to a
closure reads as the descriptor of a timer. -/
structure Batch (el : Evloop) (ready : List EpollEvent) : Prop where
  fits : ready.length ≤ el.events.length
  fine : ∀ e ∈ ready, e.failed = false
  kinds : ∀ e ∈ ready, IsTimer el.periodicTasks e ∨ heap e.ptr = true
  tasks : ∀ task ∈ el.periodicTasks, heap task.closure = true
  apart : ∀ e : EpollEvent, heap e.ptr = true → ¬ IsTimer el.periodicTasks e

end Pass

/-! ## What the inner loop finds -/

/-- Task and event number `i` have the same descriptor. -/
def TimerAt (events : List EpollEvent) (tasks : List PeriodicTask) (i : Nat) (task : PeriodicTask) :
    Prop :=
  tasks[i]? = some task ∧ ∃ e, events[i]? = some e ∧ e.fd = task.timerfd

/-- The first of them. -/
def FirstTimerAt (events : List EpollEvent) (tasks : List PeriodicTask)
    (task : PeriodicTask) : Prop :=
  ∃ i, TimerAt events tasks i task ∧ ∀ j < i, ∀ other, ¬ TimerAt events tasks j other

/-- The outcomes of the loop over the tasks. -/
inductive PeriodicSearch (events : List EpollEvent) (tasks : List PeriodicTask) :
    Except Fault (Option (List LoopAction)) → Prop
  | found {task} (first : FirstTimerAt events tasks task) :
      PeriodicSearch events tasks (.ok (some [.read task.timerfd, .call task.closure]))
  | nothing (none_ : ∀ i task, ¬ TimerAt events tasks i task)
      (room : tasks.length ≤ events.length) :
      PeriodicSearch events tasks (.ok none)
  | beyond (none_ : ∀ i task, ¬ TimerAt events tasks i task)
      (short : events.length < tasks.length) :
      PeriodicSearch events tasks (.error .outOfBounds)

section Searching

variable {heap : UInt64 → Bool} {events : List EpollEvent} {tasks : List PeriodicTask}
  {e : EpollEvent} {task other : PeriodicTask} {i : Nat}

theorem timerAt_zero : TimerAt (e :: events) (task :: tasks) 0 other ↔
    task = other ∧ e.fd = other.timerfd := by
  simp [TimerAt]

theorem timerAt_succ : TimerAt (e :: events) (task :: tasks) (i + 1) other ↔
    TimerAt events tasks i other := by
  simp [TimerAt]

theorem not_timerAt_cons (different : e.fd ≠ task.timerfd)
    (none_ : ∀ i other, ¬ TimerAt events tasks i other) :
    ∀ i other, ¬ TimerAt (e :: events) (task :: tasks) i other := by
  intro i other found
  cases i with
  | zero =>
      obtain ⟨rfl, same⟩ := timerAt_zero.mp found
      exact different same
  | succ i => exact none_ i other (timerAt_succ.mp found)

theorem FirstTimerAt.cons (different : e.fd ≠ task.timerfd)
    (first : FirstTimerAt events tasks other) :
    FirstTimerAt (e :: events) (task :: tasks) other := by
  obtain ⟨i, found, before⟩ := first
  refine ⟨i + 1, timerAt_succ.mpr found, fun j below other' found' => ?_⟩
  cases j with
  | zero =>
      obtain ⟨rfl, same⟩ := timerAt_zero.mp found'
      exact different same
  | succ j => exact before j (Nat.lt_of_succ_lt_succ below) other' (timerAt_succ.mp found')

theorem FirstTimerAt.mem (first : FirstTimerAt events tasks task) : task ∈ tasks := by
  obtain ⟨i, ⟨held, _⟩, _⟩ := first
  exact List.mem_of_getElem? held

theorem FirstTimerAt.unique (first : FirstTimerAt events tasks task)
    (first' : FirstTimerAt events tasks other) : task = other := by
  obtain ⟨i, found, before⟩ := first
  obtain ⟨j, found', before'⟩ := first'
  obtain below | rfl | above := Nat.lt_trichotomy i j
  · exact absurd found (before' i below task)
  · exact Option.some.inj (found.1.symm.trans found'.1)
  · exact absurd found' (before j above other)

/-- The loop has one of the three outcomes. -/
theorem periodicLoop_search (closures : ∀ task ∈ tasks, heap task.closure = true)
    (events : List EpollEvent) : PeriodicSearch events tasks (periodicLoop heap events tasks) := by
  induction tasks generalizing events with
  | nil =>
      rw [periodicLoop]
      exact .nothing (fun _ _ found => nomatch found.1) (Nat.zero_le _)
  | cons task tasks ih =>
      cases events with
      | nil =>
          refine .beyond (fun i other found => ?_) (Nat.succ_pos _)
          obtain ⟨_, e, held, _⟩ := found
          cases held
      | cons e events =>
          rw [periodicLoop]
          by_cases same : e.fd = task.timerfd
          · have called : callClosure heap task.closure = .ok [.call task.closure] :=
              if_pos (closures task (List.mem_cons_self ..))
            rw [if_pos same, called, same]
            exact .found ⟨0, timerAt_zero.mpr ⟨rfl, same⟩, nofun⟩
          · rw [if_neg same]
            have rest :=
              ih (fun task member => closures task (List.mem_cons_of_mem _ member)) events
            generalize periodicLoop heap events tasks = outcome at rest
            cases rest with
            | found first => exact .found (first.cons same)
            | nothing none_ room =>
                exact .nothing (not_timerAt_cons same none_) (Nat.succ_le_succ room)
            | beyond none_ short =>
                exact .beyond (not_timerAt_cons same none_) (Nat.succ_lt_succ short)

end Searching

/-! ## When a pass does what it is for -/

/-- No event is a timer's, every task has an event with its number, and none that is left
from before is taken for its timer. -/
structure OnlyClosures (el : Evloop) (ready : List EpollEvent) : Prop where
  closures : ∀ e ∈ ready, ¬ IsTimer el.periodicTasks e
  room : el.periodicTasks.length ≤ el.events.length
  stale : ∀ i task, ready.length ≤ i → ¬ TimerAt el.events el.periodicTasks i task

/-- All events are of one timer, which is the first that has the number of its task. -/
def OneTimer (el : Evloop) (ready : List EpollEvent) : Prop :=
  ∃ task, FirstTimerAt (epollWait el ready).events el.periodicTasks task ∧
    ∀ e ∈ ready, e.fd = task.timerfd

section Handling

variable {heap : UInt64 → Bool} {el : Evloop} {ready : List EpollEvent} {e : EpollEvent}
  {task : PeriodicTask}

theorem handling_timer (member : task ∈ el.periodicTasks) (same : e.fd = task.timerfd) :
    handling el.periodicTasks e = [.read task.timerfd, .call task.closure] := by
  have found : el.periodicTasks.find? (fun task => task.timerfd = e.fd) = some task := by
    cases looked : el.periodicTasks.find? fun task => task.timerfd = e.fd with
    | none => exact absurd same.symm (by simpa using List.find?_eq_none.mp looked task member)
    | some other =>
        have its : other.timerfd = e.fd := by simpa using List.find?_some looked
        exact congrArg some (List.inj_on_of_nodup_map el.distinct (List.mem_of_find?_eq_some looked)
          member (its.trans same))
  rw [handling, found, same]

theorem handling_closure (none_ : ¬ IsTimer el.periodicTasks e) :
    handling el.periodicTasks e = [.call e.ptr] := by
  have found : el.periodicTasks.find? (fun task => task.timerfd = e.fd) = none := by
    apply List.find?_eq_none.mpr
    intro task member same
    exact none_ ⟨task, member, by simpa using same⟩
  rw [handling, found]

/-- A timer's actions are what an event needs exactly if it is the timer's event. -/
theorem timer_handles_iff (member : task ∈ el.periodicTasks) :
    [.read task.timerfd, .call task.closure] = handling el.periodicTasks e ↔
      e.fd = task.timerfd := by
  constructor
  · intro handled
    by_cases timer : IsTimer el.periodicTasks e
    · obtain ⟨other, inside, same⟩ := timer
      rw [handling_timer inside same.symm] at handled
      simp only [List.cons.injEq, LoopAction.read.injEq] at handled
      exact same.symm.trans handled.1.symm
    · rw [handling_closure timer] at handled
      cases handled
  · intro same
    exact (handling_timer member same).symm

/-- The call of an event's own closure is what it needs exactly if it is not a timer's. -/
theorem callClosure_handles_iff (batch : Batch heap el ready) (member : e ∈ ready) :
    callClosure heap e.ptr = .ok (handling el.periodicTasks e) ↔ ¬ IsTimer el.periodicTasks e := by
  constructor
  · intro handled timer
    have dead : heap e.ptr = false := by
      apply Bool.eq_false_iff.mpr
      exact fun live => batch.apart e live timer
    rw [callClosure, dead] at handled
    cases handled
  · intro closure
    have live := (batch.kinds e member).resolve_left closure
    rw [handling_closure closure]
    exact if_pos live

theorem epollWait_length (batch : Batch heap el ready) :
    (epollWait el ready).events.length = el.events.length := by
  have fits := batch.fits
  simp only [epollWait, List.length_append, List.length_drop]
  omega

/-- What is at a number in the array after the wait. -/
theorem timerAt_epollWait {i : Nat} :
    TimerAt (epollWait el ready).events el.periodicTasks i task ↔
      (i < ready.length ∧ TimerAt ready el.periodicTasks i task) ∨
        (ready.length ≤ i ∧ TimerAt el.events el.periodicTasks i task) := by
  rw [TimerAt, TimerAt, TimerAt, epollWait]
  obtain below | above := Nat.lt_or_ge i ready.length
  · rw [List.getElem?_append_left below]
    simp [below]
  · have place : ready.length + (i - ready.length) = i := by omega
    rw [List.getElem?_append_right above, List.getElem?_drop, place]
    simp [above]

theorem FirstTimerAt.not_onlyClosures
    (first : FirstTimerAt (epollWait el ready).events el.periodicTasks task) :
    ¬ OnlyClosures el ready := by
  rintro ⟨closures, _, stale⟩
  obtain ⟨i, found, _⟩ := first
  obtain ⟨_, held, e, at_, same⟩ | ⟨behind, old⟩ := timerAt_epollWait.mp found
  · exact closures e (List.mem_of_getElem? at_) ⟨task, List.mem_of_getElem? held, same.symm⟩
  · exact stale i task behind old

/-- A pass over a batch does for an event what the loop over the tasks finds. -/
theorem evloopPass_eq_iff (batch : Batch heap el ready) :
    evloopPass heap el ready = .ok (ready.map (handling el.periodicTasks)) ↔
      ∀ e ∈ ready, periodicLoop heap (epollWait el ready).events el.periodicTasks >>=
        afterTasks heap e = .ok (handling el.periodicTasks e) := by
  have front : (epollWait el ready).events.take ready.length = ready := List.take_left
  rw [evloopPass, front, List.mapM_eq_ok_map_iff]
  apply forall₂_congr
  intro e member
  rw [dispatchEvent, batch.fine e member]
  exact Iff.rfl

/-- One pass handles every event as what it is, each once and in order, exactly if it has
none, or only events of closures that no task takes away, or only events of a timer that
is found. -/
theorem evloopPass_iff (batch : Batch heap el ready) :
    evloopPass heap el ready = .ok (ready.map (handling el.periodicTasks)) ↔
      ready = [] ∨ OnlyClosures el ready ∨ OneTimer el ready := by
  rw [evloopPass_eq_iff batch]
  have search := periodicLoop_search batch.tasks (epollWait el ready).events
  generalize periodicLoop heap (epollWait el ready).events el.periodicTasks = outcome at search
  by_cases empty : ready = []
  · subst empty
    exact iff_of_true (fun _ member => nomatch member) (.inl rfl)
  rw [or_iff_right empty]
  cases search with
  | @found task first =>
      rw [or_iff_right first.not_onlyClosures]
      constructor
      · intro each
        refine ⟨task, first, fun e member => ?_⟩
        exact (timer_handles_iff first.mem).mp (Except.ok.inj (each e member))
      · rintro ⟨other, first', each⟩ e member
        obtain rfl := first.unique first'
        rw [← (timer_handles_iff first.mem).mpr (each e member)]
        rfl
  | nothing none_ room =>
      have notOne : ¬ OneTimer el ready := by
        rintro ⟨task, ⟨i, found, _⟩, _⟩
        exact none_ i task found
      rw [or_iff_left notOne]
      constructor
      · intro each
        refine ⟨fun e member => (callClosure_handles_iff batch member).mp (each e member),
          epollWait_length batch ▸ room, fun i task behind old => ?_⟩
        exact none_ i task (timerAt_epollWait.mpr (.inr ⟨behind, old⟩))
      · intro only e member
        exact (callClosure_handles_iff batch member).mpr (only.closures e member)
  | beyond none_ short =>
      refine iff_of_false (fun each => ?_) ?_
      · obtain ⟨e, member⟩ := List.exists_mem_of_ne_nil ready empty
        cases each e member
      · rintro (⟨_, room, _⟩ | ⟨task, ⟨i, found, _⟩, _⟩)
        · rw [epollWait_length batch] at short
          exact absurd room (not_le.mpr short)
        · exact none_ i task found

end Handling

/-! ## A timer and a client -/

/-- Two closures, at the address of a page each. -/
def twoClosures (p : UInt64) : Bool := p = 0x1000 || p = 0x2000

/-- The event of a descriptor that is ready to be read. -/
def readable (data : UInt64) : EpollEvent where
  events := epollIn
  data := data

/-- A loop for four events with one timer. -/
def oneTask : Evloop :=
  evloopAddPeriodicTask (evloopInit (List.replicate 4 (readable 0))) 5 0 0 0x1000 (by decide)

theorem oneTask_batch {ready : List EpollEvent} (fits : ready.length ≤ 4)
    (events : ∀ e ∈ ready, e = readable 5 ∨ e = readable 0x2000) :
    Batch twoClosures oneTask ready where
  fits := fits
  fine e member := by
    obtain rfl | rfl := events e member <;> decide
  kinds e member := by
    obtain rfl | rfl := events e member
    · exact .inl ⟨⟨5, 0x1000⟩, by decide, by decide⟩
    · exact .inr (by decide)
  tasks := by decide
  apart e live timer := by
    obtain ⟨task, member, same⟩ := timer
    obtain rfl : task = ⟨5, 0x1000⟩ := List.mem_singleton.mp member
    rw [twoClosures, Bool.or_eq_true, decide_eq_true_iff, decide_eq_true_iff] at live
    obtain pointer | pointer := live
    · change e.data = 0x1000 at pointer
      rw [EpollEvent.fd, pointer] at same
      exact absurd same (by decide)
    · change e.data = 0x2000 at pointer
      rw [EpollEvent.fd, pointer] at same
      exact absurd same (by decide)

/-- The event of the client is taken for the timer's. -/
theorem timer_takes_client :
    ¬ ∀ heap el ready, Batch heap el ready →
      evloopPass heap el ready = .ok (ready.map (handling el.periodicTasks)) := by
  intro always
  have batch : Batch twoClosures oneTask [readable 5, readable 0x2000] :=
    oneTask_batch (by decide) (by simp)
  have pass := always _ _ _ batch
  have taken : evloopPass twoClosures oneTask [readable 5, readable 0x2000] =
      .ok [[.read 5, .call 0x1000], [.read 5, .call 0x1000]] := by decide
  have meant : [readable 5, readable 0x2000].map (handling oneTask.periodicTasks) =
      [[.read 5, .call 0x1000], [.call 0x2000]] := by decide
  rw [taken, meant] at pass
  cases pass

/-- The timer alone is handled. -/
theorem timer_alone_handled :
    evloopPass twoClosures oneTask [readable 5] =
      .ok ([readable 5].map (handling oneTask.periodicTasks)) := by
  apply (evloopPass_iff (oneTask_batch (by decide) (by simp))).mpr
  refine .inr (.inr ⟨⟨5, 0x1000⟩, ⟨0, ⟨by decide, readable 5, by decide, by decide⟩, nofun⟩, ?_⟩)
  decide

end SolBroker
