import Mathlib
import SolBroker.Memory
import SolBroker.Net.Send

/-!
# The counters of `send_bytes`

The loop of `send_bytes` keeps the bytes that were taken in `total`, which moves the pointer
and ends the loop, and the bytes that are missing in `bytesleft`, which is what it asks for.
Nothing in it compares the two. Both are of type `size_t`, so they wrap around. A call that
would read past the end of the buffer is a fault.
-/

namespace SolBroker.SendLoop

/-- What a call of `send` returns: a count, or -1 and an error number. -/
inductive SendResult
  | count (n : Nat)
  | wouldBlock
  | error
deriving DecidableEq, Repr

/-- The results of the calls, by the number of the call and the bytes it asks for. -/
structure Socket where
  result : Nat → Nat → SendResult
  counts : ∀ {i size n}, result i size = .count n → 1 ≤ n ∧ n ≤ size

/-- A call of `send` at an offset of the buffer. -/
structure SendCall where
  offset : Nat
  size : Nat
  result : SendResult
deriving DecidableEq, Repr

/-- The bytes that a call hands over and the socket accepts. -/
def SendCall.taken (buf : List UInt8) (call : SendCall) : List UInt8 :=
  match call.result with
  | .count n => (buf.drop call.offset).take n
  | .wouldBlock | .error => []

/-- How many these are. -/
def SendCall.count (call : SendCall) : Nat :=
  match call.result with
  | .count n => n
  | .wouldBlock | .error => 0

/-- What all of the calls hand over, in order. -/
def accepted (buf : List UInt8) (calls : List SendCall) : List UInt8 :=
  calls.flatMap (SendCall.taken buf)

/-- Each call begins where the bytes end that the calls before it have handed over. -/
def Chained : Nat → List SendCall → Prop
  | _, [] => True
  | start, call :: calls => call.offset = start ∧ Chained (start + call.count) calls

/-- The variables of the loop, and the calls so far. -/
structure LoopState where
  total : Nat
  bytesleft : Nat
  calls : List SendCall

/-- The return value of `send_bytes` and the calls it has made. -/
structure Outcome where
  ret : Int
  calls : List SendCall
deriving DecidableEq, Repr

/-- A `size_t` as the value of a `ssize_t`. -/
def ssizeOf (n : Nat) : Int := Int.bmod n (2 ^ 64)

namespace LoopState

/-- The calls after another one with this result. -/
def called (s : LoopState) (result : SendResult) : List SendCall :=
  s.calls ++ [⟨s.total, s.bytesleft, result⟩]

/-- The end of the loop's body. -/
def advance (s : LoopState) (n : Nat) : LoopState where
  total := (s.total + n) % 2 ^ 64
  bytesleft := (s.bytesleft + (2 ^ 64 - n)) % 2 ^ 64
  calls := s.called (.count n)

end LoopState

/-- The loop of `send_bytes`, for a number of rounds. -/
def sendLoop (socket : Socket) (buf : List UInt8) (len : Nat) :
    Nat → LoopState → Except Fault Outcome
  | 0, s => if s.total < len then .error .noReturn else .ok ⟨ssizeOf s.total, s.calls⟩
  | rounds + 1, s =>
      if s.total < len then
        if buf.length < s.total + s.bytesleft then .error .outOfBounds
        else
          match socket.result s.calls.length s.bytesleft with
          | .count n => sendLoop socket buf len rounds (s.advance n)
          | .wouldBlock => .ok ⟨ssizeOf s.total, s.called .wouldBlock⟩
          | .error => .ok ⟨-1, s.called .error⟩
      else .ok ⟨ssizeOf s.total, s.calls⟩

/-- `send_bytes`. Every round but the last takes a byte, so `len` rounds are enough. -/
def sendBytes (socket : Socket) (buf : List UInt8) (len : Nat) : Except Fault Outcome :=
  sendLoop socket buf len len ⟨0, len, []⟩

/-- An object in memory: the distance of two of its bytes is a `ptrdiff_t`. -/
structure Block where
  bytes : List UInt8
  small : bytes.length < 2 ^ 63

/-! ## What a round preserves -/

theorem ssizeOf_eq {n : Nat} (small : n < 2 ^ 63) : ssizeOf n = n := by
  refine Int.bmod_eq_of_le ?_ ?_ <;> omega

theorem chained_append {start : Nat} {calls later : List SendCall} :
    Chained start (calls ++ later) ↔
      Chained start calls ∧ Chained (start + (calls.map SendCall.count).sum) later := by
  induction calls generalizing start with
  | nil => exact ⟨fun chained => ⟨trivial, chained⟩, And.right⟩
  | cons call calls ih =>
      rw [List.map_cons, List.sum_cons, ← Nat.add_assoc]
      show call.offset = start ∧ Chained (start + call.count) (calls ++ later) ↔ _
      rw [ih, ← and_assoc]
      rfl

theorem SendCall.taken_eq (buf : List UInt8) (call : SendCall) :
    call.taken buf = (buf.drop call.offset).take call.count := by
  rw [taken, count]
  cases call.result with
  | count n => rfl
  | wouldBlock | error => exact List.take_zero.symm

/-- Calls that are chained hand over a stretch of the buffer. -/
theorem Chained.accepted_eq {start : Nat} {calls : List SendCall} (chained : Chained start calls)
    (buf : List UInt8) :
    accepted buf calls = (buf.drop start).take (calls.map SendCall.count).sum := by
  induction calls generalizing start with
  | nil => exact List.take_zero.symm
  | cons call calls ih =>
      obtain ⟨offset, rest⟩ := chained
      rw [accepted, List.flatMap_cons, ← accepted, ih rest, SendCall.taken_eq, offset,
        List.map_cons, List.sum_cons, List.take_add, List.drop_drop]

/-- Before a round, both counters are told by what the calls have handed over. -/
structure Invariant (len : Nat) (s : LoopState) : Prop where
  chained : Chained 0 s.calls
  total : s.total = (s.calls.map SendCall.count).sum
  counters : s.total + s.bytesleft = len
  within : ∀ call ∈ s.calls, call.offset + call.size = len
  counts : ∀ call ∈ s.calls, ∃ n, call.result = .count n

theorem Invariant.start (len : Nat) : Invariant len ⟨0, len, []⟩ where
  chained := trivial
  total := rfl
  counters := Nat.zero_add len
  within := fun _ member => absurd member List.not_mem_nil
  counts := fun _ member => absurd member List.not_mem_nil

section Round

variable {len : Nat} {s : LoopState}

theorem Invariant.called_chained (inv : Invariant len s) (result : SendResult) :
    Chained 0 (s.called result) := by
  rw [LoopState.called, chained_append]
  refine ⟨inv.chained, ?_, trivial⟩
  rw [Nat.zero_add]
  exact inv.total

theorem Invariant.called_within (inv : Invariant len s) (result : SendResult) :
    ∀ call ∈ s.called result, call.offset + call.size = len := by
  intro call member
  rcases List.mem_append.mp member with before | last
  · exact inv.within call before
  · rw [List.mem_singleton.mp last]
    exact inv.counters

theorem count_called (s : LoopState) (result : SendResult) :
    ((s.called result).map SendCall.count).sum =
      (s.calls.map SendCall.count).sum + SendCall.count ⟨s.total, s.bytesleft, result⟩ := by
  rw [LoopState.called, List.map_append, List.sum_append]
  rfl

/-- Neither counter wraps around. -/
theorem Invariant.advance_counters (inv : Invariant len s) (small : len < 2 ^ 63) {n : Nat}
    (le : n ≤ s.bytesleft) :
    (s.advance n).total = s.total + n ∧ (s.advance n).bytesleft = s.bytesleft - n := by
  have counters := inv.counters
  constructor
  · show (s.total + n) % 2 ^ 64 = s.total + n
    omega
  · show (s.bytesleft + (2 ^ 64 - n)) % 2 ^ 64 = s.bytesleft - n
    omega

theorem Invariant.advance (inv : Invariant len s) (small : len < 2 ^ 63) {n : Nat}
    (le : n ≤ s.bytesleft) : Invariant len (s.advance n) := by
  obtain ⟨total, bytesleft⟩ := inv.advance_counters small le
  have counters := inv.counters
  constructor
  · exact inv.called_chained (.count n)
  · rw [total, inv.total]
    exact (count_called s (.count n)).symm
  · rw [total, bytesleft]
    omega
  · exact inv.called_within (.count n)
  · intro call member
    rcases List.mem_append.mp member with before | last
    · exact inv.counts call before
    · rw [List.mem_singleton.mp last]
      exact ⟨n, rfl⟩

end Round

/-! ## Whole runs -/

/-- A call met a hard error. -/
def Outcome.HardError (out : Outcome) : Prop := ∃ call ∈ out.calls, call.result = .error

/-- What holds when `send_bytes` has returned. What was accepted is the front of the first
`len` bytes, each of them handed over once, and all of them if every call returned a count. -/
structure Delivered (buf : List UInt8) (len : Nat) (out : Outcome) : Prop where
  chained : Chained 0 out.calls
  inOrder : accepted buf out.calls = (buf.take len).take (accepted buf out.calls).length
  failed : out.ret = -1 ↔ out.HardError
  length : ¬ out.HardError → out.ret = (accepted buf out.calls).length
  within : ∀ call ∈ out.calls, call.offset + call.size = len
  complete : (∀ call ∈ out.calls, ∃ n, call.result = .count n) →
    accepted buf out.calls = buf.take len

section Runs

variable {buf : List UInt8} {len : Nat} {s : LoopState}

theorem Invariant.soft (inv : Invariant len s) :
    ∀ call ∈ s.calls, call.result ≠ .error := by
  intro call member error
  obtain ⟨n, count⟩ := inv.counts call member
  rw [count] at error
  cases error

theorem mem_called (s : LoopState) (result : SendResult) :
    ⟨s.total, s.bytesleft, result⟩ ∈ s.called result :=
  List.mem_append_right _ (List.mem_singleton_self _)

theorem Invariant.accepted_eq (inv : Invariant len s) (buf : List UInt8) :
    accepted buf s.calls = buf.take s.total := by
  rw [inv.chained.accepted_eq, inv.total]
  rfl

/-- A call that is no count hands nothing over. -/
theorem Invariant.accepted_called (inv : Invariant len s) (buf : List UInt8) {result : SendResult}
    (stops : ∀ n, result ≠ .count n) : accepted buf (s.called result) = buf.take s.total := by
  have nothing : SendCall.count ⟨s.total, s.bytesleft, result⟩ = 0 := by
    cases result with
    | count n => exact absurd rfl (stops n)
    | wouldBlock | error => rfl
  rw [(inv.called_chained result).accepted_eq, count_called, nothing, Nat.add_zero, ← inv.total]
  rfl

theorem Invariant.accepted_wouldBlock (inv : Invariant len s) (buf : List UInt8) :
    accepted buf (s.called .wouldBlock) = buf.take s.total :=
  inv.accepted_called buf fun _ => SendResult.noConfusion

theorem Invariant.accepted_error (inv : Invariant len s) (buf : List UInt8) :
    accepted buf (s.called .error) = buf.take s.total :=
  inv.accepted_called buf fun _ => SendResult.noConfusion

/-- What is returned is what the counter holds. -/
theorem Invariant.ssizeOf_total (inv : Invariant len s) (small : len < 2 ^ 63) :
    ssizeOf s.total = s.total := by
  have counters := inv.counters
  exact ssizeOf_eq (by omega)

section Fits

variable (inv : Invariant len s) (fits : len ≤ buf.length)
include inv fits

theorem Invariant.length_take : (buf.take s.total).length = s.total := by
  have counters := inv.counters
  rw [List.length_take]
  omega

theorem Invariant.take_eq :
    buf.take s.total = (buf.take len).take (buf.take s.total).length := by
  have counters := inv.counters
  rw [inv.length_take fits, List.take_take, Nat.min_eq_left (by omega)]

/-- A return of `total` without an error. -/
theorem Invariant.delivered {ret : Int} {calls : List SendCall} (returns : ret = s.total)
    (chained : Chained 0 calls) (front : accepted buf calls = buf.take s.total)
    (within : ∀ call ∈ calls, call.offset + call.size = len)
    (soft : ∀ call ∈ calls, call.result ≠ .error)
    (complete : (∀ call ∈ calls, ∃ n, call.result = .count n) → s.total = len) :
    Delivered buf len ⟨ret, calls⟩ := by
  have noError : ¬ Outcome.HardError ⟨ret, calls⟩ := by
    rintro ⟨call, member, error⟩
    exact soft call member error
  refine ⟨chained, ?_, ?_, ?_, within, ?_⟩
  · rw [front]
    exact inv.take_eq fits
  · constructor
    · intro failed
      change ret = -1 at failed
      omega
    · intro hard
      exact absurd hard noError
  · intro _
    show ret = (accepted buf calls).length
    rw [front, inv.length_take fits, returns]
  · intro counts
    show accepted buf calls = buf.take len
    rw [front, complete counts]

theorem Invariant.delivered_done (small : len < 2 ^ 63) (done : ¬ s.total < len) :
    Delivered buf len ⟨ssizeOf s.total, s.calls⟩ := by
  have counters := inv.counters
  apply inv.delivered fits (inv.ssizeOf_total small) inv.chained (inv.accepted_eq buf) inv.within
    inv.soft
  intro _
  omega

theorem Invariant.delivered_wouldBlock (small : len < 2 ^ 63) :
    Delivered buf len ⟨ssizeOf s.total, s.called .wouldBlock⟩ := by
  apply inv.delivered fits (inv.ssizeOf_total small) (inv.called_chained _)
    (inv.accepted_wouldBlock buf) (inv.called_within _)
  · intro call member
    rcases List.mem_append.mp member with before | last
    · exact inv.soft call before
    · rw [List.mem_singleton.mp last]
      exact SendResult.noConfusion
  · intro counts
    obtain ⟨n, count⟩ := counts _ (mem_called s .wouldBlock)
    cases count

theorem Invariant.delivered_error : Delivered buf len ⟨-1, s.called .error⟩ := by
  have hard : Outcome.HardError ⟨-1, s.called .error⟩ := ⟨_, mem_called s .error, rfl⟩
  refine ⟨inv.called_chained _, ?_, ⟨fun _ => hard, fun _ => rfl⟩, fun soft => absurd hard soft,
    inv.called_within _, ?_⟩
  · rw [inv.accepted_error]
    exact inv.take_eq fits
  · intro counts
    obtain ⟨n, count⟩ := counts _ (mem_called s .error)
    cases count

end Fits

end Runs

/-! ## The events of a run -/

/-- A result as an event on the descriptor. -/
def SendResult.event : SendResult → SendEvent
  | .count n => .taken n
  | .wouldBlock => .wouldBlock
  | .error => .err

/-- The events that the calls of a run meet. -/
def eventsOf (calls : List SendCall) : List SendEvent := calls.map fun call => call.result.event

section Events

variable {buf : List UInt8} {len : Nat} {s : LoopState} {out : Outcome}

/-- The bytes that are missing are the rest of the buffer. -/
theorem Invariant.length_rest (inv : Invariant len s) (fits : len ≤ buf.length) :
    ((buf.take len).drop s.total).length = s.bytesleft := by
  have counters := inv.counters
  rw [List.length_drop, List.length_take]
  omega

/-- A count moves on in the list as it does in the counters. -/
theorem Invariant.advance_lists (inv : Invariant len s) (small : len < 2 ^ 63) {n : Nat}
    (le : n ≤ s.bytesleft) (buf : List UInt8) :
    buf.take s.total ++ ((buf.take len).drop s.total).take n = buf.take (s.advance n).total ∧
      ((buf.take len).drop s.total).drop n = (buf.take len).drop (s.advance n).total := by
  have counters := inv.counters
  rw [(inv.advance_counters small le).1, List.drop_drop]
  refine ⟨?_, rfl⟩
  rw [List.take_add, List.drop_take, List.take_take, Nat.min_eq_left (by omega)]

theorem sendBytesLoop_nil (total bytesleft : List UInt8) :
    sendBytesLoop [] total bytesleft = ⟨total.length, total⟩ := by
  cases bytesleft <;> rfl

/-- The event of a result, met with bytes missing. -/
theorem sendBytesLoop_event (events : List SendEvent) (total : List UInt8)
    {bytesleft : List UInt8} (nonempty : bytesleft ≠ []) (result : SendResult) :
    sendBytesLoop (result.event :: events) total bytesleft =
      match result with
      | .count n => sendBytesLoop events (total ++ bytesleft.take n) (bytesleft.drop n)
      | .wouldBlock => ⟨total.length, total⟩
      | .error => ⟨-1, total⟩ := by
  cases bytesleft with
  | nil => exact absurd rfl nonempty
  | cons b bytesleft => cases result <;> rfl

/-- On the events of the calls still to come, the loop over the lists of bytes has the same
outcome from here. -/
def Refines (buf : List UInt8) (len : Nat) (s : LoopState) (out : Outcome) : Prop :=
  ∃ later, out.calls = s.calls ++ later ∧
    sendBytesLoop (eventsOf later) (buf.take s.total) ((buf.take len).drop s.total) =
      ⟨out.ret, accepted buf out.calls⟩

section Fits

variable (inv : Invariant len s) (fits : len ≤ buf.length)
include inv fits

theorem Invariant.refines_done (small : len < 2 ^ 63) :
    Refines buf len s ⟨ssizeOf s.total, s.calls⟩ := by
  refine ⟨[], (List.append_nil _).symm, ?_⟩
  rw [eventsOf, List.map_nil, sendBytesLoop_nil, inv.length_take fits, inv.accepted_eq,
    inv.ssizeOf_total small]

/-- The rest is not empty while `total` is below `len`. -/
theorem Invariant.rest_ne_nil (more : s.total < len) : (buf.take len).drop s.total ≠ [] := by
  have counters := inv.counters
  have length := inv.length_rest fits
  intro empty
  rw [empty, List.length_nil] at length
  omega

theorem Invariant.refines_count (small : len < 2 ^ 63) (more : s.total < len) {n : Nat}
    (le : n ≤ s.bytesleft) (next : Refines buf len (s.advance n) out) : Refines buf len s out := by
  obtain ⟨later, calls, outcome⟩ := next
  obtain ⟨front, rest⟩ := inv.advance_lists small le buf
  rw [← front, ← rest] at outcome
  refine ⟨⟨s.total, s.bytesleft, .count n⟩ :: later, ?_, ?_⟩
  · rw [calls]
    exact List.append_assoc ..
  · rw [eventsOf, List.map_cons, sendBytesLoop_event _ _ (inv.rest_ne_nil fits more)]
    exact outcome

theorem Invariant.refines_wouldBlock (small : len < 2 ^ 63) (more : s.total < len) :
    Refines buf len s ⟨ssizeOf s.total, s.called .wouldBlock⟩ := by
  refine ⟨[⟨s.total, s.bytesleft, .wouldBlock⟩], rfl, ?_⟩
  rw [eventsOf, List.map_singleton, sendBytesLoop_event _ _ (inv.rest_ne_nil fits more),
    inv.accepted_wouldBlock, inv.ssizeOf_total small, inv.length_take fits]

theorem Invariant.refines_error (more : s.total < len) :
    Refines buf len s ⟨-1, s.called .error⟩ := by
  refine ⟨[⟨s.total, s.bytesleft, .error⟩], rfl, ?_⟩
  rw [eventsOf, List.map_singleton, sendBytesLoop_event _ _ (inv.rest_ne_nil fits more),
    inv.accepted_error]

end Fits

end Events

/-! ## The loop -/

section Loop

variable {socket : Socket} {buf : List UInt8} {len : Nat} {s : LoopState}

theorem sendLoop_done (socket : Socket) (buf : List UInt8) (rounds : Nat)
    (done : ¬ s.total < len) :
    sendLoop socket buf len rounds s = .ok ⟨ssizeOf s.total, s.calls⟩ := by
  cases rounds <;> exact if_neg done

/-- A round that begins within the buffer reads nothing past it. -/
theorem Invariant.sendLoop_round (inv : Invariant len s) (fits : len ≤ buf.length)
    (more : s.total < len) (rounds : Nat) :
    sendLoop socket buf len (rounds + 1) s =
      match socket.result s.calls.length s.bytesleft with
      | .count n => sendLoop socket buf len rounds (s.advance n)
      | .wouldBlock => .ok ⟨ssizeOf s.total, s.called .wouldBlock⟩
      | .error => .ok ⟨-1, s.called .error⟩ := by
  have inside : ¬ buf.length < s.total + s.bytesleft := by
    rw [inv.counters]
    exact not_lt.mpr fits
  rw [sendLoop, if_pos more, if_neg inside]

/-- From a state that meets the invariant the loop returns: a round for each missing byte is
enough. -/
theorem sendLoop_returns (socket : Socket) (fits : len ≤ buf.length) (small : len < 2 ^ 63)
    (rounds : Nat) (inv : Invariant len s) (enough : s.bytesleft ≤ rounds) :
    ∃ out, sendLoop socket buf len rounds s = .ok out ∧ Delivered buf len out ∧
      Refines buf len s out := by
  induction rounds generalizing s with
  | zero =>
      have done : ¬ s.total < len := by
        have counters := inv.counters
        omega
      exact ⟨_, sendLoop_done socket buf 0 done, inv.delivered_done fits small done,
        inv.refines_done fits small⟩
  | succ rounds ih =>
      by_cases more : s.total < len
      · rw [inv.sendLoop_round fits more]
        cases answer : socket.result s.calls.length s.bytesleft with
        | count n =>
            obtain ⟨positive, le⟩ := socket.counts answer
            have fewer : (s.advance n).bytesleft ≤ rounds := by
              rw [(inv.advance_counters small le).2]
              omega
            obtain ⟨out, run, delivered, refines⟩ := ih (inv.advance small le) fewer
            exact ⟨out, run, delivered, inv.refines_count fits small more le refines⟩
        | wouldBlock =>
            exact ⟨_, rfl, inv.delivered_wouldBlock fits small,
              inv.refines_wouldBlock fits small more⟩
        | error => exact ⟨_, rfl, inv.delivered_error fits, inv.refines_error fits more⟩
      · exact ⟨_, sendLoop_done socket buf _ more, inv.delivered_done fits small more,
          inv.refines_done fits small⟩

theorem sendBytes_returns (socket : Socket) (buf : Block) (fits : len ≤ buf.bytes.length) :
    ∃ out, sendBytes socket buf.bytes len = .ok out ∧ Delivered buf.bytes len out ∧
      Refines buf.bytes len ⟨0, len, []⟩ out :=
  sendLoop_returns socket fits (lt_of_le_of_lt fits buf.small) len (Invariant.start len) le_rfl

/-- The counters of `send_bytes` compute what the loop over the lists of bytes does from the
events that its calls meet. -/
theorem sendBytes_refines {out : Outcome} (buf : Block) (fits : len ≤ buf.bytes.length)
    (run : sendBytes socket buf.bytes len = .ok out) :
    sendBytesOn (eventsOf out.calls) (buf.bytes.take len) =
      ⟨out.ret, accepted buf.bytes out.calls⟩ := by
  obtain ⟨out', run', _, later, calls, outcome⟩ := sendBytes_returns socket buf fits
  have same : out' = out := Except.ok.inj (run'.symm.trans run)
  have all : out'.calls = later := calls
  rw [← same, all]
  rw [all] at outcome
  exact outcome

end Loop

/-- `send_bytes` returns, whatever the calls of `send` return. What the socket has accepted is
a front of the buffer, which it returns the length of unless a call met a hard error, and no
call asks for bytes past the `len` bytes. -/
theorem sendBytes_delivers (socket : Socket) (buf : Block) (len : Nat)
    (fits : len ≤ buf.bytes.length) :
    ∃ out, sendBytes socket buf.bytes len = .ok out ∧ Delivered buf.bytes len out := by
  obtain ⟨out, run, delivered, _⟩ := sendBytes_returns socket buf fits
  exact ⟨out, run, delivered⟩

/-- A socket that takes two bytes, then one, and then fails. -/
def twoThenOne : Socket where
  result i size :=
    if i = 0 ∧ 2 ≤ size then .count 2
    else if i = 1 ∧ 1 ≤ size then .count 1
    else .error
  counts := by
    intro i size n
    split_ifs with first second
    · intro count
      cases count
      omega
    · intro count
      cases count
      omega
    · intro count
      cases count

theorem sendBytes_delivers_twoThenOne :
    ∃ out, sendBytes twoThenOne [104, 101, 108, 108, 111] 5 = .ok out ∧
      Delivered [104, 101, 108, 108, 111] 5 out ∧
      out = ⟨-1, [⟨0, 5, .count 2⟩, ⟨2, 3, .count 1⟩, ⟨3, 2, .error⟩]⟩ := by
  obtain ⟨out, run, delivered⟩ :=
    sendBytes_delivers twoThenOne ⟨[104, 101, 108, 108, 111], by decide⟩ 5 (by decide)
  have outcome : sendBytes twoThenOne [104, 101, 108, 108, 111] 5 =
      .ok ⟨-1, [⟨0, 5, .count 2⟩, ⟨2, 3, .count 1⟩, ⟨3, 2, .error⟩]⟩ := by decide
  exact ⟨out, run, delivered, Except.ok.inj (run.symm.trans outcome)⟩

end SolBroker.SendLoop
