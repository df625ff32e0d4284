import Mathlib
import SolBroker.Wire.Length

/-!
# Receiving from a non-blocking socket

What the calls of `recv` on one descriptor will meet is a list of events: chunks
of bytes that have arrived, a would-block, the end of the stream or an error. A
chunk longer than was asked for stays in the list with its rest. `recv_bytes`
loops over `recv` and `store` is its effect on the caller's block.
-/

namespace SolBroker

/-- What a call of `recv` can meet. A chunk has at least one byte. -/
inductive RecvEvent
  | data (first : UInt8) (more : List UInt8)
  | wouldBlock
  | eof
  | err
deriving DecidableEq, Repr

/-- The bytes that arrive before the first event that is no data. -/
def arrived : List RecvEvent → List UInt8
  | .data b more :: events => b :: more ++ arrived events
  | _ => []

/-- A chunk put back in front of the events, unless nothing of it is left. -/
def unread : List UInt8 → List RecvEvent → List RecvEvent
  | [], events => events
  | b :: more, events => .data b more :: events

@[simp] theorem arrived_unread (bytes : List UInt8) (events : List RecvEvent) :
    arrived (unread bytes events) = bytes ++ arrived events := by
  cases bytes <;> simp [unread, arrived]

/-- The outcome of `recv_bytes`: its return value, the bytes it stored and what
is left on the socket. -/
structure Received where
  ret : Int
  stored : List UInt8
  events : List RecvEvent
deriving DecidableEq, Repr

/-- The loop of `recv_bytes` with `total` already stored and `want` missing. The
end of the stream returns 0 whatever was stored before it. -/
def recvBytesLoop (total : List UInt8) : Nat → List RecvEvent → Received
  | 0, events => ⟨total.length, total, events⟩
  | _ + 1, [] => ⟨total.length, total, []⟩
  | want + 1, .data b more :: events =>
      let chunk := b :: more
      if want + 1 < chunk.length then
        ⟨(total ++ chunk.take (want + 1)).length, total ++ chunk.take (want + 1),
          unread (chunk.drop (want + 1)) events⟩
      else recvBytesLoop (total ++ chunk) (want + 1 - chunk.length) events
  | _ + 1, .wouldBlock :: events => ⟨total.length, total, events⟩
  | _ + 1, .eof :: events => ⟨0, total, .eof :: events⟩
  | _ + 1, .err :: events => ⟨-1, total, events⟩

def recvBytes (events : List RecvEvent) (bufsize : Nat) : Received :=
  recvBytesLoop [] bufsize events

/-- Asking for one byte of a stream that has one. -/
theorem recvBytes_one_cons {events : List RecvEvent} {b : UInt8} {rest : List UInt8}
    (h : arrived events = b :: rest) :
    ∃ events', recvBytes events 1 = ⟨1, [b], events'⟩ ∧ arrived events' = rest := by
  cases events with
  | nil => cases h
  | cons event events =>
      cases event with
      | data c more =>
          simp only [arrived, List.cons_append, List.cons.injEq] at h
          obtain ⟨rfl, rfl⟩ := h
          cases more with
          | nil =>
              refine ⟨events, ?_, rfl⟩
              cases events <;> simp [recvBytes, recvBytesLoop]
          | cons d more =>
              exact ⟨.data d more :: events, by simp [recvBytes, recvBytesLoop, unread], rfl⟩
      | wouldBlock => cases h
      | eof => cases h
      | err => cases h

/-- Asking for one byte when none arrives: whatever the reason, nothing is
stored and the result is not positive. -/
theorem recvBytes_one_nil {events : List RecvEvent} (h : arrived events = []) :
    (recvBytes events 1).ret ≤ 0 ∧ (recvBytes events 1).stored = [] := by
  cases events with
  | nil => exact ⟨le_refl _, rfl⟩
  | cons event events =>
      cases event with
      | data c more => cases h
      | wouldBlock => exact ⟨le_refl _, rfl⟩
      | eof => exact ⟨le_refl _, rfl⟩
      | err => exact ⟨(show (-1 : Int) ≤ 0 by decide), rfl⟩

/-! ### The caller's block -/

/-- Store bytes at an offset of an allocated block. -/
def store (block : List UInt8) (offset : Nat) (bytes : List UInt8) : Except Fault (List UInt8) :=
  if offset + bytes.length ≤ block.length then
    .ok (block.take offset ++ bytes ++ block.drop (offset + bytes.length))
  else .error .heapOverflow

theorem store_eq_ok_iff {block block' : List UInt8} {offset : Nat} {bytes : List UInt8} :
    store block offset bytes = .ok block' ↔ offset + bytes.length ≤ block.length ∧
      block' = block.take offset ++ bytes ++ block.drop (offset + bytes.length) := by
  unfold store
  split
  · rename_i fits
    simp [fits, eq_comm]
  · rename_i overflow
    simp [overflow]

theorem not_le_of_store_error {block : List UInt8} {offset : Nat} {bytes : List UInt8} {e : Fault}
    (h : store block offset bytes = .error e) : ¬ offset + bytes.length ≤ block.length := by
  intro fits
  rw [store, if_pos fits] at h
  cases h

theorem length_of_store {block block' : List UInt8} {offset : Nat} {bytes : List UInt8}
    (h : store block offset bytes = .ok block') : block'.length = block.length := by
  obtain ⟨fits, rfl⟩ := store_eq_ok_iff.mp h
  simp only [List.length_append, List.length_take, List.length_drop]
  omega

/-- Storing behind the first byte leaves it. -/
theorem head?_of_store {block block' : List UInt8} {offset : Nat} {bytes : List UInt8}
    (behind : 0 < offset) (h : store block offset bytes = .ok block') :
    block'.head? = block.head? := by
  obtain ⟨fits, rfl⟩ := store_eq_ok_iff.mp h
  cases block with
  | nil =>
      simp only [List.length_nil] at fits
      omega
  | cons b block =>
      obtain ⟨n, rfl⟩ : ∃ n, offset = n + 1 := ⟨offset - 1, by omega⟩
      simp

/-- The one-byte reads of `recv_packet`: ask for a byte into the block at
`offset`; `none` when `recv_bytes` returns no positive count. -/
def recvByte (events : List RecvEvent) (block : List UInt8) (offset : Nat) :
    Except Fault (Option UInt8 × List RecvEvent × List UInt8) := do
  let r := recvBytes events 1
  let block ← store block offset r.stored
  if r.ret ≤ 0 then return (none, r.events, block)
  else return (r.stored.head?, r.events, block)

theorem recvByte_nil {events : List RecvEvent} {block : List UInt8} {offset : Nat}
    (h : arrived events = []) (room : offset ≤ block.length) :
    recvByte events block offset = .ok (none, (recvBytes events 1).events, block) := by
  obtain ⟨ret, stored⟩ := recvBytes_one_nil h
  have kept : store block offset [] = .ok block :=
    store_eq_ok_iff.mpr ⟨by simpa using room, by simp⟩
  simp only [recvByte, stored, kept]
  change (if _ then _ else _) = _
  rw [if_pos ret]
  rfl

theorem recvByte_overflow {events : List RecvEvent} {block : List UInt8} {offset : Nat}
    (h : arrived events = []) (outside : ¬ offset ≤ block.length) :
    recvByte events block offset = .error .heapOverflow := by
  obtain ⟨_, stored⟩ := recvBytes_one_nil h
  have overflow : store block offset [] = .error .heapOverflow := if_neg (by simpa using outside)
  simp only [recvByte, stored, overflow]
  rfl

theorem recvByte_cons {events : List RecvEvent} {b : UInt8} {rest : List UInt8}
    (h : arrived events = b :: rest) (block : List UInt8) (offset : Nat) :
    ∃ events', arrived events' = rest ∧ recvByte events block offset =
      (store block offset [b]).map fun block' => (some b, events', block') := by
  obtain ⟨events', received, left⟩ := recvBytes_one_cons h
  refine ⟨events', left, ?_⟩
  simp only [recvByte, received]
  cases store block offset [b] <;> rfl

end SolBroker
