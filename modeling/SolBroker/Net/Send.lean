import Mathlib

/-!
# Sending on a non-blocking socket

What the calls of `send` on one descriptor will meet is a list of events: a count of
bytes that are taken, a would-block or an error. `send_bytes` loops over `send` until the
buffer has been taken or a call takes nothing, and returns what has been taken, which may
be less than it was given.
-/

namespace SolBroker

/-- What a call of `send` can meet. A count larger than what is left takes all of it. -/
inductive SendEvent
  | taken (n : Nat)
  | wouldBlock
  | err
deriving DecidableEq, Repr

/-- The outcome of `send_bytes`: its return value and the bytes the socket has taken. -/
structure SendBytes where
  ret : Int
  accepted : List UInt8
deriving DecidableEq, Repr

/-- The loop of `send_bytes`, with `total` already taken and the rest of the buffer. A socket
of which nothing more is known takes nothing more. -/
def sendBytesLoop : List SendEvent → List UInt8 → List UInt8 → SendBytes
  | _, total, [] => ⟨total.length, total⟩
  | [], total, _ :: _ => ⟨total.length, total⟩
  | .taken n :: events, total, b :: bytesleft =>
      sendBytesLoop events (total ++ (b :: bytesleft).take n) ((b :: bytesleft).drop n)
  | .wouldBlock :: _, total, _ :: _ => ⟨total.length, total⟩
  | .err :: _, total, _ :: _ => ⟨-1, total⟩

def sendBytesOn (events : List SendEvent) (buf : List UInt8) : SendBytes :=
  sendBytesLoop events [] buf

/-- How many bytes are taken before the first event that is no count. -/
def capacity : List SendEvent → Nat
  | .taken n :: events => n + capacity events
  | _ => 0

theorem sendBytesLoop_accepted (events : List SendEvent) (total bytesleft : List UInt8) :
    (sendBytesLoop events total bytesleft).accepted =
      total ++ bytesleft.take (capacity events) := by
  induction events generalizing total bytesleft with
  | nil => cases bytesleft <;> simp [sendBytesLoop, capacity]
  | cons event events ih =>
      cases bytesleft with
      | nil => simp [sendBytesLoop]
      | cons b bytesleft =>
          cases event with
          | taken n =>
              rw [sendBytesLoop, ih, capacity, List.take_add, List.append_assoc]
          | wouldBlock | err => simp [sendBytesLoop, capacity]

/-- What has been taken is the front of the buffer. -/
theorem sendBytesOn_accepted (events : List SendEvent) (buf : List UInt8) :
    (sendBytesOn events buf).accepted = buf.take (capacity events) :=
  sendBytesLoop_accepted events [] buf

theorem sendBytesLoop_ret {events : List SendEvent} (soft : .err ∉ events)
    (total bytesleft : List UInt8) :
    (sendBytesLoop events total bytesleft).ret =
      (sendBytesLoop events total bytesleft).accepted.length := by
  induction events generalizing total bytesleft with
  | nil => cases bytesleft <;> rfl
  | cons event events ih =>
      rw [List.mem_cons, not_or] at soft
      cases bytesleft with
      | nil => rfl
      | cons b bytesleft =>
          cases event with
          | taken n => exact ih soft.2 _ _
          | wouldBlock => rfl
          | err => exact absurd rfl soft.1

/-- Without an error it returns how much has been taken. -/
theorem sendBytesOn_ret {events : List SendEvent} (soft : .err ∉ events) (buf : List UInt8) :
    (sendBytesOn events buf).ret = (sendBytesOn events buf).accepted.length :=
  sendBytesLoop_ret soft [] buf

end SolBroker
