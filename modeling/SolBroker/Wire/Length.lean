import Mathlib
import SolBroker.Wire.Pack

/-!
# The Remaining Length field

`mqtt_encode_length` and `mqtt_decode_length`. The decoder multiplies in `int`;
a fifth length byte would overflow that multiplication, which is a fault of the
decoder and not a value. Below `2 ^ 28` decoding undoes encoding whatever follows.
-/

namespace SolBroker

open Reading

/-- The encoder's loop with `room` bytes left of `MAX_LEN_BYTES`. -/
def encodeLengthLoop : Nat → Nat → List UInt8
  | 0, _ => []
  | room + 1, len =>
      let d := UInt8.ofNat (len % 128)
      if 0 < len / 128 then (d ||| 128) :: encodeLengthLoop room (len / 128) else [d]

/-- `MAX_LEN_BYTES`. -/
def maxLenBytes : Nat := 4

/-- The bytes `mqtt_encode_length` stores; their number is what it returns. -/
def mqttEncodeLength (len : Nat) : List UInt8 := encodeLengthLoop maxLenBytes len

/-- The decoder's loop, one length byte at a time. -/
def decodeLengthLoop (multiplier value : Nat) : ByteReader Nat
  | [] => .error .outOfBounds
  | c :: buf =>
      let digit := (c &&& 127).toNat * multiplier
      if intMax < digit ∨ intMax < multiplier * 128 then .error .intOverflow
      else if c &&& 128 ≠ 0 then decodeLengthLoop (multiplier * 128) (value + digit) buf
      else .ok (value + digit, buf)

def mqttDecodeLength : ByteReader Nat := decodeLengthLoop 1 0

theorem and_127_toNat (c : UInt8) : (c &&& 127).toNat = c.toNat % 128 := by
  rw [UInt8.toNat_and]
  exact Nat.and_two_pow_sub_one_eq_mod c.toNat 7

/-- The continuation bit is the top bit of a byte. -/
theorem and_128_ne_zero_iff (c : UInt8) : c &&& 128 ≠ 0 ↔ 128 ≤ c.toNat := by
  have small := c.toNat_lt
  have masked : (c &&& 128).toNat = (c.toNat.testBit 7).toNat * 128 := by
    rw [UInt8.toNat_and]
    exact Nat.and_two_pow c.toNat 7
  have bit : c.toNat.testBit 7 = decide (128 ≤ c.toNat) := by
    rw [Nat.testBit_eq_decide_div_mod_eq, decide_eq_decide]
    omega
  rw [Ne, ← UInt8.toNat_inj, masked, bit]
  by_cases high : 128 ≤ c.toNat <;> simp [high]

theorem ofNat_or_128_toNat {d : Nat} (h : d < 128) :
    (UInt8.ofNat d ||| 128).toNat = d + 128 := by
  have disjoint : 2 ^ 7 * 1 + d = 2 ^ 7 * 1 ||| d := Nat.two_pow_add_eq_or_of_lt h 1
  have byte : (UInt8.ofNat d).toNat = d := UInt8.toNat_ofNat_of_lt' (by simp [UInt8.size]; omega)
  rw [UInt8.toNat_or, byte, Nat.add_comm, Nat.lor_comm]
  exact disjoint.symm

/-- One byte of the decoder on a byte that announces another one. -/
theorem decodeLengthLoop_more {multiplier value : Nat} {c : UInt8} {buf : List UInt8}
    (more : 128 ≤ c.toNat) (small : multiplier * 128 ≤ intMax) :
    decodeLengthLoop multiplier value (c :: buf) =
      decodeLengthLoop (multiplier * 128) (value + c.toNat % 128 * multiplier) buf := by
  have digit : c.toNat % 128 * multiplier ≤ intMax :=
    le_trans (by rw [Nat.mul_comm]; exact Nat.mul_le_mul_left _ (by omega)) small
  simp only [decodeLengthLoop, and_127_toNat]
  rw [if_neg (by omega), if_pos ((and_128_ne_zero_iff c).mpr more)]

/-- One byte of the decoder on the last length byte. -/
theorem decodeLengthLoop_last {multiplier value : Nat} {c : UInt8} {buf : List UInt8}
    (last : c.toNat < 128) (small : multiplier * 128 ≤ intMax) :
    decodeLengthLoop multiplier value (c :: buf) =
      .ok (value + c.toNat * multiplier, buf) := by
  have digit : c.toNat * multiplier ≤ intMax :=
    le_trans (by rw [Nat.mul_comm]; exact Nat.mul_le_mul_left _ (by omega)) small
  simp only [decodeLengthLoop, and_127_toNat, Nat.mod_eq_of_lt last]
  rw [if_neg (by omega), if_neg (fun more => by
    have := (and_128_ne_zero_iff c).mp more
    omega)]

private theorem decodeLengthLoop_encode (room multiplier value len : Nat) (rest : List UInt8)
    (fits : len < 128 ^ room) (small : multiplier * 128 ^ room ≤ 2 ^ 28) (positive : 0 < room) :
    decodeLengthLoop multiplier value (encodeLengthLoop room len ++ rest) =
      .ok (value + len * multiplier, rest) := by
  induction room generalizing multiplier value len with
  | zero => omega
  | succ room ih =>
      have power : multiplier * 128 * 128 ^ room ≤ 2 ^ 28 := by
        rw [Nat.mul_assoc, ← Nat.pow_succ']
        exact small
      have bound : multiplier * 128 ≤ intMax := by
        have : multiplier * 128 * 1 ≤ multiplier * 128 * 128 ^ room :=
          Nat.mul_le_mul_left _ (Nat.one_le_pow _ _ (by decide))
        unfold intMax
        omega
      have digit : len % 128 < 128 := Nat.mod_lt _ (by decide)
      rw [encodeLengthLoop]
      by_cases more : 0 < len / 128
      · rw [if_pos more, List.cons_append]
        have byte := ofNat_or_128_toNat digit
        have roomy : 0 < room := by
          rcases Nat.eq_zero_or_pos room with rfl | h
          · simp at fits
            omega
          · exact h
        have smaller : len / 128 < 128 ^ room :=
          Nat.div_lt_of_lt_mul (by rwa [Nat.pow_succ'] at fits)
        rw [decodeLengthLoop_more (by omega) bound, byte, ih _ _ _ smaller power roomy]
        have split : len = 128 * (len / 128) + len % 128 := (Nat.div_add_mod len 128).symm
        have value_eq : value + (len % 128 + 128) % 128 * multiplier +
            len / 128 * (multiplier * 128) = value + len * multiplier := by
          conv_rhs => rw [split]
          rw [Nat.add_mod_right, Nat.mod_mod]
          ring
        rw [value_eq]
      · rw [if_neg more, List.singleton_append]
        have whole : len % 128 = len := Nat.mod_eq_of_lt (by omega)
        have byte : (UInt8.ofNat (len % 128)).toNat = len := by
          rw [whole, UInt8.toNat_ofNat_of_lt' (by simp [UInt8.size]; omega)]
        rw [decodeLengthLoop_last (by omega) bound, byte]

/-- Decoding an encoded length returns it and stops at what follows. -/
theorem mqttDecodeLength_encode {len : Nat} (fits : len < 2 ^ 28) (rest : List UInt8) :
    mqttDecodeLength (mqttEncodeLength len ++ rest) = .ok (len, rest) := by
  rw [mqttDecodeLength, mqttEncodeLength,
    decodeLengthLoop_encode maxLenBytes 1 0 len rest fits (by decide) (by decide)]
  simp

/-- The width of an encoded length. -/
theorem length_mqttEncodeLength {len : Nat} (fits : len < 2 ^ 28) :
    (mqttEncodeLength len).length =
      if len < 128 then 1 else if len < 16384 then 2 else if len < 2097152 then 3 else 4 := by
  simp only [mqttEncodeLength, maxLenBytes, encodeLengthLoop]
  split_ifs <;> simp <;> omega

end SolBroker
