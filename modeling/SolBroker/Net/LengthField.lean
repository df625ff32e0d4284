import Mathlib
import SolBroker.Net.Receive

/-!
# The Remaining Length codec

What `mqtt_encode_length` writes is a complete length field, the shortest one for its
number, and what `mqtt_decode_length` reads is one too. A field of several bytes that ends
in zero is the only kind that is not written again as it was read.
-/

namespace SolBroker

theorem lengthValue_lt_pow (field : List UInt8) : lengthValue field < 128 ^ field.length := by
  induction field with
  | nil => exact Nat.one_pos
  | cons c field ih =>
      have digit : c.toNat % 128 < 128 := Nat.mod_lt _ (by decide)
      rw [lengthValue, List.length_cons, Nat.pow_succ']
      omega

/-- The encoder's loop writes a complete field, if there is room for the number. -/
theorem isLengthField_encodeLengthLoop {room len : Nat} (positive : 0 < room)
    (fits : len < 128 ^ room) : IsLengthField (encodeLengthLoop room len) := by
  induction room generalizing len with
  | zero => omega
  | succ room ih =>
      have digit : len % 128 < 128 := Nat.mod_lt _ (by decide)
      rw [encodeLengthLoop]
      by_cases more : 0 < len / 128
      · have smaller : len / 128 < 128 ^ room :=
          Nat.div_lt_of_lt_mul (by rwa [Nat.pow_succ'] at fits)
        have roomy : 0 < room := by
          apply Nat.pos_of_ne_zero
          intro none_
          rw [none_, Nat.pow_zero] at smaller
          omega
        have byte := ofNat_or_128_toNat digit
        rw [if_pos more, isLengthField_cons_iff (by omega)]
        exact ih roomy smaller
      · rw [if_neg more]
        refine isLengthField_singleton ?_
        rw [UInt8.toNat_ofNat_of_lt' (by simp [UInt8.size]; omega)]
        exact digit

/-- What the decoder's loop reads is a complete field, and no more than that. -/
theorem decodeLengthLoop_ok {multiplier value len : Nat} {buf rest : List UInt8}
    (decoded : decodeLengthLoop multiplier value buf = .ok (len, rest)) :
    ∃ field, IsLengthField field ∧ buf = field ++ rest ∧
      len = value + lengthValue field * multiplier := by
  induction buf generalizing multiplier value with
  | nil => cases decoded
  | cons c buf ih =>
      simp only [decodeLengthLoop, and_127_toNat] at decoded
      split at decoded
      · cases decoded
      · split at decoded
        · rename_i more
          obtain ⟨field, complete, rfl, rfl⟩ := ih decoded
          have more : 128 ≤ c.toNat := (and_128_ne_zero_iff c).mp more
          refine ⟨c :: field, (isLengthField_cons_iff more).mpr complete, rfl, ?_⟩
          rw [lengthValue]
          ring
        · rename_i last
          cases decoded
          have last : c.toNat < 128 := not_le.mp fun more => last ((and_128_ne_zero_iff c).mpr more)
          refine ⟨[c], isLengthField_singleton last, rfl, ?_⟩
          simp [lengthValue]

theorem lengthValue_pos {field : List UInt8} (complete : IsLengthField field)
    (nonzero : field.getLast? ≠ some 0) : 0 < lengthValue field := by
  induction field with
  | nil => exact absurd rfl complete.ne_nil
  | cons c field ih =>
      rw [lengthValue]
      by_cases more : 128 ≤ c.toNat
      · have inner := (isLengthField_cons_iff more).mp complete
        obtain ⟨d, tail, rfl⟩ := List.exists_cons_of_ne_nil inner.ne_nil
        have := ih inner (by rwa [List.getLast?_cons_cons] at nonzero)
        omega
      · obtain rfl := complete.eq_singleton (by omega)
        have : c.toNat ≠ 0 := fun zero => nonzero (congrArg some (UInt8.toNat_inj.mp zero))
        omega

/-- A field that does not end in zero, or is of one byte, is written as it was read. -/
theorem encodeLengthLoop_lengthValue {room : Nat} {field : List UInt8}
    (complete : IsLengthField field) (few : field.length ≤ room)
    (canonical : field.length = 1 ∨ field.getLast? ≠ some 0) :
    encodeLengthLoop room (lengthValue field) = field := by
  induction field generalizing room with
  | nil => exact absurd rfl complete.ne_nil
  | cons c field ih =>
      obtain ⟨room, rfl⟩ : ∃ room', room = room' + 1 :=
        Nat.exists_eq_succ_of_ne_zero (by rintro rfl; simp at few)
      have small : c.toNat % 128 < 128 := Nat.mod_lt _ (by decide)
      have digit : (c.toNat % 128 + 128 * lengthValue field) % 128 = c.toNat % 128 := by omega
      have above : (c.toNat % 128 + 128 * lengthValue field) / 128 = lengthValue field := by omega
      rw [lengthValue, encodeLengthLoop, digit, above]
      by_cases more : 128 ≤ c.toNat
      · have inner := (isLengthField_cons_iff more).mp complete
        obtain ⟨d, tail, rfl⟩ := List.exists_cons_of_ne_nil inner.ne_nil
        have nonzero : (d :: tail).getLast? ≠ some 0 := by
          rcases canonical with single | nonzero
          · simp at single
          · rwa [List.getLast?_cons_cons] at nonzero
        have byte : UInt8.ofNat (c.toNat % 128) ||| 128 = c := by
          have high := c.toNat_lt
          rw [← UInt8.toNat_inj, ofNat_or_128_toNat small]
          omega
        rw [if_pos (lengthValue_pos inner nonzero), byte,
          ih inner (by simpa using few) (.inr nonzero)]
      · obtain rfl := complete.eq_singleton (by omega)
        have byte : UInt8.ofNat (c.toNat % 128) = c := by
          rw [Nat.mod_eq_of_lt (by omega), UInt8.ofNat_toNat]
        rw [lengthValue, if_neg (lt_irrefl 0), byte]

/-- Below `2 ^ 28` the encoder writes one to four bytes, as few as can be decoded to the
number, all but the last with the continuation bit; decoding them, whatever follows, gives
the number back and stops behind them. And what is decoded from a field that does not
end in a needless zero is encoded to that field. -/
theorem remainingLength_roundTrip :
    (∀ len < 2 ^ 28, 1 ≤ (mqttEncodeLength len).length ∧ (mqttEncodeLength len).length ≤ 4 ∧
      IsLengthField (mqttEncodeLength len) ∧
      (∀ field, mqttDecodeLength field = .ok (len, []) →
        (mqttEncodeLength len).length ≤ field.length) ∧
      ∀ rest, mqttDecodeLength (mqttEncodeLength len ++ rest) = .ok (len, rest)) ∧
    ∀ field, IsLengthField field → field.length ≤ 4 →
      (field.length = 1 ∨ field.getLast? ≠ some 0) → ∀ rest,
        ∃ len, mqttDecodeLength (field ++ rest) = .ok (len, rest) ∧
          mqttEncodeLength len = field := by
  constructor
  · intro len fits
    have width := length_mqttEncodeLength fits
    refine ⟨by split_ifs at width <;> omega, by split_ifs at width <;> omega,
      isLengthField_encodeLengthLoop (by decide) fits, fun field decoded => ?_,
      mqttDecodeLength_encode fits⟩
    obtain ⟨field, complete, rfl, value⟩ := decodeLengthLoop_ok decoded
    have positive := List.length_pos_iff.mpr complete.ne_nil
    have below := lengthValue_lt_pow field
    rw [Nat.zero_add, Nat.mul_one] at value
    rw [← value] at below
    rw [List.append_nil, width]
    rcases width : field.length with _ | _ | _ | _ | n <;> rw [width] at below positive <;>
      split_ifs <;> omega
  · intro field complete few canonical rest
    exact ⟨lengthValue field, mqttDecodeLength_field_append complete few rest,
      encodeLengthLoop_lengthValue complete few canonical⟩

end SolBroker
