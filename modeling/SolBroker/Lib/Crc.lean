import Mathlib

/-!
# Cyclic redundancy checks

A checksum whose register is shifted by several bits at a time, what falls out of it being
looked up in a table. Bits are read as coefficients over the two-element field, the lowest bit
of a number first. If every entry of the table is a remainder, the checksum of a message is the
remainder of the whole message, and everything about collisions is a matter of divisibility.
-/

namespace Crc

open Polynomial

/-! ## Bits as coefficients -/

/-- The lowest `n` bits of a number, the lowest of them as the leading coefficient. -/
noncomputable def bits (n x : Nat) : (ZMod 2)[X] :=
  ∑ j ∈ Finset.range n, C ((x.testBit (n - 1 - j)).toNat : ZMod 2) * X ^ j

section Bits

variable {m n x y : Nat}

theorem coeff_bits (n x j : Nat) :
    (bits n x).coeff j = if j < n then ((x.testBit (n - 1 - j)).toNat : ZMod 2) else 0 := by
  rw [bits, finsetSum_coeff]
  simp only [coeff_C_mul_X_pow, Finset.sum_ite_eq, Finset.mem_range]

theorem degree_bits_lt (n x : Nat) : (bits n x).degree < n := by
  rw [degree_lt_iff_coeff_zero]
  intro j beyond
  rw [coeff_bits, if_neg (not_lt.mpr beyond)]

@[simp] theorem bits_zero (n : Nat) : bits n 0 = 0 := by
  ext j
  rw [coeff_bits, Nat.zero_testBit]
  simp

theorem bits_xor (n x y : Nat) : bits n (x ^^^ y) = bits n x + bits n y := by
  have sum (a b : Bool) : ((a ^^ b).toNat : ZMod 2) = a.toNat + b.toNat := by
    cases a <;> cases b <;> decide
  ext j
  rw [coeff_add, coeff_bits, coeff_bits, coeff_bits, Nat.testBit_xor, sum]
  split
  · rfl
  · rw [add_zero]

theorem bits_mod (n x : Nat) : bits n (x % 2 ^ n) = bits n x := by
  ext j
  rw [coeff_bits, coeff_bits]
  split
  · rw [Nat.testBit_mod_two_pow, decide_eq_true (by omega), Bool.true_and]
  · rfl

/-- The first bits of a number and the others. -/
theorem bits_add (m n x : Nat) : bits (m + n) x = X ^ n * bits m x + bits n (x >>> m) := by
  ext j
  rw [coeff_add, coeff_X_pow_mul', coeff_bits, coeff_bits, coeff_bits, Nat.testBit_shiftRight]
  by_cases low : j < n
  · rw [if_pos (by omega), if_neg (by omega), if_pos low, zero_add]
    congr 3
    omega
  · rw [if_pos (not_lt.mp low), if_neg low, add_zero]
    by_cases inside : j < m + n
    · rw [if_pos inside, if_pos (by omega)]
      congr 3
      omega
    · rw [if_neg inside, if_neg (by omega)]

/-- Shifting a register moves its first bits out in front of it. -/
theorem X_pow_mul_bits (narrow : m ≤ n) (small : x < 2 ^ n) :
    X ^ m * bits n x = X ^ n * bits m x + bits n (x >>> m) := by
  obtain ⟨d, rfl⟩ := Nat.exists_eq_add_of_le narrow
  have back : bits (m + d) (x >>> m) = X ^ m * bits d (x >>> m) := by
    have empty : (x >>> m) >>> d = 0 := by
      rw [← Nat.shiftRight_add, Nat.shiftRight_eq_div_pow]
      exact Nat.div_eq_of_lt small
    rw [Nat.add_comm m d, bits_add, empty, bits_zero, add_zero]
  rw [back, bits_add, pow_add]
  ring

/-- A number is known by its bits. -/
theorem bits_injective (small : x < 2 ^ n) (small' : y < 2 ^ n) (same : bits n x = bits n y) :
    x = y := by
  have bit (a b : Bool) (equal : (a.toNat : ZMod 2) = b.toNat) : a = b := by
    revert equal
    cases a <;> cases b <;> decide
  apply Nat.eq_of_testBit_eq
  intro i
  by_cases inside : i < n
  · have coefficient := congrArg (fun p => coeff p (n - 1 - i)) same
    simp only [coeff_bits] at coefficient
    rw [if_pos (by omega), if_pos (by omega), Nat.sub_sub_self (by omega)] at coefficient
    exact bit _ _ coefficient
  · have beyond : 2 ^ n ≤ 2 ^ i := Nat.pow_le_pow_right (by decide) (not_lt.mp inside)
    rw [Nat.testBit_lt_two_pow (small.trans_le beyond),
      Nat.testBit_lt_two_pow (small'.trans_le beyond)]

end Bits

/-! ## Messages -/

/-- A message of chunks of `k` bits. -/
noncomputable def message (k : Nat) (s : List Nat) : (ZMod 2)[X] :=
  s.foldl (fun p b => X ^ k * p + bits k b) 0

section Messages

variable {k : Nat} {s s' t : List Nat}

theorem message_concat (k : Nat) (s : List Nat) (b : Nat) :
    message k (s ++ [b]) = X ^ k * message k s + bits k b := by
  rw [message, List.foldl_append]
  rfl

theorem message_append (k : Nat) (s t : List Nat) :
    message k (s ++ t) = X ^ (k * t.length) * message k s + message k t := by
  induction t using List.reverseRecOn with
  | nil => simp [message]
  | append_singleton t b ih =>
      rw [← List.append_assoc, message_concat, ih, message_concat, List.length_append,
        List.length_singleton, Nat.mul_add, pow_add, Nat.mul_one]
      ring

theorem degree_message_lt (k : Nat) (s : List Nat) :
    (message k s).degree < (k * s.length : Nat) := by
  induction s using List.reverseRecOn with
  | nil =>
      rw [message, List.foldl_nil, degree_zero]
      exact WithBot.bot_lt_coe _
  | append_singleton s b ih =>
      rw [degree_lt_iff_coeff_zero] at ih ⊢
      intro j beyond
      rw [List.length_append, List.length_singleton, Nat.mul_add, Nat.mul_one] at beyond
      rw [message_concat, coeff_add, coeff_X_pow_mul', if_pos (by omega), ih _ (by omega),
        coeff_bits, if_neg (by omega), add_zero]

/-- Messages of the same length with the same coefficients are the same. -/
theorem message_injective (small : ∀ b ∈ s, b < 2 ^ k) (small' : ∀ b ∈ s', b < 2 ^ k)
    (length : s.length = s'.length) (same : message k s = message k s') : s = s' := by
  induction s using List.reverseRecOn generalizing s' with
  | nil => exact (List.length_eq_zero_iff.mp length.symm).symm
  | append_singleton s b ih =>
      obtain rfl | ⟨s', b', rfl⟩ := List.eq_nil_or_concat s'
      · simp at length
      · rw [List.concat_eq_append] at *
        rw [message_concat, message_concat] at same
        have low : bits k b = bits k b' := by
          ext j
          by_cases inside : j < k
          · have coefficient := congrArg (fun p => coeff p j) same
            simpa [coeff_X_pow_mul', not_le.mpr inside] using coefficient
          · rw [coeff_bits, coeff_bits, if_neg inside, if_neg inside]
        rw [low, add_left_inj] at same
        have front : message k s = message k s' := mul_left_cancel₀ (pow_ne_zero k X_ne_zero) same
        rw [bits_injective (small b (by simp)) (small' b' (by simp)) low,
          ih (fun c member => small c (List.mem_append_left _ member))
            (fun c member => small' c (List.mem_append_left _ member)) (by simpa using length)
            front]

end Messages

/-! ## Checksums -/

/-- A chunk is shifted in, and the table entry of what falls out is added. -/
def shiftIn (tab : Nat → Nat) (k r b : Nat) : Nat :=
  tab ((r ^^^ b) % 2 ^ k) ^^^ r >>> k

/-- The register after a message, from zero. -/
def checksum (tab : Nat → Nat) (k : Nat) (s : List Nat) : Nat :=
  s.foldl (shiftIn tab k) 0

/-- The entries of the table are the remainders of what they stand for, modulo `G`. -/
structure Table (G : (ZMod 2)[X]) (w k : Nat) (tab : Nat → Nat) : Prop where
  narrow : k ≤ w
  below : ∀ i < 2 ^ k, tab i < 2 ^ w
  remainder : ∀ i < 2 ^ k, AdjoinRoot.mk G (bits w (tab i)) = AdjoinRoot.mk G (X ^ w * bits k i)

section Checksums

variable {G : (ZMod 2)[X]} {w k r : Nat} {tab : Nat → Nat} {s s' : List Nat}

namespace Table

variable (table : Table G w k tab)
include table

theorem shiftIn_lt (small : r < 2 ^ w) (b : Nat) : shiftIn tab k r b < 2 ^ w :=
  Nat.xor_lt_two_pow (table.below _ (Nat.mod_lt _ (Nat.two_pow_pos k)))
    ((Nat.shiftRight_le r k).trans_lt small)

/-- One chunk more, modulo `G`. -/
theorem mk_shiftIn (small : r < 2 ^ w) (b : Nat) :
    AdjoinRoot.mk G (bits w (shiftIn tab k r b)) =
      AdjoinRoot.mk G (X ^ k * bits w r + X ^ w * bits k b) := by
  have front := table.remainder ((r ^^^ b) % 2 ^ k) (Nat.mod_lt _ (Nat.two_pow_pos k))
  rw [shiftIn, bits_xor, map_add, front, bits_mod, bits_xor, X_pow_mul_bits table.narrow small]
  simp only [map_add, map_mul]
  ring

theorem checksum_lt (s : List Nat) : checksum tab k s < 2 ^ w := by
  induction s using List.reverseRecOn with
  | nil => exact Nat.two_pow_pos w
  | append_singleton s b ih =>
      rw [checksum, List.foldl_append]
      exact table.shiftIn_lt ih b

theorem mk_checksum (s : List Nat) :
    AdjoinRoot.mk G (bits w (checksum tab k s)) = AdjoinRoot.mk G (X ^ w * message k s) := by
  induction s using List.reverseRecOn with
  | nil =>
      rw [checksum, List.foldl_nil, bits_zero, message, List.foldl_nil, mul_zero]
  | append_singleton s b ih =>
      rw [checksum, List.foldl_append]
      refine (table.mk_shiftIn (table.checksum_lt s) b).trans ?_
      rw [message_concat, map_add, map_mul, ih]
      simp only [map_add, map_mul]
      ring

/-- The checksum is the remainder of the message, moved up by the width of the register. -/
theorem bits_checksum (monic : G.Monic) (degree : G.degree = w) (s : List Nat) :
    bits w (checksum tab k s) = (X ^ w * message k s) %ₘ G := by
  have own : bits w (checksum tab k s) %ₘ G = bits w (checksum tab k s) :=
    (modByMonic_eq_self_iff monic).mpr (degree ▸ degree_bits_lt w _)
  rw [← own]
  exact modByMonic_eq_of_dvd_sub monic (AdjoinRoot.mk_eq_mk.mp (table.mk_checksum s))

variable (apart : IsCoprime G X)
include apart

/-- Messages have the same checksum exactly if `G` divides their difference. -/
theorem checksum_eq_iff (monic : G.Monic) (degree : G.degree = w) :
    checksum tab k s = checksum tab k s' ↔ G ∣ message k s - message k s' := by
  have difference : X ^ w * message k s - X ^ w * message k s' =
      X ^ w * (message k s - message k s') := (mul_sub _ _ _).symm
  constructor
  · intro same
    have equal := (table.mk_checksum s).symm.trans (same ▸ table.mk_checksum s')
    have divides := AdjoinRoot.mk_eq_mk.mp equal
    rw [difference] at divides
    exact apart.pow_right.dvd_of_dvd_mul_left divides
  · intro divides
    apply bits_injective (table.checksum_lt s) (table.checksum_lt s')
    rw [table.bits_checksum monic degree, table.bits_checksum monic degree]
    apply modByMonic_eq_of_dvd_sub monic
    rw [difference]
    exact divides.mul_left _

/-- A difference that fits into the register is always seen, wherever it stands. -/
theorem checksum_ne_of_burst (monic : G.Monic) (degree : G.degree = w) {p : (ZMod 2)[X]} {j : Nat}
    (burst : message k s - message k s' = X ^ j * p) (some_ : p ≠ 0) (short : p.degree < w) :
    checksum tab k s ≠ checksum tab k s' := by
  intro same
  have divides := (table.checksum_eq_iff apart monic degree).mp same
  rw [burst] at divides
  have inner := apart.pow_right.dvd_of_dvd_mul_left divides
  exact not_dvd_of_degree_lt some_ (degree ▸ short) inner

/-- Two messages that differ only in consecutive chunks of no more bits than the register. -/
theorem checksum_ne_of_window (monic : G.Monic) (degree : G.degree = w)
    {front own own' back : List Nat} (small : ∀ b ∈ own, b < 2 ^ k) (small' : ∀ b ∈ own', b < 2 ^ k)
    (length : own.length = own'.length) (short : k * own.length ≤ w) (differ : own ≠ own') :
    checksum tab k (front ++ own ++ back) ≠ checksum tab k (front ++ own' ++ back) := by
  apply table.checksum_ne_of_burst apart monic degree (j := k * back.length)
    (p := message k own - message k own')
  · simp only [message_append, length]
    ring
  · intro none_
    exact differ (message_injective small small' length (sub_eq_zero.mp none_))
  · have bound (s : List Nat) (same : s.length = own.length) : (message k s).degree < w :=
      (degree_message_lt k s).trans_le (Nat.cast_le.mpr (same ▸ short))
    exact (degree_sub_le _ _).trans_lt (max_lt (bound own rfl) (bound own' length.symm))

end Table

end Checksums

/-! ## Division, a bit at a time -/

/-- A register is shifted by one bit, and the divisor is taken off if a bit falls out. -/
def divide (P x : Nat) : Nat :=
  if x.testBit 0 then (x >>> 1) ^^^ P else x >>> 1

/-- The divisor with the coefficients of `P`, the leading one left out of it. -/
noncomputable def divisor (w P : Nat) : (ZMod 2)[X] :=
  X ^ w + bits w P

section Division

variable {w k P x : Nat}

theorem monic_divisor (w P : Nat) : (divisor w P).Monic :=
  monic_X_pow_add (degree_bits_lt w P)

theorem degree_divisor (w P : Nat) : (divisor w P).degree = w := by
  rw [divisor, degree_add_eq_left_of_degree_lt, degree_X_pow]
  rw [degree_X_pow]
  exact degree_bits_lt w P

/-- A divisor with a constant term. -/
theorem isCoprime_divisor (positive : 0 < w) (odd : P.testBit (w - 1) = true) :
    IsCoprime (divisor w P) X := by
  apply IsCoprime.symm
  rw [irreducible_X.coprime_iff_not_dvd, X_dvd_iff, divisor, coeff_add, coeff_X_pow, coeff_bits,
    if_neg positive.ne, if_pos positive, Nat.sub_zero, odd]
  decide

theorem divide_lt (small : x < 2 ^ w) (own : P < 2 ^ w) : divide P x < 2 ^ w := by
  have shifted : x >>> 1 < 2 ^ w := (Nat.shiftRight_le x 1).trans_lt small
  rw [divide]
  split
  · exact Nat.xor_lt_two_pow shifted own
  · exact shifted

/-- One step multiplies by `X`, modulo the divisor. -/
theorem mk_divide (positive : 0 < w) (small : x < 2 ^ w) :
    AdjoinRoot.mk (divisor w P) (bits w (divide P x)) =
      AdjoinRoot.mk (divisor w P) (X * bits w x) := by
  have moved : X * bits w x = X ^ w * bits 1 x + bits w (x >>> 1) := by
    have one := X_pow_mul_bits positive small
    rwa [pow_one] at one
  have out : bits 1 x = if x.testBit 0 then 1 else 0 := by
    rw [bits, Finset.sum_range_one, pow_zero, mul_one]
    cases x.testBit 0 <;> simp
  have leading : AdjoinRoot.mk (divisor w P) (X ^ w) = AdjoinRoot.mk (divisor w P) (bits w P) := by
    rw [AdjoinRoot.mk_eq_mk, CharTwo.sub_eq_add]
    exact dvd_refl _
  rw [moved, out, divide, map_add, map_mul]
  split
  · rw [bits_xor, map_add, leading, map_one, mul_one, add_comm]
  · rw [map_zero, mul_zero, zero_add]

theorem mk_divide_iterate (positive : 0 < w) (own : P < 2 ^ w) (small : x < 2 ^ w) (j : Nat) :
    (divide P)^[j] x < 2 ^ w ∧
      AdjoinRoot.mk (divisor w P) (bits w ((divide P)^[j] x)) =
        AdjoinRoot.mk (divisor w P) (X ^ j * bits w x) := by
  induction j with
  | zero =>
      rw [Function.iterate_zero_apply, pow_zero, one_mul]
      exact ⟨small, rfl⟩
  | succ j ih =>
      rw [Function.iterate_succ_apply']
      refine ⟨divide_lt ih.1 own, ?_⟩
      rw [mk_divide positive ih.1, map_mul, ih.2, ← map_mul, pow_succ', mul_assoc]

/-- A table that has been filled by dividing bit by bit. -/
theorem Table.of_divide {tab : Nat → Nat} (positive : 0 < w) (narrow : k ≤ w) (own : P < 2 ^ w)
    (filled : ∀ i < 2 ^ k, tab i = (divide P)^[k] i) : Table (divisor w P) w k tab where
  narrow := narrow
  below i inside := by
    have small : i < 2 ^ w := inside.trans_le (Nat.pow_le_pow_right (by decide) narrow)
    exact filled i inside ▸ (mk_divide_iterate positive own small k).1
  remainder i inside := by
    have small : i < 2 ^ w := inside.trans_le (Nat.pow_le_pow_right (by decide) narrow)
    have empty : i >>> k = 0 := by
      rw [Nat.shiftRight_eq_div_pow]
      exact Nat.div_eq_of_lt inside
    rw [filled i inside, (mk_divide_iterate positive own small k).2, X_pow_mul_bits narrow small,
      empty, bits_zero, add_zero]

end Division

end Crc
