import Mathlib
import SolBroker.Lib.Crc
import SolBroker.Hash.Key

/-!
# What the hash of a key depends on

`crc32` is the remainder of the key modulo the CRC-32 polynomial, the table holding the
remainders of the single bytes. So keys collide in it exactly if the polynomial divides their
difference, and never if they are of the same length and differ within four bytes only. What
is mixed afterwards loses three bits at most, up to the remainder by the size of the table.
-/

namespace SolBroker

open Polynomial

/-! ## The checksum -/

/-- The polynomial of the table. -/
noncomputable def crcPolynomial : (ZMod 2)[X] :=
  X ^ 32 + X ^ 26 + X ^ 23 + X ^ 22 + X ^ 16 + X ^ 12 + X ^ 11 + X ^ 10 + X ^ 8 + X ^ 7 + X ^ 5 +
    X ^ 4 + X ^ 2 + X + 1

/-- Its coefficients, lowest bit first. -/
def crcBits : Nat := 0xedb88320

/-- An entry of `crc32_tab`. -/
def crcEntry (i : Nat) : Nat := (crc32Tab.getD i 0).toNat

/-- A key as a message of bytes. -/
noncomputable def keyMessage (s : List UInt8) : (ZMod 2)[X] :=
  Crc.message 8 (s.map UInt8.toNat)

theorem divisor_crcBits : Crc.divisor 32 crcBits = crcPolynomial := by
  rw [Crc.divisor, Crc.bits, crcPolynomial]
  simp only [Finset.sum_range_succ, Finset.sum_range_zero]
  simp [crcBits, Nat.testBit, Nat.shiftRight_eq_div_pow]
  ring

/-- The table has been filled by dividing, a bit at a time. -/
theorem crcEntry_divide : ∀ i < 2 ^ 8, crcEntry i = (Crc.divide crcBits)^[8] i := by
  decide +kernel

theorem crcTable : Crc.Table crcPolynomial 32 8 crcEntry :=
  divisor_crcBits ▸ .of_divide (by decide) (by decide) (by decide) crcEntry_divide

theorem monic_crcPolynomial : crcPolynomial.Monic :=
  divisor_crcBits ▸ Crc.monic_divisor 32 crcBits

theorem degree_crcPolynomial : crcPolynomial.degree = 32 :=
  divisor_crcBits ▸ Crc.degree_divisor 32 crcBits

theorem isCoprime_crcPolynomial : IsCoprime crcPolynomial X :=
  divisor_crcBits ▸ Crc.isCoprime_divisor (by decide) (by decide)

/-- A round of the loop. -/
theorem crcRound_toNat (r : UInt64) (b : UInt8) :
    (crc32Tab.getD ((r ^^^ b.toUInt64) &&& 0xff).toNat 0 ^^^ (r >>> 8)).toNat =
      Crc.shiftIn crcEntry 8 r.toNat b.toNat := by
  have low : ((r ^^^ b.toUInt64) &&& 0xff).toNat = (r.toNat ^^^ b.toNat) % 2 ^ 8 := by
    rw [UInt64.toNat_and, UInt64.toNat_xor, UInt8.toNat_toUInt64]
    exact Nat.and_two_pow_sub_one_eq_mod _ 8
  rw [UInt64.toNat_xor, low, UInt64.toNat_shiftRight]
  rfl

theorem crc32_eq_checksum (s : List UInt8) (len : Nat) :
    (crc32 s len).toNat =
      Crc.checksum crcEntry 8 ((s.take (len % 2 ^ 32)).map UInt8.toNat) := by
  rw [crc32]
  induction s.take (len % 2 ^ 32) using List.reverseRecOn with
  | nil => rfl
  | append_singleton s b ih =>
      rw [List.foldl_append, List.map_append, Crc.checksum, List.foldl_append]
      refine (crcRound_toNat _ b).trans ?_
      rw [ih]
      rfl

/-- `crc32` of the first bytes of a buffer is their remainder modulo the CRC-32 polynomial, and
two buffers have the same exactly if the polynomial divides the difference of these bytes. -/
theorem crc32_remainder (s : List UInt8) (len : Nat) :
    Crc.bits 32 (crc32 s len).toNat =
        (X ^ 32 * keyMessage (s.take (len % 2 ^ 32))) %ₘ crcPolynomial ∧
      ∀ s' len', crc32 s len = crc32 s' len' ↔ crcPolynomial ∣
        keyMessage (s.take (len % 2 ^ 32)) - keyMessage (s'.take (len' % 2 ^ 32)) := by
  refine ⟨?_, fun s' len' => ?_⟩
  · rw [crc32_eq_checksum]
    exact crcTable.bits_checksum monic_crcPolynomial degree_crcPolynomial _
  · rw [← UInt64.toNat_inj, crc32_eq_checksum, crc32_eq_checksum]
    exact crcTable.checksum_eq_iff isCoprime_crcPolynomial monic_crcPolynomial degree_crcPolynomial

/-- Two keys of the same length that differ only within four consecutive bytes. -/
structure Close (key key' : CString) : Prop where
  fits : key.bytes.length < 2 ^ 32
  window : ∃ front own own' back, key.bytes = front ++ own ++ back ∧
    key'.bytes = front ++ own' ++ back ∧ own.length = own'.length ∧ own.length ≤ 4

/-- Keys that are close never have the same checksum. -/
theorem crc32_separates {key key' : CString} (close : Close key key') (differ : key ≠ key') :
    crc32 key.bytes (strlen key) ≠ crc32 key'.bytes (strlen key') := by
  obtain ⟨fits, front, own, own', back, bytes, bytes', length, short⟩ := close
  have fits' : key'.bytes.length < 2 ^ 32 := by
    rw [bytes'] at *
    rw [bytes] at fits
    simpa [length] using fits
  have small (s : List UInt8) : ∀ b ∈ s.map UInt8.toNat, b < 2 ^ 8 := by
    intro b member
    obtain ⟨c, _, rfl⟩ := List.mem_map.mp member
    exact c.toNat_lt
  have own_ne : own.map UInt8.toNat ≠ own'.map UInt8.toNat := by
    intro same
    have equal : own = own' := List.map_injective_iff.mpr (fun _ _ => UInt8.toNat_inj.mp) same
    exact differ (CString.ext (bytes.trans (equal ▸ bytes'.symm)))
  have all (key : CString) (fits : key.bytes.length < 2 ^ 32) :
      key.bytes.take (strlen key % 2 ^ 32) = key.bytes := by
    rw [strlen, Nat.mod_eq_of_lt fits, List.take_length]
  rw [Ne, ← UInt64.toNat_inj, crc32_eq_checksum, crc32_eq_checksum, all key fits, all key' fits',
    bytes, bytes', List.map_append, List.map_append, List.map_append, List.map_append]
  refine crcTable.checksum_ne_of_window isCoprime_crcPolynomial monic_crcPolynomial
    degree_crcPolynomial (small own) (small own') ?_ ?_ own_ne
  · rw [List.length_map, List.length_map, length]
  · rw [List.length_map]
    omega

/-- Two ids that differ in the four digits of a number. -/
theorem close_numbers : Close (literal "pump-0017-x") (literal "pump-4238-x") :=
  ⟨by decide +kernel, (literal "pump-").bytes, (literal "0017").bytes, (literal "4238").bytes,
    (literal "-x").bytes, by decide +kernel, by decide +kernel, by decide +kernel,
    by decide +kernel⟩

/-- Their checksums do too. -/
theorem crc32_numbers : crc32 (literal "pump-0017-x").bytes (strlen (literal "pump-0017-x")) ≠
    crc32 (literal "pump-4238-x").bytes (strlen (literal "pump-4238-x")) :=
  crc32_separates close_numbers (by decide +kernel)

/-! ## The mixing -/

/-- A number is added to itself, moved to the left. -/
def addRound (a key : UInt64) : UInt64 := key + (key <<< a)

/-- A number and itself, moved to the right. -/
def xorRound (a key : UInt64) : UInt64 := key ^^^ (key >>> a)

/-- The rounds of `hashtable_hash_int`. -/
def spread (key : UInt64) : UInt64 :=
  xorRound 12 (addRound 7 (xorRound 2 (addRound 10 (xorRound 9 (addRound 4 (xorRound 22
    (addRound 12 key)))))))

/-- The number that is reduced by the size of the table. -/
def mixed (key : UInt64) : UInt64 := (spread key >>> 3) * knuthPrime

theorem hashtableHashInt_eq (tableSize : Nat) (key : CString) :
    hashtableHashInt tableSize key =
      (mixed (crc32 key.bytes (strlen key))).toNat % tableSize := rfl

/-- What is multiplied by a number with an inverse can be told from the product. -/
theorem mul_left_injective {a b : UInt64} (inverse : a * b = 1) {x y : UInt64}
    (same : x * a = y * a) : x = y := by
  have times := congrArg (· * b) same
  simp only [UInt64.mul_assoc, inverse, UInt64.mul_one] at times
  exact times

theorem addRound_eq {a : Nat} (below : a < 64) (key : UInt64) :
    addRound (UInt64.ofNat a) key = key * UInt64.ofNat (1 + 2 ^ a) := by
  have small : (UInt64.ofNat a).toNat = a :=
    UInt64.toNat_ofNat_of_lt' (below.trans (by decide))
  rw [← UInt64.toNat_inj, addRound, UInt64.toNat_add, UInt64.toNat_shiftLeft, small,
    Nat.mod_eq_of_lt below, UInt64.toNat_mul, UInt64.toNat_ofNat', Nat.shiftLeft_eq,
    Nat.add_mod_mod, Nat.mul_mod_mod, Nat.mul_add, Nat.mul_one]

theorem addRound_injective {a : Nat} {b : UInt64} (below : a < 64)
    (inverse : UInt64.ofNat (1 + 2 ^ a) * b = 1) :
    Function.Injective (addRound (UInt64.ofNat a)) := by
  intro x y same
  rw [addRound_eq below, addRound_eq below] at same
  exact mul_left_injective inverse same

theorem xorRound_injective {a : Nat} (positive : 0 < a) (below : a < 64) :
    Function.Injective (xorRound (UInt64.ofNat a)) := by
  intro x y same
  have small : (UInt64.ofNat a).toNat = a :=
    UInt64.toNat_ofNat_of_lt' (below.trans (by decide))
  rw [xorRound, xorRound, ← UInt64.toNat_inj, UInt64.toNat_xor, UInt64.toNat_xor,
    UInt64.toNat_shiftRight, UInt64.toNat_shiftRight, small, Nat.mod_eq_of_lt below] at same
  have fixed : (x.toNat ^^^ y.toNat) ^^^ ((x.toNat ^^^ y.toNat) >>> a) = 0 := by
    rw [Nat.shiftRight_xor_distrib]
    calc x.toNat ^^^ y.toNat ^^^ (x.toNat >>> a ^^^ y.toNat >>> a)
        = (x.toNat ^^^ x.toNat >>> a) ^^^ (y.toNat ^^^ y.toNat >>> a) := by ac_rfl
      _ = 0 := by rw [same, Nat.xor_self]
  have zero : x.toNat ^^^ y.toNat = 0 := by
    by_contra some_
    have smaller : (x.toNat ^^^ y.toNat) >>> a < x.toNat ^^^ y.toNat := by
      rw [Nat.shiftRight_eq_div_pow]
      exact Nat.div_lt_self (Nat.pos_of_ne_zero some_) (Nat.one_lt_two_pow positive.ne')
    exact absurd (Nat.xor_eq_zero_iff.mp fixed) smaller.ne'
  exact UInt64.toNat_inj.mp (Nat.xor_eq_zero_iff.mp zero)

/-- All the rounds can be undone. -/
theorem spread_injective : Function.Injective spread := by
  have add12 := @addRound_injective 12 17294103975376711681 (by decide) (by decide)
  have add4 := @addRound_injective 4 17361641481138401521 (by decide) (by decide)
  have add10 := @addRound_injective 10 1151796703138937857 (by decide) (by decide)
  have add7 := @addRound_injective 7 9294871044892409729 (by decide) (by decide)
  have xor (a : Nat) (positive : 0 < a) (below : a < 64) := xorRound_injective positive below
  exact (xor 12 (by decide) (by decide)).comp (add7.comp ((xor 2 (by decide) (by decide)).comp
    (add10.comp ((xor 9 (by decide) (by decide)).comp (add4.comp
      ((xor 22 (by decide) (by decide)).comp add12))))))

/-- What is left of the rounds is all but their last three bits. -/
theorem mixed_eq_iff {c c' : UInt64} :
    mixed c = mixed c' ↔ (spread c).toNat / 8 = (spread c').toNat / 8 := by
  have shifted (c : UInt64) : (spread c >>> 3).toNat = (spread c).toNat / 8 := by
    rw [UInt64.toNat_shiftRight]
    exact Nat.shiftRight_eq_div_pow _ 3
  rw [← shifted, ← shifted, UInt64.toNat_inj]
  constructor
  · exact mul_left_injective (b := 14962265741255716689) (by decide)
  · intro same
    rw [mixed, mixed, same]

/-- The hash of a key is the remainder of a number by the size of the table, and no number is
that of more than eight checksums: the rounds before can all be undone, and only the last three
bits of what they give are dropped. -/
theorem hash_loses_three_bits :
    (∀ tableSize key, hashtableHashInt tableSize key =
        (mixed (crc32 key.bytes (strlen key))).toNat % tableSize) ∧
      Function.Injective spread ∧ ∀ h, Set.encard {c | mixed c = h} ≤ 8 := by
  refine ⟨hashtableHashInt_eq, spread_injective, fun h => ?_⟩
  have eight : Set.encard (Set.Iio 8 : Set Nat) = 8 := by
    rw [← Finset.coe_Iio, Set.encard_coe_eq_coe_finsetCard, Nat.card_Iio]
    rfl
  rw [← eight]
  apply Set.encard_le_encard_of_injOn (f := fun c => (spread c).toNat % 8)
  · intro c _
    exact Nat.mod_lt _ (by decide)
  · intro c inside c' inside' same
    have quotient := mixed_eq_iff.mp (inside.trans inside'.symm)
    apply spread_injective
    have rest : (spread c).toNat % 8 = (spread c').toNat % 8 := same
    apply UInt64.toNat_inj.mp
    omega

end SolBroker
