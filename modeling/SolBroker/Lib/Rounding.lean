import Mathlib

/-!
# Rounding to binary floating point

What an operation of binary floating point returns is the exact result, rounded to as many
significant digits as the format keeps. It is rounded to the nearest such number, and to the
one with an even last digit if two are equally near. Exponents are not bounded here: these
are the numbers of a format as long as they neither overflow nor fall below its least
normal number.
-/

namespace Rounding

/-- The nearest integer, the even one of two. -/
def nearest (x : ℚ) : ℤ :=
  if x - ⌊x⌋ < 1 / 2 then ⌊x⌋
  else if 1 / 2 < x - ⌊x⌋ then ⌊x⌋ + 1
  else ⌊x⌋ + ⌊x⌋ % 2

@[simp] theorem nearest_intCast (n : ℤ) : nearest n = n := by
  simp [nearest]

theorem abs_nearest_sub_le (x : ℚ) : |(nearest x : ℚ) - x| ≤ 1 / 2 := by
  have below := Int.floor_le x
  have above := Int.lt_floor_add_one x
  rw [abs_le, nearest]
  split_ifs with down up
  · constructor <;> linarith
  · push_cast
    constructor <;> linarith
  · have half : x - ⌊x⌋ = 1 / 2 := le_antisymm (not_lt.mp up) (not_lt.mp down)
    rcases Int.emod_two_eq_zero_or_one ⌊x⌋ with even | odd
    · rw [even]
      push_cast
      constructor <;> linarith
    · rw [odd]
      push_cast
      constructor <;> linarith

/-- The nearest integer is at most as large as an integer that is. -/
theorem nearest_le {x : ℚ} {n : ℤ} (le : x ≤ n) : nearest x ≤ n := by
  have near := (abs_le.mp (abs_nearest_sub_le x)).2
  have lt : (nearest x : ℚ) < n + 1 := by linarith
  exact Int.lt_add_one_iff.mp (by exact_mod_cast lt)

/-- The distance of neighbouring numbers of `p` significant digits at `x`. -/
def spacing (p : ℕ) (x : ℚ) : ℚ := 2 ^ (Int.log 2 |x| + 1 - p)

theorem spacing_pos (p : ℕ) (x : ℚ) : 0 < spacing p x :=
  zpow_pos (by norm_num) _

/-- Half the distance is at most one part in `2 ^ p`. -/
theorem spacing_le {x : ℚ} (nonzero : x ≠ 0) (p : ℕ) : spacing p x / 2 ≤ |x| / 2 ^ p := by
  have power : spacing p x / 2 = 2 ^ Int.log 2 |x| / 2 ^ p := by
    rw [spacing, zpow_sub₀ two_ne_zero, zpow_add_one₀ two_ne_zero, zpow_natCast]
    ring
  rw [power]
  have below : ((2 : ℕ) : ℚ) ^ Int.log 2 |x| ≤ |x| :=
    Int.zpow_log_le_self one_lt_two (abs_pos.mpr nonzero)
  rw [Nat.cast_ofNat] at below
  gcongr

/-- Rounding to `p` significant digits. -/
def toPrecision (p : ℕ) (x : ℚ) : ℚ := nearest (x / spacing p x) * spacing p x

theorem toPrecision_zero (p : ℕ) : toPrecision p 0 = 0 := by
  have zero : nearest 0 = 0 := nearest_intCast 0
  rw [toPrecision, zero_div, zero, Int.cast_zero, zero_mul]

/-- Rounding moves a number by at most one part in `2 ^ p`. -/
theorem abs_toPrecision_sub_le (p : ℕ) (x : ℚ) : |toPrecision p x - x| ≤ |x| / 2 ^ p := by
  by_cases zero : x = 0
  · rw [zero, toPrecision_zero]
    simp
  · have positive := spacing_pos p x
    have scaled : toPrecision p x - x =
        (nearest (x / spacing p x) - x / spacing p x) * spacing p x := by
      rw [toPrecision, sub_mul, div_mul_cancel₀ _ positive.ne']
    calc |toPrecision p x - x|
        = |(nearest (x / spacing p x) : ℚ) - x / spacing p x| * spacing p x := by
          rw [scaled, abs_mul, abs_of_pos positive]
      _ ≤ 1 / 2 * spacing p x := by
          gcongr
          exact abs_nearest_sub_le _
      _ = spacing p x / 2 := by ring
      _ ≤ |x| / 2 ^ p := spacing_le zero p

theorem abs_toPrecision_le (p : ℕ) (x : ℚ) : |toPrecision p x| ≤ |x| * (1 + 1 / 2 ^ p) := by
  have near := abs_toPrecision_sub_le p x
  have apart : |toPrecision p x| - |x| ≤ |toPrecision p x - x| := abs_sub_abs_le_abs_sub _ _
  calc |toPrecision p x| ≤ |x| + |x| / 2 ^ p := by linarith
    _ = |x| * (1 + 1 / 2 ^ p) := by ring

end Rounding
