import Mathlib
import SolBroker.Memory
import SolBroker.Lib.Rounding

/-!
# Decimal text

How the program prints numbers and reads them back: `sprintf` with `%d`, `%lld` or `%.4f`,
`number_len`, which sizes the buffers for it, and `parse_int`. The reader accumulates in an
`int`, so a number it cannot hold is a fault. `number_len` counts the digits of a `size_t`,
and so of another number than the one printed if that is negative.
-/

namespace SolBroker

/-- A number as `%d` and `%lld` print it. -/
def decimal (n : Int) : CString := literal (toString n)

/-- A number as `%.4f` prints it. Its digits are those of the exact value, rounded once. -/
def fixed4 (x : ℚ) : CString :=
  let scaled := (Rounding.nearest (|x| * 10000)).toNat
  cstr ((if x < 0 then [45] else []) ++ (decimal (scaled / 10000 : Nat)).bytes ++ [46] ++
    [1000, 100, 10, 1].map fun place => UInt8.ofNat (48 + scaled / place % 10))

/-- `sprintf` into an array of `size` bytes on the stack. -/
def sprintf (size : Nat) (text : CString) : Except Fault CString :=
  if strlen text < size then .ok text else .error .stackOverflow

theorem sprintf_eq_ok {size : Nat} {text : CString} (fits : strlen text < size) :
    sprintf size text = .ok text :=
  if_pos fits

/-- The values of a `long long`. -/
def IsLongLong (v : Int) : Prop := -2 ^ 63 ≤ v ∧ v < 2 ^ 63

/-- A number converted to `size_t`. -/
def sizeT (v : Int) : Nat := (v % 2 ^ 64).toNat

/-- `isdigit`. -/
def isdigit (c : UInt8) : Bool := 48 ≤ c && c ≤ 57

/-- The loop of `number_len`. -/
def numberLenLoop (number len : Nat) : Nat :=
  if number = 0 then len else numberLenLoop (number / 10) (len + 1)

def numberLen (number : Nat) : Nat := numberLenLoop number 1

/-- The loop of `parse_int`. If the product overflows, so does the sum. -/
def parseIntLoop (n : Nat) : List UInt8 → Except Fault Nat
  | [] => .ok n
  | c :: string =>
      if isdigit c then
        let n := n * 10 + (c.toNat - 48)
        if intMax < n then .error .intOverflow else parseIntLoop n string
      else .ok n

def parseInt (string : CString) : Except Fault Nat := parseIntLoop 0 string.bytes

/-- The number that digits spell after `n`. -/
def digitsValue (n : Nat) (digits : List UInt8) : Nat :=
  digits.foldl (fun n d => n * 10 + (d.toNat - 48)) n

theorem digitsValue_cons (n : Nat) (d : UInt8) (digits : List UInt8) :
    digitsValue n (d :: digits) = digitsValue (n * 10 + (d.toNat - 48)) digits := by
  rw [digitsValue, List.foldl_cons, digitsValue]

theorem le_digitsValue (n : Nat) (digits : List UInt8) : n ≤ digitsValue n digits := by
  induction digits generalizing n with
  | nil => exact le_rfl
  | cons d digits ih =>
      rw [digitsValue_cons]
      exact le_trans (by omega) (ih _)

/-- The loop reads the digits in front, if an `int` can hold what they spell. -/
theorem parseIntLoop_eq {n : Nat} (small : n ≤ intMax) (string : List UInt8) :
    parseIntLoop n string =
      if digitsValue n (string.takeWhile isdigit) ≤ intMax then
        .ok (digitsValue n (string.takeWhile isdigit))
      else .error .intOverflow := by
  induction string generalizing n with
  | nil => exact (if_pos small).symm
  | cons c string ih =>
      by_cases digit : isdigit c = true
      · have read : parseIntLoop n (c :: string) =
            if intMax < n * 10 + (c.toNat - 48) then .error .intOverflow
            else parseIntLoop (n * 10 + (c.toNat - 48)) string := by
          rw [parseIntLoop, if_pos digit]
        have more := le_digitsValue (n * 10 + (c.toNat - 48)) (string.takeWhile isdigit)
        rw [read, List.takeWhile_cons_of_pos digit, digitsValue_cons]
        by_cases overflow : intMax < n * 10 + (c.toNat - 48)
        · rw [if_pos overflow, if_neg (not_le.mpr (lt_of_lt_of_le overflow more))]
        · rw [if_neg overflow, ih (not_lt.mp overflow)]
      · rw [parseIntLoop, if_neg digit, List.takeWhile_cons_of_neg digit]
        exact (if_pos small).symm

theorem parseInt_eq (string : CString) :
    parseInt string =
      if digitsValue 0 (string.bytes.takeWhile isdigit) ≤ intMax then
        .ok (digitsValue 0 (string.bytes.takeWhile isdigit))
      else .error .intOverflow :=
  parseIntLoop_eq (Nat.zero_le _) string.bytes

/-- Where digits end, reading stops. -/
theorem takeWhile_isdigit {digits rest : List UInt8} (numeric : ∀ d ∈ digits, isdigit d = true)
    (stop : ∀ c, rest.head? = some c → isdigit c = false) :
    (digits ++ rest).takeWhile isdigit = digits ∧ (digits ++ rest).dropWhile isdigit = rest := by
  have none_ : rest.takeWhile isdigit = [] ∧ rest.dropWhile isdigit = rest := by
    cases rest with
    | nil => exact ⟨rfl, rfl⟩
    | cons c rest =>
        have last : ¬ isdigit c = true := by simp [stop c rfl]
        exact ⟨List.takeWhile_cons_of_neg last, List.dropWhile_cons_of_neg last⟩
  rw [List.takeWhile_append_of_pos numeric, List.dropWhile_append_of_pos numeric]
  exact ⟨by rw [none_.1, List.append_nil], none_.2⟩

/-! ## What is printed -/

theorem isdigit_iff (c : UInt8) : isdigit c = true ↔ 48 ≤ c.toNat ∧ c.toNat ≤ 57 := by
  simp [isdigit, UInt8.le_iff_toNat_le]

/-- A digit is its own byte. -/
theorem toNat_ofNat_digit {c : Char} (digit : c.isDigit = true) :
    (UInt8.ofNat c.toNat).toNat = c.toNat ∧ isdigit (UInt8.ofNat c.toNat) = true := by
  have range := Char.isDigit_iff_toNat.mp digit
  simp only [Char.reduceToNat] at range
  have byte : (UInt8.ofNat c.toNat).toNat = c.toNat :=
    UInt8.toNat_ofNat_of_lt' (by simp [UInt8.size]; omega)
  exact ⟨byte, (isdigit_iff _).mpr (by rwa [byte])⟩

theorem decimal_natCast_bytes (n : Nat) :
    (decimal n).bytes = (Nat.toDigits 10 n).map fun c => UInt8.ofNat c.toNat := by
  have text : (toString (n : Int)).toList = Nat.toDigits 10 n := by
    show (Int.repr (n : Int)).toList = _
    simp [Int.repr]
  rw [decimal, literal, text, cstr_bytes_of_nulFree]
  intro zero
  obtain ⟨c, member, nul⟩ := List.mem_map.mp zero
  have digit := (toNat_ofNat_digit (Nat.isDigit_of_mem_toDigits (by decide) le_rfl member)).2
  rw [nul] at digit
  cases digit

theorem isdigit_decimal (n : Nat) : ∀ d ∈ (decimal n).bytes, isdigit d = true := by
  intro d member
  rw [decimal_natCast_bytes] at member
  obtain ⟨c, inside, rfl⟩ := List.mem_map.mp member
  exact (toNat_ofNat_digit (Nat.isDigit_of_mem_toDigits (by decide) le_rfl inside)).2

/-- The digits of a printed number spell it. -/
theorem digitsValue_decimal (n : Nat) : digitsValue 0 (decimal n).bytes = n := by
  have same : ∀ (digits : List Char) (m : Nat), (∀ c ∈ digits, c.isDigit = true) →
      digitsValue m (digits.map fun c => UInt8.ofNat c.toNat) = Nat.ofDigitChars 10 digits m := by
    intro digits
    induction digits with
    | nil => exact fun _ _ => Nat.ofDigitChars_nil.symm
    | cons c digits ih =>
        intro m numeric
        have byte := (toNat_ofNat_digit (numeric c (List.mem_cons_self ..))).1
        rw [List.map_cons, digitsValue_cons, Nat.ofDigitChars_cons, byte, Nat.mul_comm m 10]
        exact ih _ fun d member => numeric d (List.mem_cons_of_mem _ member)
  rw [decimal_natCast_bytes, same _ _ fun c => Nat.isDigit_of_mem_toDigits (by decide) le_rfl,
    Nat.ofDigitChars_ten_toDigits]

theorem length_decimal_of_lt {n : Nat} (small : n < 10) : (decimal n).bytes.length = 1 := by
  rw [decimal_natCast_bytes, List.length_map, Nat.toDigits_of_lt_base small, List.length_singleton]

theorem length_decimal_of_le {n : Nat} (large : 10 ≤ n) :
    (decimal n).bytes.length = (decimal (n / 10 : Nat)).bytes.length + 1 := by
  rw [decimal_natCast_bytes, decimal_natCast_bytes, List.length_map, List.length_map,
    Nat.toDigits_of_base_le (by decide) large, List.length_append, List.length_singleton]

theorem numberLenLoop_eq {number : Nat} (positive : 0 < number) (len : Nat) :
    numberLenLoop number len = len + (decimal number).bytes.length := by
  induction number using Nat.strong_induction_on generalizing len with
  | _ number ih =>
      rw [numberLenLoop, if_neg positive.ne']
      by_cases small : number < 10
      · rw [Nat.div_eq_of_lt small, numberLenLoop, if_pos rfl, length_decimal_of_lt small]
      · rw [ih (number / 10) (by omega) (by omega), length_decimal_of_le (not_lt.mp small)]
        omega

/-- `number_len` counts one more than the digits, so that there is room for the NUL; zero
is taken to have none. -/
theorem numberLen_eq (number : Nat) :
    numberLen number = if number = 0 then 1 else (decimal number).bytes.length + 1 := by
  rw [numberLen]
  split
  · rename_i zero
    rw [zero, numberLenLoop, if_pos rfl]
  · rename_i positive
    rw [numberLenLoop_eq (Nat.pos_of_ne_zero positive), Nat.add_comm]

/-! ## What fits into a buffer -/

theorem length_decimal_pos (n : Nat) : 0 < (decimal n).bytes.length := by
  rw [decimal_natCast_bytes, List.length_map]
  exact Nat.length_toDigits_pos

theorem length_decimal_le_iff {n k : Nat} (positive : 0 < k) :
    (decimal n).bytes.length ≤ k ↔ n < 10 ^ k := by
  rw [decimal_natCast_bytes, List.length_map]
  exact Nat.length_toDigits_le_iff (by decide) positive

/-- A larger number has no fewer digits. -/
theorem length_decimal_mono {m n : Nat} (le : m ≤ n) :
    (decimal m).bytes.length ≤ (decimal n).bytes.length := by
  have small : n < 10 ^ (decimal n).bytes.length :=
    (length_decimal_le_iff (length_decimal_pos n)).mp le_rfl
  exact (length_decimal_le_iff (length_decimal_pos n)).mpr (lt_of_le_of_lt le small)

/-- A negative number is printed as a minus sign and the digits of its absolute value. -/
theorem decimal_negSucc_bytes (n : Nat) :
    (decimal (Int.negSucc n)).bytes = 45 :: (decimal (n + 1 : Nat)).bytes := by
  have text : (toString (Int.negSucc n)).toList = '-' :: Nat.toDigits 10 (n + 1) := by
    show (Int.repr (Int.negSucc n)).toList = _
    simp [Int.repr]
  have bytes : ((toString (Int.negSucc n)).toList.map fun c => UInt8.ofNat c.toNat) =
      45 :: (decimal (n + 1 : Nat)).bytes := by
    rw [text, decimal_natCast_bytes]
    rfl
  rw [decimal, literal, bytes, cstr_bytes_of_nulFree]
  rw [List.mem_cons, not_or]
  exact ⟨by decide, (decimal (n + 1 : Nat)).nulFree⟩

/-- Its digits fit into what `number_len` counts for a number, and its minus sign takes the
byte that is counted besides: as a `size_t` it is at least as large as its absolute value. -/
theorem strlen_decimal_le_numberLen {v : Int} (range : IsLongLong v) :
    strlen (decimal v) ≤ numberLen (sizeT v) := by
  obtain ⟨least, below⟩ := range
  cases v with
  | ofNat n =>
      have same : sizeT (Int.ofNat n) = n := by
        change (n : Int) < 2 ^ 63 at below
        show ((n : Int) % 2 ^ 64).toNat = n
        omega
      rw [same, numberLen_eq]
      split
      · rename_i zero
        rw [zero]
        exact (length_decimal_of_lt (by decide)).le
      · exact Nat.le_succ _
  | negSucc n =>
      have wraps : sizeT (Int.negSucc n) = 2 ^ 64 - (n + 1) := by
        rw [sizeT]
        omega
      have digits : (decimal (n + 1 : Nat)).bytes.length ≤
          (decimal (2 ^ 64 - (n + 1) : Nat)).bytes.length :=
        length_decimal_mono (by omega)
      rw [strlen, decimal_negSucc_bytes, wraps, numberLen_eq, if_neg (by omega), List.length_cons]
      exact Nat.succ_le_succ digits

example : strlen (decimal (-2 ^ 63)) = numberLen (sizeT (-2 ^ 63)) := by decide +kernel

/-- A number with at most `k` digits before the point takes at most `k + 6` bytes. -/
theorem strlen_fixed4_le {x : ℚ} {k : Nat} (positive : 0 < k)
    (bound : |x| * 10000 ≤ 10 ^ (k + 4) - 1) : strlen (fixed4 x) ≤ k + 6 := by
  let scaled := (Rounding.nearest (|x| * 10000)).toNat
  have rounded : Rounding.nearest (|x| * 10000) ≤ 10 ^ (k + 4) - 1 :=
    Rounding.nearest_le (by exact_mod_cast bound)
  have small : scaled / 10000 < 10 ^ k := by
    rw [Nat.div_lt_iff_lt_mul (by decide)]
    have power : (10 : Int) ^ (k + 4) = (10 ^ k * 10000 : Nat) := by
      push_cast
      ring
    rw [power] at rounded
    have one : 0 < 10 ^ k := Nat.pow_pos (by decide)
    show (Rounding.nearest (|x| * 10000)).toNat < 10 ^ k * 10000
    omega
  have digits := (length_decimal_le_iff positive).mpr small
  have sign : (if x < 0 then [(45 : UInt8)] else []).length ≤ 1 := by
    split <;> decide
  refine le_trans (cstr_length_le _) ?_
  rw [List.length_append, List.length_append, List.length_append, List.length_map]
  simp only [List.length_cons, List.length_nil]
  exact le_trans (Nat.add_le_add_right (Nat.add_le_add_right (Nat.add_le_add sign digits) _) _)
    (by omega)

end SolBroker
