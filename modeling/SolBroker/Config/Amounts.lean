import Mathlib
import SolBroker.Decimal

/-!
# Amounts of memory and of time

The readers of config.c for numbers with a unit behind them, and the writers.
The unit of memory may be written in either letter case; that of time is one small letter.
A `size_t` has 64 bits, and what is assigned to an `int` loses the upper 32 of them.
-/

namespace SolBroker

/-- A `size_t` as the value of an `int`. -/
def intOf (n : Nat) : Int := Int.bmod n (2 ^ 32)

/-- The multiplier that `read_memory_with_mul` takes for what is behind the digits. -/
def memoryMul (memoryString : CString) : Nat :=
  if streq memoryString (literal "kb") 2 then 1024
  else if streq memoryString (literal "mb") 2 then 1024 * 1024
  else if streq memoryString (literal "gb") 2 then 1024 * 1024 * 1024
  else 1

def readMemoryWithMul (memoryString : CString) : Except Fault Nat := do
  let num ← parseInt memoryString
  let memoryString := memoryString.dropWhile isdigit
  return num * memoryMul memoryString % 2 ^ 64

/-- The multiplier that `read_time_with_mul` takes for the character behind the digits. -/
def timeMul (c : UInt8) : Nat :=
  if c = 109 then 60
  else if c = 100 then 60 * 60 * 24
  else 1

def readTimeWithMul (timeString : CString) : Except Fault Nat := do
  let num ← parseInt timeString
  let timeString := timeString.dropWhile isdigit
  return num * timeMul (timeString.bytes.headD 0) % 2 ^ 64

/-- `snprintf`: what fits before the NUL. -/
def snprintf (size : Nat) (text : CString) : CString where
  bytes := text.bytes.take (size - 1)
  nulFree := fun member => text.nulFree ((List.take_prefix _ _).subset member)

/-- A branch of `time_to_string`, with the format of its unit. -/
def timeText (translatedTime : Int) (unit : CString) : CString :=
  let numlen := numberLen (translatedTime % 2 ^ 64).toNat
  snprintf (numlen + 1) (cstr ((decimal translatedTime).bytes ++ unit.bytes))

def timeToString (time : Nat) : CString :=
  if time < 60 then timeText (intOf time) (literal "s")
  else if time < 60 * 60 then timeText (intOf (time / 60)) (literal "m")
  else if time < 60 * 60 * 24 then timeText (intOf (time / (60 * 60))) (literal "h")
  else timeText (intOf (time / (60 * 60 * 24))) (literal "d")

/-- A branch of `memory_to_string`, with the bytes it adds to the length of the number and the
format of its unit. -/
def memoryText (translatedMemory : Int) (room : Nat) (unit : CString) : CString :=
  let numlen := numberLen (translatedMemory % 2 ^ 64).toNat
  snprintf (numlen + room) (cstr ((decimal translatedMemory).bytes ++ unit.bytes))

def memoryToString (memory : Nat) : CString :=
  if memory < 1024 then memoryText (intOf memory) 1 (literal "b")
  else if memory < 1048576 then memoryText (intOf (memory / 1024)) 2 (literal "Kb")
  else if memory < 1073741824 then memoryText (intOf (memory / (1024 * 1024))) 2 (literal "Mb")
  else memoryText (intOf (memory / (1024 * 1024 * 1024))) 2 (literal "Gb")

/-- A text of digits and what is behind them. -/
theorem parse_digits {text : CString} {digits suffix : List UInt8}
    (split : text.bytes = digits ++ suffix) (numeric : ∀ d ∈ digits, isdigit d = true)
    (stop : ∀ c, suffix.head? = some c → isdigit c = false) :
    parseInt text = (if digitsValue 0 digits ≤ intMax then .ok (digitsValue 0 digits)
      else .error .intOverflow) ∧ (text.dropWhile isdigit).bytes = suffix := by
  obtain ⟨front, back⟩ := takeWhile_isdigit numeric stop
  rw [← split] at front back
  exact ⟨by rw [parseInt_eq, front], back⟩

/-! ## Memory -/

/-- The units of memory. -/
inductive MemoryUnit
  | byte
  | kb
  | mb
  | gb

namespace MemoryUnit

/-- How a unit is written, in small letters. -/
def name : MemoryUnit → CString
  | byte => literal ""
  | kb => literal "kb"
  | mb => literal "mb"
  | gb => literal "gb"

def size : MemoryUnit → Nat
  | byte => 1
  | kb => 1024
  | mb => 1024 * 1024
  | gb => 1024 * 1024 * 1024

end MemoryUnit

/-- A unit in any letter case is taken for itself. -/
theorem memoryMul_eq {suffix : CString} {unit : MemoryUnit}
    (spelled : suffix.bytes.map tolower = unit.name.bytes) : memoryMul suffix = unit.size := by
  have test (name : CString) (two : strlen name = 2) :
      streq suffix name 2 = decide (name.bytes.map tolower <+: unit.name.bytes) := by
    rw [Bool.eq_iff_iff, decide_eq_true_iff, ← two, streq_right_iff, CString.CasePrefix, spelled]
  rw [memoryMul, test _ (by decide), test _ (by decide), test _ (by decide)]
  cases unit <;> decide

theorem isdigit_tolower (c : UInt8) : isdigit (tolower c) = isdigit c := by
  unfold tolower
  split
  · rename_i capital
    have low := UInt8.le_iff_toNat_le.mp capital.1
    have high := UInt8.le_iff_toNat_le.mp capital.2
    simp only [UInt8.reduceToNat] at low high
    have small : (c + 32).toNat = c.toNat + 32 := by
      rw [UInt8.toNat_add]
      exact Nat.mod_eq_of_lt (by simp only [UInt8.reduceToNat]; omega)
    rw [Bool.eq_iff_iff, isdigit_iff, isdigit_iff, small]
    omega
  · rfl

/-- No unit starts with a digit. -/
theorem MemoryUnit.not_isdigit {suffix : List UInt8} {unit : MemoryUnit}
    (spelled : suffix.map tolower = unit.name.bytes) {c : UInt8} (first : suffix.head? = some c) :
    isdigit c = false := by
  have head := congrArg List.head? spelled
  rw [List.head?_map, first, Option.map_some] at head
  rw [← isdigit_tolower]
  cases unit with
  | byte => cases head
  | kb | mb | gb =>
      rw [Option.some.inj head]
      rfl

/-- A number with a unit of memory behind it is read exactly if the number itself is below
`2 ^ 31`; it is accumulated in an `int`, and the unit counts only after that. -/
theorem readMemoryWithMul_exact_iff {text : CString} {digits suffix : List UInt8}
    {unit : MemoryUnit} (split : text.bytes = digits ++ suffix)
    (numeric : ∀ d ∈ digits, isdigit d = true) (spelled : suffix.map tolower = unit.name.bytes)
    (below : digitsValue 0 digits * unit.size < 2 ^ 64) :
    readMemoryWithMul text = .ok (digitsValue 0 digits * unit.size) ↔
      digitsValue 0 digits < 2 ^ 31 := by
  obtain ⟨parsed, rest⟩ := parse_digits split numeric fun c => MemoryUnit.not_isdigit spelled
  rw [← rest] at spelled
  rw [readMemoryWithMul, parsed]
  split
  · rename_i small
    refine iff_of_true ?_ (by unfold intMax at small; omega)
    show Except.ok (digitsValue 0 digits * memoryMul (text.dropWhile isdigit) % 2 ^ 64) = _
    rw [memoryMul_eq spelled, Nat.mod_eq_of_lt below]
  · rename_i large
    exact iff_of_false nofun (by unfold intMax at large; omega)

/-- The default of `max_memory`. -/
theorem readMemoryWithMul_2GB : readMemoryWithMul (literal "2GB") = .ok (2 * 1024 ^ 3) := by
  have read := (@readMemoryWithMul_exact_iff (literal "2GB") [50] [71, 66] .gb (by decide)
    (by simp [isdigit]) (by decide) (by decide)).mpr (by decide)
  have value : digitsValue 0 [50] * MemoryUnit.gb.size = 2 * 1024 ^ 3 := by decide
  rw [read, value]

/-- One more than an `int` can hold, without a unit. -/
theorem readMemoryWithMul_fails :
    ¬ ∀ (text : CString) (digits suffix : List UInt8) (unit : MemoryUnit),
      text.bytes = digits ++ suffix → (∀ d ∈ digits, isdigit d = true) →
      suffix.map tolower = unit.name.bytes → digitsValue 0 digits * unit.size < 2 ^ 64 →
      readMemoryWithMul text = .ok (digitsValue 0 digits * unit.size) := by
  intro always
  obtain ⟨n, large⟩ : ∃ n : Nat, n = intMax + 1 := ⟨_, rfl⟩
  have value := digitsValue_decimal n
  have numeric := isdigit_decimal n
  have whole : (decimal n).bytes = (decimal n).bytes ++ [] := (List.append_nil _).symm
  have read := always (decimal n) (decimal n).bytes [] .byte whole numeric rfl (by
    rw [value, large]
    decide)
  have parsed := (parse_digits whole numeric nofun).1
  rw [value, if_neg (by omega)] at parsed
  rw [readMemoryWithMul, parsed] at read
  cases read

/-! ## Time -/

/-- The seconds in the unit that `time_to_string` chooses. -/
def timeUnit (time : Nat) : Nat :=
  if time < 60 then 1
  else if time < 60 * 60 then 60
  else if time < 60 * 60 * 24 then 60 * 60
  else 60 * 60 * 24

theorem intOf_of_le {n : Nat} (small : n ≤ intMax) : intOf n = n := by
  unfold intMax at small
  refine Int.bmod_eq_of_le ?_ ?_ <;> omega

/-- The text of a number and its unit; zero is printed without, since `number_len` finds no
digits in it. -/
theorem timeText_bytes (n : Nat) {c : UInt8} (small : n ≤ intMax) (nonzero : c ≠ 0) :
    (timeText n (cstr [c])).bytes = (decimal n).bytes ++ if n = 0 then [] else [c] := by
  have unit : (cstr [c]).bytes = [c] := cstr_bytes_of_nulFree (by simpa using nonzero.symm)
  have text : (cstr ((decimal n).bytes ++ [c])).bytes = (decimal n).bytes ++ [c] := by
    apply cstr_bytes_of_nulFree
    intro member
    obtain inside | last := List.mem_append.mp member
    · exact (decimal n).nulFree inside
    · exact nonzero (List.mem_singleton.mp last).symm
  have numlen : numberLen ((n : Int) % 2 ^ 64).toNat = numberLen n := by
    unfold intMax at small
    congr 1
    omega
  simp only [timeText, snprintf, numlen, unit, text, Nat.add_sub_cancel, numberLen_eq]
  by_cases zero : n = 0
  · have one : (decimal n).bytes.length = 1 := length_decimal_of_lt (by omega)
    rw [if_pos zero, if_pos zero, ← one, List.take_left, List.append_nil]
  · rw [if_neg zero, if_neg zero, List.take_of_length_le]
    rw [List.length_append, List.length_singleton]

/-- Reading a number and its unit again. -/
theorem readTimeWithMul_timeText {n : Nat} {c : UInt8} (small : n ≤ intMax) (nonzero : c ≠ 0)
    (letter : isdigit c = false) :
    readTimeWithMul (timeText n (cstr [c])) = .ok (n * timeMul c) := by
  have stop : ∀ d, (if n = 0 then [] else [c]).head? = some d → isdigit d = false := by
    intro d first
    split at first
    · cases first
    · cases first
      exact letter
  obtain ⟨parsed, rest⟩ := parse_digits (timeText_bytes n small nonzero) (isdigit_decimal n) stop
  have most : timeMul c ≤ 60 * 60 * 24 := by
    unfold timeMul
    split_ifs <;> omega
  have fits : n * timeMul c < 2 ^ 64 := by
    have := Nat.mul_le_mul small most
    unfold intMax at this
    omega
  rw [readTimeWithMul, parsed, digitsValue_decimal, if_pos small]
  show Except.ok (n * timeMul (((timeText n (cstr [c])).dropWhile isdigit).bytes.headD 0) %
    2 ^ 64) = _
  rw [rest]
  by_cases zero : n = 0
  · simp [zero]
  · rw [if_neg zero, List.headD_cons, Nat.mod_eq_of_lt fits]

/-- A duration that is written is read again, rounded down to its unit, exactly if it is not
written in hours, which the reader does not know. -/
theorem readTimeWithMul_timeToString_iff {time : Nat} (below : time < 2 ^ 31) :
    readTimeWithMul (timeToString time) = .ok (time / timeUnit time * timeUnit time) ↔
      ¬ (60 * 60 ≤ time ∧ time < 60 * 60 * 24) := by
  have small (unit : Nat) : time / unit ≤ intMax := by
    have := Nat.div_le_self time unit
    unfold intMax
    omega
  have read (unit : Nat) {name : CString} (c : UInt8) (nonzero : c ≠ 0)
      (letter : isdigit c = false) (named : name = cstr [c]) :
      readTimeWithMul (timeText (intOf (time / unit)) name) = .ok (time / unit * timeMul c) := by
    rw [named, intOf_of_le (small unit), readTimeWithMul_timeText (small unit) nonzero letter]
  unfold timeToString timeUnit
  split_ifs with seconds minutes hours
  · have said := read 1 115 (by decide) (by decide) (by decide : literal "s" = _)
    rw [Nat.div_one] at said ⊢
    exact iff_of_true said (by omega)
  · have said := read 60 109 (by decide) (by decide) (by decide : literal "m" = _)
    exact iff_of_true said (by omega)
  · have said := read (60 * 60) 104 (by decide) (by decide) (by decide : literal "h" = _)
    refine iff_of_false (fun rounded => ?_) (by omega)
    have same := Except.ok.inj (said.symm.trans rounded)
    have other : timeMul 104 = 1 := by decide
    rw [other] at same
    omega
  · have said := read (60 * 60 * 24) 100 (by decide) (by decide) (by decide : literal "d" = _)
    exact iff_of_true said (by omega)

/-- Ten seconds, as the statistics are published by default. -/
theorem readTimeWithMul_timeToString_ten : readTimeWithMul (timeToString 10) = .ok 10 :=
  (readTimeWithMul_timeToString_iff (by decide)).mpr (by decide)

/-- An hour is read as a second. -/
theorem readTimeWithMul_timeToString_fails :
    ¬ ∀ time < 2 ^ 31,
      readTimeWithMul (timeToString time) = .ok (time / timeUnit time * timeUnit time) := by
  intro always
  have one : intOf (3600 / (60 * 60)) = (1 : Nat) := by decide
  have hour : timeToString 3600 = timeText (1 : Nat) (literal "h") := by
    rw [timeToString, if_neg (by decide), if_neg (by decide), if_pos (by decide), one]
  have letter : literal "h" = cstr [104] := by decide
  have read := always 3600 (by decide)
  rw [hour, letter, readTimeWithMul_timeText (by decide) (by decide) (by decide)] at read
  cases read

/-! ## Memory, written and read again -/

/-- The bytes in the unit that `memory_to_string` chooses. -/
def memoryUnit (memory : Nat) : Nat :=
  if memory < 1024 then 1
  else if memory < 1048576 then 1024
  else if memory < 1073741824 then 1024 * 1024
  else 1024 * 1024 * 1024

theorem memoryMul_le (suffix : CString) : memoryMul suffix ≤ 2 ^ 30 := by
  unfold memoryMul
  split_ifs <;> omega

/-- Whatever the text, the number in it is an `int` and the multiplier at most a gigabyte. -/
theorem readMemoryWithMul_lt {text : CString} {memory : Nat}
    (read : readMemoryWithMul text = .ok memory) : memory < 2 ^ 61 := by
  obtain ⟨num, parsed, same⟩ := bind_eq_ok.mp read
  have small : num ≤ intMax := by
    rw [parseInt_eq] at parsed
    split at parsed
    · rename_i small
      cases parsed
      exact small
    · cases parsed
  have most := Nat.mul_le_mul small (memoryMul_le (text.dropWhile isdigit))
  cases same
  unfold intMax at most
  exact (Nat.mod_le _ _).trans_lt (by omega)

/-- The text of a number and its unit; zero is printed without the end of it, since
`number_len` finds no digits in it. -/
theorem memoryText_bytes {n : Nat} (small : n ≤ intMax) {unit : CString}
    (named : unit.bytes ≠ []) :
    (memoryText n (strlen unit) unit).bytes =
      (decimal n).bytes ++ if n = 0 then unit.bytes.dropLast else unit.bytes := by
  have text : (cstr ((decimal n).bytes ++ unit.bytes)).bytes =
      (decimal n).bytes ++ unit.bytes := by
    apply cstr_bytes_of_nulFree
    intro member
    obtain inside | behind := List.mem_append.mp member
    · exact (decimal n).nulFree inside
    · exact unit.nulFree behind
  have numlen : numberLen ((n : Int) % 2 ^ 64).toNat = numberLen n := by
    unfold intMax at small
    congr 1
    omega
  have length := List.length_pos_iff.mpr named
  simp only [memoryText, snprintf, numlen, text, numberLen_eq, strlen]
  by_cases zero : n = 0
  · have one : (decimal n).bytes.length = 1 := length_decimal_of_lt (by omega)
    rw [if_pos zero, if_pos zero, List.take_append, List.take_of_length_le (by omega),
      List.dropLast_eq_take]
    congr 2
    omega
  · rw [if_neg zero, if_neg zero, List.take_of_length_le]
    rw [List.length_append]
    omega

/-- Reading a number and its unit again. -/
theorem readMemoryWithMul_memoryText {n : Nat} (small : n ≤ intMax) {unit : CString}
    (named : unit.bytes ≠ []) (stop : unit.bytes.all (fun c => !isdigit c) = true) :
    readMemoryWithMul (memoryText n (strlen unit) unit) = .ok (n * memoryMul unit) := by
  have behind (c : UInt8)
      (first : (if n = 0 then unit.bytes.dropLast else unit.bytes).head? = some c) :
      isdigit c = false := by
    have member : c ∈ unit.bytes := by
      have inside := List.mem_of_mem_head? first
      split at inside
      · exact List.mem_of_mem_dropLast inside
      · exact inside
    simpa using List.all_eq_true.mp stop c member
  obtain ⟨parsed, rest⟩ := parse_digits (memoryText_bytes small named) (isdigit_decimal n) behind
  have fits : n * memoryMul unit < 2 ^ 64 := by
    have := Nat.mul_le_mul small (memoryMul_le unit)
    unfold intMax at this
    omega
  rw [readMemoryWithMul, parsed, digitsValue_decimal, if_pos small]
  show Except.ok (n * memoryMul ((memoryText n (strlen unit) unit).dropWhile isdigit) %
    2 ^ 64) = _
  by_cases zero : n = 0
  · rw [zero, Nat.zero_mul, Nat.zero_mul, Nat.zero_mod]
  · rw [if_neg zero] at rest
    rw [CString.ext rest, Nat.mod_eq_of_lt fits]

/-- A size that is written is read again, rounded down to its unit, exactly if it has fewer
than `2 ^ 31` gigabytes. -/
theorem readMemoryWithMul_memoryToString_iff {memory : Nat} (below : memory < 2 ^ 64) :
    readMemoryWithMul (memoryToString memory) =
        .ok (memory / memoryUnit memory * memoryUnit memory) ↔
      memory < 2 ^ 61 := by
  have read {unit room : Nat} {name : CString} (small : memory / unit ≤ intMax)
      (named : name.bytes ≠ []) (stop : name.bytes.all (fun c => !isdigit c) = true)
      (long : strlen name = room) (sized : memoryMul name = unit) :
      readMemoryWithMul (memoryText (intOf (memory / unit)) room name) =
        .ok (memory / unit * unit) := by
    rw [intOf_of_le small, ← long, readMemoryWithMul_memoryText small named stop, sized]
  unfold memoryToString memoryUnit
  split_ifs with bytes kilo mega
  · have said := @read 1 1 (literal "b") (by unfold intMax; omega) (by decide) (by decide)
      (by decide) (by decide)
    rw [Nat.div_one] at said ⊢
    exact iff_of_true said (by omega)
  · exact iff_of_true (read (by unfold intMax; omega) (by decide) (by decide) (by decide)
      (by decide)) (by omega)
  · exact iff_of_true (read (by unfold intMax; omega) (by decide) (by decide) (by decide)
      (by decide)) (by omega)
  · constructor
    · intro rounded
      have := readMemoryWithMul_lt rounded
      omega
    · intro small
      exact read (by unfold intMax; omega) (by decide) (by decide) (by decide) (by decide)

/-- The default of `max_request_size`. -/
theorem readMemoryWithMul_memoryToString_2MB :
    readMemoryWithMul (memoryToString 2097152) = .ok 2097152 :=
  (readMemoryWithMul_memoryToString_iff (by decide)).mpr (by decide)

end SolBroker
