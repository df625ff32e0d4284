import Mathlib
import SolBroker.Broker.Stats

/-!
# The buffers of the statistics

`publish_stats` prints all it publishes into arrays on its stack before it sends the first
message. Five of them are as long as `number_len` says for the number that is printed. The
sixth is for the uptime in sols: it has 16 bytes, and what is printed into it depends on the
clock and on no counter.
-/

namespace SolBroker

/-- The values of an `int`. -/
def IsInt (v : Int) : Prop := -2 ^ 31 ≤ v ∧ v < 2 ^ 31

/-- What the members of `struct sol_info` can hold. -/
structure SolInfo.InRange (info : SolInfo) : Prop where
  nclients : IsInt info.nclients
  nconnections : IsInt info.nconnections
  bytesRecv : IsLongLong info.bytesRecv
  bytesSent : IsLongLong info.bytesSent
  messagesSent : IsLongLong info.messagesSent
  messagesRecv : IsLongLong info.messagesRecv

/-- The `double` nearest to a number. -/
def double (x : ℚ) : ℚ := Rounding.toPrecision 53 x

/-- `SOL_SECONDS`. -/
def solSeconds : ℚ := double 88775.24

/-- `sol_uptime`, of the seconds since the start. -/
def solUptime (elapsed : Int) : ℚ := double (double elapsed / solSeconds)

/-- An array as long as `number_len` says, with the number printed into it. -/
def printNumber (v : Int) : Except Fault CString :=
  sprintf (numberLen (sizeT v) + 1) (decimal v)

/-- What `publish_stats` does before it publishes. It reads the clock twice, once for each
of its last two numbers. -/
def printStats (info : SolInfo) (uptime elapsed : Int) :
    Except Fault (List (CString × CString)) := do
  let cclients ← printNumber info.nclients
  let bsent ← printNumber info.bytesSent
  let msent ← printNumber info.messagesSent
  let mrecv ← printNumber info.messagesRecv
  let utime ← printNumber uptime
  let sutime ← sprintf 16 (fixed4 (solUptime elapsed))
  return [(sysTopic 5, utime), (sysTopic 6, sutime), (sysTopic 7, cclients),
    (sysTopic 9, bsent), (sysTopic 11, msent), (sysTopic 12, mrecv)]

/-! ## The uptime in sols -/

theorem abs_double_le (x : ℚ) : |double x| ≤ |x| * (1 + 1 / 2 ^ 53) :=
  Rounding.abs_toPrecision_le 53 x

theorem le_solSeconds : 88775 ≤ solSeconds := by
  have near := Rounding.abs_toPrecision_sub_le 53 88775.24
  change |solSeconds - 88775.24| ≤ _ at near
  have below := (abs_le.mp near).1
  norm_num at below
  linarith

/-- Two million years are less than 800 million sols. -/
theorem abs_solUptime_le {elapsed : Int} (span : |elapsed| ≤ 2 ^ 46) :
    |solUptime elapsed| ≤ 800000000 := by
  have seconds : |(elapsed : ℚ)| ≤ 2 ^ 46 := by exact_mod_cast span
  have positive : 0 < solSeconds := lt_of_lt_of_le (by norm_num) le_solSeconds
  have quotient : |double elapsed / solSeconds| ≤ 2 ^ 46 * (1 + 1 / 2 ^ 53) / 88775 := by
    rw [abs_div, abs_of_pos positive]
    have numerator : |double elapsed| ≤ 2 ^ 46 * (1 + 1 / 2 ^ 53) :=
      le_trans (abs_double_le _) (by gcongr)
    exact div_le_div₀ (by positivity) numerator (by norm_num) le_solSeconds
  calc |solUptime elapsed| ≤ |double elapsed / solSeconds| * (1 + 1 / 2 ^ 53) := abs_double_le _
    _ ≤ 2 ^ 46 * (1 + 1 / 2 ^ 53) / 88775 * (1 + 1 / 2 ^ 53) := by gcongr
    _ ≤ 800000000 := by norm_num

/-- The clock may have gone two million years in either direction since the start. -/
theorem sprintf_solUptime {elapsed : Int} (span : |elapsed| ≤ 2 ^ 46) :
    sprintf 16 (fixed4 (solUptime elapsed)) = .ok (fixed4 (solUptime elapsed)) := by
  apply sprintf_eq_ok
  have digits : |solUptime elapsed| * 10000 ≤ 10 ^ (9 + 4) - 1 :=
    calc |solUptime elapsed| * 10000 ≤ 800000000 * 10000 := by
          gcongr
          exact abs_solUptime_le span
      _ ≤ 10 ^ (9 + 4) - 1 := by norm_num
  exact Nat.lt_succ_of_le (strlen_fixed4_le (by decide) digits)

example : fixed4 (solUptime 123456789) = literal "1390.6669" := by decide +kernel

/-! ## The counters -/

theorem IsInt.isLongLong {v : Int} (range : IsInt v) : IsLongLong v := by
  obtain ⟨least, below⟩ := range
  constructor <;> omega

theorem printNumber_eq {v : Int} (range : IsLongLong v) : printNumber v = .ok (decimal v) :=
  sprintf_eq_ok (Nat.lt_succ_of_le (strlen_decimal_le_numberLen range))

/-- Only the array of 16 bytes can be too small. -/
theorem printStats_eq {info : SolInfo} {uptime : Int} (range : info.InRange)
    (uptimeRange : IsLongLong uptime) (elapsed : Int) :
    printStats info uptime elapsed =
      (sprintf 16 (fixed4 (solUptime elapsed))).map (statsMessages info uptime) := by
  rw [printStats, printNumber_eq range.nclients.isLongLong, printNumber_eq range.bytesSent,
    printNumber_eq range.messagesSent, printNumber_eq range.messagesRecv,
    printNumber_eq uptimeRange]
  cases sprintf 16 (fixed4 (solUptime elapsed)) <;> rfl

/-- The text of a number and its NUL fit into an array as long as `number_len` says, so that
`publish_stats` prints what it publishes, whatever its counters hold. -/
theorem statsBuffers_fit :
    (∀ v, IsLongLong v → strlen (decimal v) + 1 ≤ numberLen (sizeT v) + 1) ∧
      (∀ info uptime elapsed, SolInfo.InRange info → IsLongLong uptime →
        printStats info uptime elapsed =
          (sprintf 16 (fixed4 (solUptime elapsed))).map (statsMessages info uptime)) ∧
      ∀ info uptime elapsed, SolInfo.InRange info → IsLongLong uptime → |elapsed| ≤ 2 ^ 46 →
        printStats info uptime elapsed =
          .ok (statsMessages info uptime (fixed4 (solUptime elapsed))) := by
  refine ⟨?_, ?_, ?_⟩
  · intro v range
    exact Nat.succ_le_succ (strlen_decimal_le_numberLen range)
  · intro info uptime elapsed range uptimeRange
    exact printStats_eq range uptimeRange elapsed
  · intro info uptime elapsed range uptimeRange span
    rw [printStats_eq range uptimeRange, sprintf_solUptime span]
    rfl

/-- Counters at the ends of their ranges. -/
def extremeInfo : SolInfo where
  nclients := -2 ^ 31
  nconnections := 2 ^ 31 - 1
  bytesRecv := 2 ^ 63 - 1
  bytesSent := -2 ^ 63
  messagesSent := 0
  messagesRecv := -1

theorem extremeInfo_inRange : extremeInfo.InRange := by
  constructor <;> constructor <;> decide

theorem statsBuffers_fit_extremeInfo :
    strlen (decimal (-2 ^ 63)) + 1 ≤ numberLen (sizeT (-2 ^ 63)) + 1 ∧
      printStats extremeInfo (2 ^ 46) (2 ^ 46) =
        .ok (statsMessages extremeInfo (2 ^ 46) (fixed4 (solUptime (2 ^ 46)))) := by
  obtain ⟨numbers, _, stats⟩ := statsBuffers_fit
  refine ⟨numbers _ ⟨by decide, by decide⟩, ?_⟩
  exact stats _ _ _ extremeInfo_inRange ⟨by decide, by decide⟩ (by decide)

end SolBroker
