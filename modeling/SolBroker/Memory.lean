import Mathlib
import SolBroker.Lib.Heap

/-!
# Faults, bytes and NUL-terminated strings

A C function either returns or reaches one of the faults below, after which the
language promises nothing; every function of the model that can reach one returns
in `Except Fault`. Strings are their bytes before the terminating NUL, so a
`CString` cannot hold a NUL. Letter case is folded as `tolower` does in the "C"
locale, which the program never changes.
-/

namespace SolBroker

/-- The ways an execution leaves what C defines, and the two ways it stops:
a failed assertion, and a call that does not return. `wrongMember` is reading a
union through another member than the one stored, which the program never does. -/
inductive Fault
  | nullDeref
  | nullCall
  | outOfBounds
  | stackOverflow
  | heapOverflow
  | useAfterFree
  | doubleFree
  | intOverflow
  | wrongMember
  | assertFailed
  | noReturn
deriving DecidableEq, Repr

/-- A sequence returns what its second part returns on what its first part does. -/
theorem bind_eq_ok.{u} {α β : Type u} {x : Except Fault α} {f : α → Except Fault β} {b : β} :
    (x >>= f) = .ok b ↔ ∃ a, x = .ok a ∧ f a = .ok b := by
  cases x with
  | error e => exact ⟨nofun, nofun⟩
  | ok a => exact ⟨fun h => ⟨a, rfl, h⟩, fun ⟨_, ha, h⟩ => Except.ok.inj ha ▸ h⟩

theorem toOption_eq_some.{u} {α : Type u} {x : Except Fault α} {a : α} :
    x.toOption = some a ↔ x = .ok a := by
  cases x with
  | error e => exact ⟨nofun, nofun⟩
  | ok b => exact ⟨fun h => congrArg Except.ok (Option.some.inj h),
      fun h => congrArg some (Except.ok.inj h)⟩

theorem map_eq_ok.{u, v} {α : Type u} {β : Type v} {x : Except Fault α} {f : α → β} {b : β} :
    x.map f = .ok b ↔ ∃ a, x = .ok a ∧ f a = b := by
  cases x with
  | error e => exact ⟨nofun, nofun⟩
  | ok a => exact ⟨fun h => ⟨a, rfl, Except.ok.inj h⟩,
      fun ⟨_, ha, h⟩ => Except.ok.inj ha ▸ congrArg _ h⟩

/-- A sequence fails where its first part does, or its second. -/
theorem bind_eq_error.{u} {α β : Type u} {x : Except Fault α} {f : α → Except Fault β} {e : Fault} :
    (x >>= f) = .error e ↔ x = .error e ∨ ∃ a, x = .ok a ∧ f a = .error e := by
  cases x with
  | error e' =>
      constructor
      · intro failed
        exact .inl (congrArg Except.error (Except.error.inj failed))
      · rintro (failed | ⟨_, found, _⟩)
        · exact congrArg Except.error (Except.error.inj failed)
        · cases found
  | ok a =>
      refine ⟨fun failed => .inr ⟨a, rfl, failed⟩, ?_⟩
      rintro (failed | ⟨_, found, failed⟩)
      · cases failed
      · cases found
        exact failed

/-- Reading through a pointer. -/
def deref {α : Type*} (heap : Heap α) (p : Nat) : Except Fault α :=
  match heap.get? p with
  | some a => .ok a
  | none => .error .useAfterFree

/-- Reading through a pointer that may be NULL. -/
def derefObj {α : Type*} (heap : Heap α) : Option Nat → Except Fault (Nat × α)
  | some p => (deref heap p).map fun a => (p, a)
  | none => .error .nullDeref

section Pointers

variable {α : Type*} {heap : Heap α} {p : Nat} {a : α}

theorem deref_eq_ok : deref heap p = .ok a ↔ heap.get? p = some a := by
  rw [deref]
  cases heap.get? p <;> simp

theorem derefObj_eq_ok {obj : Option Nat} {r : Nat × α} :
    derefObj heap obj = .ok r ↔ obj = some r.1 ∧ heap.get? r.1 = some r.2 := by
  cases obj with
  | none => simp [derefObj]
  | some q =>
      obtain ⟨p, a⟩ := r
      rw [derefObj, deref]
      cases held : heap.get? q with
      | none =>
          simp only [Except.map, reduceCtorEq, Option.some.injEq, false_iff, not_and]
          rintro rfl
          simp [held]
      | some a' =>
          simp only [Except.map, Except.ok.injEq, Prod.mk.injEq, Option.some.injEq]
          constructor
          · rintro ⟨rfl, rfl⟩
            exact ⟨rfl, held⟩
          · rintro ⟨rfl, held'⟩
            rw [held] at held'
            exact ⟨rfl, Option.some.inj held'⟩

end Pointers

/-- `INT_MAX` of the 32-bit `int` the program is built with. -/
def intMax : Nat := 2147483647

/-- A NUL-terminated string, without its terminator. -/
structure CString where
  bytes : List UInt8
  nulFree : 0 ∉ bytes
deriving DecidableEq, Repr

@[ext] theorem CString.ext {s t : CString} (h : s.bytes = t.bytes) : s = t := by
  cases s
  cases t
  simpa using h

/-- The string of one character. -/
def CString.letter (b : UInt8) (nonzero : b ≠ 0) : CString where
  bytes := [b]
  nulFree := by simpa using nonzero.symm

/-- The string read from a block that holds `block` and then a NUL: everything
before the first NUL. -/
def cstr (block : List UInt8) : CString where
  bytes := block.takeWhile (· ≠ 0)
  nulFree := fun member => by simpa using List.mem_takeWhile_imp member

theorem cstr_bytes_of_nulFree {block : List UInt8} (h : 0 ∉ block) :
    (cstr block).bytes = block := by
  rw [cstr, List.takeWhile_eq_self_iff]
  intro b member
  have nonzero : b ≠ 0 := fun zero => h (zero ▸ member)
  simpa using nonzero

theorem cstr_length_le (block : List UInt8) : (cstr block).bytes.length ≤ block.length :=
  (List.takeWhile_prefix _).length_le

/-- A NUL inside the block makes the string shorter than the block. -/
theorem cstr_length_lt {block : List UInt8} (h : 0 ∈ block) :
    (cstr block).bytes.length < block.length := by
  apply lt_of_le_of_ne (cstr_length_le block)
  intro same
  have whole : (cstr block).bytes = block :=
    (List.takeWhile_prefix _).eq_of_length same
  have nulFree := (cstr block).nulFree
  rw [whole] at nulFree
  exact nulFree h

/-- A string constant of the program. -/
def literal (s : String) : CString :=
  cstr (s.toList.map fun c => UInt8.ofNat c.toNat)

/-- The front of a string, up to the first byte that a loop does not pass. -/
def CString.takeWhile (p : UInt8 → Bool) (s : CString) : CString where
  bytes := s.bytes.takeWhile p
  nulFree := fun member => s.nulFree ((List.takeWhile_prefix p).subset member)

/-- Where a loop stops that moves a pointer along a string. -/
def CString.dropWhile (p : UInt8 → Bool) (s : CString) : CString where
  bytes := s.bytes.dropWhile p
  nulFree := fun member => s.nulFree ((List.dropWhile_suffix p).subset member)

def strlen (s : CString) : Nat := s.bytes.length

/-- `tolower` on bytes: only the 26 ASCII capitals move. -/
def tolower (b : UInt8) : UInt8 :=
  if 65 ≤ b ∧ b ≤ 90 then b + 32 else b

theorem tolower_ne_zero {b : UInt8} (h : b ≠ 0) : tolower b ≠ 0 := by
  unfold tolower
  split
  · rename_i capital
    intro zero
    have := congrArg UInt8.toNat zero
    have low := UInt8.le_iff_toNat_le.mp capital.1
    have high := UInt8.le_iff_toNat_le.mp capital.2
    simp at this low high
    omega
  · exact h

/-- `strncasecmp`: compare at most `n` bytes, letter case folded, stopping where
both strings end. A string that ends first compares as a NUL. -/
def strncasecmp : List UInt8 → List UInt8 → Nat → Int
  | _, _, 0 => 0
  | [], [], _ + 1 => 0
  | [], b :: _, _ + 1 => -((tolower b).toNat : Int)
  | a :: _, [], _ + 1 => (tolower a).toNat
  | a :: s, b :: t, n + 1 =>
      if tolower a = tolower b then strncasecmp s t n
      else (tolower a).toNat - (tolower b).toNat

/-- `STREQ(s1, s2, len)` of util.h. -/
def streq (s1 s2 : CString) (len : Nat) : Bool :=
  strncasecmp s1.bytes s2.bytes len == 0

/-- `s` is a prefix of `t` up to letter case. -/
def CString.CasePrefix (s t : CString) : Prop :=
  s.bytes.map tolower <+: t.bytes.map tolower

instance (s t : CString) : Decidable (s.CasePrefix t) :=
  inferInstanceAs (Decidable (_ <+: _))

theorem CString.CasePrefix.refl (s : CString) : s.CasePrefix s :=
  List.prefix_refl _

theorem CString.CasePrefix.trans {s t u : CString} (left : s.CasePrefix t)
    (right : t.CasePrefix u) : s.CasePrefix u :=
  List.IsPrefix.trans left right

private theorem toNat_sub_ne_zero {a b : UInt8} (h : a ≠ b) :
    ((a.toNat : Int) - b.toNat) ≠ 0 := by
  intro zero
  exact h (UInt8.toNat_inj.mp (by omega))

/-- Bounding the comparison by the length of its first string leaves a prefix
test: this is what `STREQ` decides at both of its call shapes. -/
theorem strncasecmp_length_eq_zero_iff {s : List UInt8} (nulFree : 0 ∉ s) (t : List UInt8) :
    strncasecmp s t s.length = 0 ↔ s.map tolower <+: t.map tolower := by
  induction s generalizing t with
  | nil => cases t <;> simp [strncasecmp]
  | cons a s ih =>
      have first : a ≠ 0 := fun zero => nulFree (by simp [zero])
      cases t with
      | nil =>
          have folded : (tolower a).toNat ≠ 0 :=
            fun zero => tolower_ne_zero first (UInt8.toNat_inj.mp (by simpa using zero))
          simpa [strncasecmp] using folded
      | cons b t =>
          simp only [List.length_cons, strncasecmp, List.map_cons, List.cons_prefix_cons]
          by_cases same : tolower a = tolower b
          · rw [if_pos same, ih (fun member => nulFree (List.mem_cons_of_mem _ member))]
            simp [same]
          · rw [if_neg same]
            simp [same, toNat_sub_ne_zero same]

/-- The comparison of `hashtable_hash`, bounded by the stored key. -/
theorem streq_left_iff (s t : CString) : streq s t (strlen s) = true ↔ s.CasePrefix t := by
  simp only [streq, strlen, beq_iff_eq]
  exact strncasecmp_length_eq_zero_iff s.nulFree t.bytes

/-- Comparing two strings the other way round only flips the sign. -/
theorem strncasecmp_swap (s t : List UInt8) (n : Nat) :
    strncasecmp s t n = -strncasecmp t s n := by
  induction n generalizing s t with
  | zero => cases s <;> cases t <;> simp [strncasecmp]
  | succ n ih =>
      cases s with
      | nil => cases t <;> simp [strncasecmp]
      | cons a s =>
          cases t with
          | nil => simp [strncasecmp]
          | cons b t =>
              simp only [strncasecmp]
              by_cases same : tolower a = tolower b
              · simp [same, ih s t]
              · rw [if_neg same, if_neg (Ne.symm same)]
                omega

/-- The comparison of `hashtable_get` and `hashtable_del`, bounded by the key
that is looked for. -/
theorem streq_right_iff (s t : CString) : streq s t (strlen t) = true ↔ t.CasePrefix s := by
  rw [← streq_left_iff t s]
  simp only [streq, beq_iff_eq]
  rw [strncasecmp_swap]
  omega

end SolBroker
