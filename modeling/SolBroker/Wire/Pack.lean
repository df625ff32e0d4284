import Mathlib
import SolBroker.Lib.Reader
import SolBroker.Wire.Packet

/-!
# Reading and writing primitive values

The functions of pack.c over a read pointer and a write pointer. Reading past the
end of the buffer is `outOfBounds`. A block being filled remembers its allocated
size and the bytes written from its start; writing past its size is
`heapOverflow`, and whatever was not written stays as `malloc` left it.
-/

namespace SolBroker

open Reading

abbrev ByteReader := Reader Fault UInt8

def unpackU8 : ByteReader UInt8 := next .outOfBounds

/-- Two bytes in network order. -/
def unpackU16 : ByteReader UInt16 := do
  let hi ← unpackU8
  let lo ← unpackU8
  return UInt16.ofNat (hi.toNat * 256 + lo.toNat)

def unpackBytes (len : Nat) : ByteReader (List UInt8) := take .outOfBounds len

/-- A length in two bytes, then that many bytes. -/
def unpackString16 : ByteReader (UInt16 × List UInt8) := do
  let len ← unpackU16
  let str ← unpackBytes len.toNat
  return (len, str)

/-- The two bytes of a 16-bit value in network order. -/
def u16Bytes (val : UInt16) : List UInt8 :=
  [UInt8.ofNat (val.toNat / 256), UInt8.ofNat (val.toNat % 256)]

@[simp] theorem length_u16Bytes (val : UInt16) : (u16Bytes val).length = 2 := rfl

theorem unpackU16_u16Bytes (val : UInt16) (rest : List UInt8) :
    unpackU16 (u16Bytes val ++ rest) = .ok (val, rest) := by
  have high : val.toNat / 256 < 256 := by
    have := val.toNat_lt
    omega
  have same : val.toNat / 256 * 256 + val.toNat % 256 = val.toNat := by omega
  change Except.ok (UInt16.ofNat ((UInt8.ofNat (val.toNat / 256)).toNat * 256 +
    (UInt8.ofNat (val.toNat % 256)).toNat), rest) = _
  rw [UInt8.toNat_ofNat_of_lt' high, UInt8.toNat_ofNat_of_lt' (Nat.mod_lt _ (by decide)), same,
    UInt16.ofNat_toNat]

/-- The length prefix of a string and the string itself. -/
def string16Bytes (str : List UInt8) : List UInt8 :=
  u16Bytes (UInt16.ofNat str.length) ++ str

@[simp] theorem length_string16Bytes (str : List UInt8) :
    (string16Bytes str).length = 2 + str.length := by
  simp [string16Bytes]

theorem unpackBytes_append (own rest : List UInt8) :
    unpackBytes own.length (own ++ rest) = .ok (own, rest) :=
  take_append _ own rest

theorem unpackString16_string16Bytes {str : List UInt8} (fits : str.length < 65536)
    (rest : List UInt8) :
    unpackString16 (string16Bytes str ++ rest) =
      .ok ((UInt16.ofNat str.length, str), rest) := by
  have length : (UInt16.ofNat str.length).toNat = str.length :=
    UInt16.toNat_ofNat_of_lt' fits
  rw [unpackString16, string16Bytes, List.append_assoc, bind_ok (unpackU16_u16Bytes _ _), length,
    bind_ok (unpackBytes_append _ _), pure_apply]

/-! Each reader takes exactly what encodes its result. -/

theorem unpackU16_eq_ok_iff {buf rest : List UInt8} {val : UInt16} :
    unpackU16 buf = .ok (val, rest) ↔ buf = u16Bytes val ++ rest := by
  constructor
  · intro run
    obtain ⟨hi, afterHi, first, run⟩ := bind_eq_ok_iff.mp run
    obtain ⟨lo, afterLo, second, run⟩ := bind_eq_ok_iff.mp run
    obtain rfl := next_eq_ok_iff.mp first
    obtain rfl := next_eq_ok_iff.mp second
    cases run
    have value : (UInt16.ofNat (hi.toNat * 256 + lo.toNat)).toNat = hi.toNat * 256 + lo.toNat := by
      have := hi.toNat_lt
      have := lo.toNat_lt
      exact UInt16.toNat_ofNat_of_lt' (by simp [UInt16.size]; omega)
    have high : (hi.toNat * 256 + lo.toNat) / 256 = hi.toNat := by
      have := lo.toNat_lt
      omega
    have low : (hi.toNat * 256 + lo.toNat) % 256 = lo.toNat := by
      have := lo.toNat_lt
      omega
    rw [u16Bytes, value, high, low, UInt8.ofNat_toNat, UInt8.ofNat_toNat]
    rfl
  · rintro rfl
    exact unpackU16_u16Bytes val rest

theorem unpackString16_eq_ok_iff {buf rest str : List UInt8} {len : UInt16} :
    unpackString16 buf = .ok ((len, str), rest) ↔
      str.length < 65536 ∧ len = UInt16.ofNat str.length ∧ buf = string16Bytes str ++ rest := by
  constructor
  · intro run
    obtain ⟨n, afterLength, length, run⟩ := bind_eq_ok_iff.mp run
    obtain ⟨own, afterBytes, bytes, run⟩ := bind_eq_ok_iff.mp run
    cases run
    obtain ⟨size, tail⟩ := take_eq_ok_iff.mp bytes
    have same : len = UInt16.ofNat str.length := by
      rw [size, UInt16.ofNat_toNat]
    refine ⟨size ▸ len.toNat_lt, same, ?_⟩
    rw [unpackU16_eq_ok_iff.mp length, tail, string16Bytes, ← same, List.append_assoc]
  · rintro ⟨fits, rfl, rfl⟩
    exact unpackString16_string16Bytes fits rest

theorem unpackU8_sequential : Sequential unpackU8 := Sequential.next _

theorem unpackU16_sequential : Sequential unpackU16 :=
  .bind unpackU8_sequential fun _ => .bind unpackU8_sequential fun _ => .pure _

theorem unpackString16_sequential : Sequential unpackString16 :=
  .bind unpackU16_sequential fun _ => .bind (.take _ _) fun _ => .pure _

/-! ### Writing -/

/-- A block from `malloc(size)` with the bytes written so far from its start. -/
structure Packed where
  size : Nat
  written : List UInt8
deriving DecidableEq, Repr

namespace Packed

/-- The block byte by byte; `none` where nothing was written. -/
def contents (p : Packed) : List (Option UInt8) :=
  p.written.map some ++ List.replicate (p.size - p.written.length) none

/-- Every byte of the block has been written. -/
def Determined (p : Packed) : Prop := ∀ cell ∈ p.contents, cell ≠ none

/-- A value the block's memory can have: the written bytes, and anything after. -/
def Holds (p : Packed) (bytes : List UInt8) : Prop :=
  bytes.length = p.size ∧ p.written <+: bytes

theorem determined_iff (p : Packed) : p.Determined ↔ p.size ≤ p.written.length := by
  constructor
  · intro h
    by_contra short
    have unwritten : (none : Option UInt8) ∈ p.contents := by
      rw [contents, List.mem_append, List.mem_replicate]
      exact .inr ⟨by omega, rfl⟩
    exact h none unwritten rfl
  · intro full cell member
    rw [contents, Nat.sub_eq_zero_of_le full, List.replicate_zero, List.append_nil] at member
    obtain ⟨b, _, rfl⟩ := List.mem_map.mp member
    exact Option.some_ne_none b

/-- A fully written block has only one possible content. -/
theorem Holds.eq_written {p : Packed} {bytes : List UInt8} (h : p.Holds bytes)
    (full : p.size ≤ p.written.length) : bytes = p.written :=
  (h.2.eq_of_length_le (by rw [h.1]; exact full)).symm

end Packed

abbrev ByteWriter := StateT Packed (Except Fault)

/-- `memcpy` to the write pointer, which then moves past what was copied. -/
def put (bytes : List UInt8) : ByteWriter Unit := fun p =>
  if p.written.length + bytes.length ≤ p.size then
    .ok ((), { p with written := p.written ++ bytes })
  else .error .heapOverflow

def packU8 (val : UInt8) : ByteWriter Unit := put [val]

def packU16 (val : UInt16) : ByteWriter Unit := put (u16Bytes val)

/-- A 16-bit value that is only written under a condition. -/
def packU16If (flag : Bool) (val : UInt16) : ByteWriter Unit :=
  if flag then packU16 val else pure ()

/-- `pack_bytes` finds the length of its argument with `strlen`. -/
def packBytes (str : List UInt8) : ByteWriter Unit := put (cstr str).bytes

/-- Run a writer on a fresh block of `size` bytes. -/
def packInto (size : Nat) (writer : ByteWriter Unit) : Except Fault Packed :=
  (writer ⟨size, []⟩).map Prod.snd

/-- The writer appends exactly `bytes` wherever they fit. -/
def Writes (writer : ByteWriter Unit) (bytes : List UInt8) : Prop :=
  ∀ p : Packed, p.written.length + bytes.length ≤ p.size →
    writer p = .ok ((), { p with written := p.written ++ bytes })

namespace Writes

theorem put (bytes : List UInt8) : Writes (SolBroker.put bytes) bytes := by
  intro p fits
  rw [SolBroker.put, if_pos fits]

theorem skip : Writes (pure ()) [] := by
  intro p _
  rw [List.append_nil]
  rfl

theorem seq {first second : ByteWriter Unit} {a b : List UInt8} (hfirst : Writes first a)
    (hsecond : Writes second b) : Writes (do first; second) (a ++ b) := by
  intro p fits
  rw [List.length_append] at fits
  change (first p >>= fun r => second r.2) = _
  rw [hfirst p (by omega)]
  have rest := hsecond { p with written := p.written ++ a } (by simp; omega)
  rwa [List.append_assoc] at rest

theorem packU16If (flag : Bool) (val : UInt16) :
    Writes (SolBroker.packU16If flag val) (if flag then u16Bytes val else []) := by
  cases flag
  · exact skip
  · exact put _

theorem packInto {writer : ByteWriter Unit} {bytes : List UInt8} (h : Writes writer bytes)
    {size : Nat} (fits : bytes.length ≤ size) :
    packInto size writer = .ok ⟨size, bytes⟩ := by
  rw [SolBroker.packInto, h ⟨size, []⟩ (by simpa using fits)]
  rfl

end Writes

/-- The writer overruns its block wherever `bytes` do not fit. -/
def Overruns (writer : ByteWriter Unit) (bytes : List UInt8) : Prop :=
  ∀ p : Packed, p.size < p.written.length + bytes.length → writer p = .error .heapOverflow

namespace Overruns

theorem put (bytes : List UInt8) : Overruns (SolBroker.put bytes) bytes := by
  intro p beyond
  rw [SolBroker.put, if_neg (not_le.mpr beyond)]

theorem seq {first second : ByteWriter Unit} {a b : List UInt8} (writes : Writes first a)
    (hfirst : Overruns first a) (hsecond : Overruns second b) :
    Overruns (do first; second) (a ++ b) := by
  intro p beyond
  rw [List.length_append] at beyond
  change (first p >>= fun r => second r.2) = _
  by_cases fits : p.written.length + a.length ≤ p.size
  · rw [writes p fits]
    apply hsecond { p with written := p.written ++ a }
    show p.size < (p.written ++ a).length + b.length
    rw [List.length_append]
    omega
  · rw [hfirst p (not_le.mp fits)]
    rfl

theorem packInto {writer : ByteWriter Unit} {bytes : List UInt8} (h : Overruns writer bytes)
    {size : Nat} (beyond : size < bytes.length) : packInto size writer = .error .heapOverflow := by
  rw [SolBroker.packInto, h ⟨size, []⟩ (by simpa using beyond)]
  rfl

end Overruns

/-- The writer has appended exactly `bytes` whenever it returns. -/
def Yields (writer : ByteWriter Unit) (bytes : List UInt8) : Prop :=
  ∀ p u p', writer p = .ok (u, p') → p' = { p with written := p.written ++ bytes }

namespace Yields

theorem put (bytes : List UInt8) : Yields (SolBroker.put bytes) bytes := by
  intro p u p' run
  rw [SolBroker.put] at run
  split at run
  · cases run
    rfl
  · cases run

theorem skip : Yields (pure ()) [] := by
  intro p u p' run
  cases run
  rw [List.append_nil]

theorem seq {first second : ByteWriter Unit} {a b : List UInt8} (hfirst : Yields first a)
    (hsecond : Yields second b) : Yields (do first; second) (a ++ b) := by
  intro p u p' run
  change (first p >>= fun r => second r.2) = _ at run
  cases ran : first p with
  | error e =>
      rw [ran] at run
      cases run
  | ok r =>
      rw [ran] at run
      rw [hsecond r.2 u p' run, hfirst p r.1 r.2 ran, List.append_assoc]

theorem packU16If (flag : Bool) (val : UInt16) :
    Yields (SolBroker.packU16If flag val) (if flag then u16Bytes val else []) := by
  cases flag
  · exact skip
  · exact put _

theorem packInto {writer : ByteWriter Unit} {bytes : List UInt8} (h : Yields writer bytes)
    {size : Nat} {packed : Packed} (run : packInto size writer = .ok packed) :
    packed = ⟨size, bytes⟩ := by
  rw [SolBroker.packInto] at run
  cases ran : writer ⟨size, []⟩ with
  | error e =>
      rw [ran] at run
      cases run
  | ok r =>
      rw [ran] at run
      cases run
      exact h _ r.1 r.2 ran

end Yields

end SolBroker
