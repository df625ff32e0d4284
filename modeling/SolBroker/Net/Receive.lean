import Mathlib
import SolBroker.Net.Socket

/-!
# Receiving one packet

`recv_packet` reads the first byte, the length bytes and the body into the block
`on_read` allocated, whose length is `max_request_size`. The first byte is tested
against the packet numbers as a whole byte. Length bytes go to the block from
offset 1 and to the stack array `buff[4]`; the body always goes to offset 2.
-/

namespace SolBroker

def errClientDC : Int := 1
def errPacketErr : Int := 2
def errMaxReqSize : Int := 3

/-- What `recv_packet` leaves: its return value, `*command`, the block, the rest
of the socket, and whether it closed the descriptor. -/
structure RecvPacket where
  nbytes : Int
  command : UInt8
  block : List UInt8
  events : List RecvEvent
  closed : Bool
deriving DecidableEq, Repr

/-- The loop over the length bytes, with `room` free cells left in `buff[4]` and
`buff` filled so far. `none` when a byte is missing. -/
def recvLengthLoop : Nat → List UInt8 → List RecvEvent → List UInt8 →
    Except Fault (Option (List UInt8) × List RecvEvent × List UInt8)
  | 0, buff, events, block => do
      let (byte, events, block) ← recvByte events block (1 + buff.length)
      match byte with
      | none => return (none, events, block)
      | some _ => throw .stackOverflow
  | room + 1, buff, events, block => do
      let (byte, events, block) ← recvByte events block (1 + buff.length)
      match byte with
      | none => return (none, events, block)
      | some c =>
          if c &&& 128 ≠ 0 then recvLengthLoop room (buff ++ [c]) events block
          else return (some (buff ++ [c]), events, block)

/-- The cells of `buff`. -/
def buffSize : Nat := 4

/-- The part of `recv_packet` after the Remaining Length is known. -/
def recvBody (tlen : Nat) (byte : UInt8) (nbytes : Int) (events : List RecvEvent)
    (block : List UInt8) : Except Fault RecvPacket :=
  if block.length < tlen then return ⟨-errMaxReqSize, 0, block, events, false⟩
  else do
    let r := recvBytes events tlen
    let block ← store block 2 r.stored
    -- the error exit returns the bytes counted so far, which is a positive number
    if r.ret < 0 then return ⟨nbytes, 0, block, r.events, true⟩
    else return ⟨nbytes + r.ret, byte, block, r.events, false⟩

/-- `recv_packet`, with `block` the caller's buffer. -/
def recvPacket (events : List RecvEvent) (block : List UInt8) : Except Fault RecvPacket := do
  let (byte, events, block) ← recvByte events block 0
  match byte with
  | none => return ⟨-errClientDC, 0, block, events, false⟩
  | some byte =>
      if PacketType.disconnect.code < byte.toNat ∨ byte.toNat < PacketType.connect.code then
        return ⟨-errPacketErr, 0, block, events, false⟩
      else do
        let (buff, events, block) ← recvLengthLoop buffSize [] events block
        match buff with
        | none => return ⟨-errClientDC, 0, block, events, false⟩
        | some buff => do
            let (tlen, _) ← mqttDecodeLength buff
            recvBody tlen byte (1 + buff.length) events block

/-! ### Length fields -/

/-- A complete length field: all bytes but the last announce another one. -/
def IsLengthField (field : List UInt8) : Prop :=
  ∃ init last, field = init ++ [last] ∧ (∀ c ∈ init, 128 ≤ c.toNat) ∧ last.toNat < 128

/-- The number a length field stands for, least significant byte first. -/
def lengthValue : List UInt8 → Nat
  | [] => 0
  | c :: field => c.toNat % 128 + 128 * lengthValue field

/-- Every byte that arrived announces another one, and at most the `room` of
`buff` arrived. -/
def LengthCut (room : Nat) (rest : List UInt8) : Prop :=
  (∀ c ∈ rest, 128 ≤ c.toNat) ∧ rest.length ≤ room

/-- The bytes start with a complete length field that fits into `room`. -/
def LengthArrives (room : Nat) (rest field : List UInt8) : Prop :=
  field <+: rest ∧ IsLengthField field ∧ field.length ≤ room

theorem isLengthField_singleton {c : UInt8} (last : c.toNat < 128) : IsLengthField [c] :=
  ⟨[], c, rfl, by simp, last⟩

theorem isLengthField_cons_iff {c : UInt8} {field : List UInt8} (more : 128 ≤ c.toNat) :
    IsLengthField (c :: field) ↔ IsLengthField field := by
  constructor
  · rintro ⟨init, last, eq, continued, final⟩
    cases init with
    | nil =>
        cases eq
        omega
    | cons d init =>
        cases eq
        exact ⟨init, last, rfl, fun e member => continued e (List.mem_cons_of_mem _ member), final⟩
  · rintro ⟨init, last, rfl, continued, final⟩
    refine ⟨c :: init, last, rfl, ?_, final⟩
    intro e member
    rcases List.mem_cons.mp member with rfl | member
    · exact more
    · exact continued e member

/-- A length field that starts with a final byte is that byte. -/
theorem IsLengthField.eq_singleton {c : UInt8} {field : List UInt8} (last : c.toNat < 128)
    (h : IsLengthField (c :: field)) : field = [] := by
  obtain ⟨init, final, eq, continued, _⟩ := h
  cases init with
  | nil => simpa using congrArg List.tail eq
  | cons d init =>
      cases eq
      have := continued c (by simp)
      omega

theorem IsLengthField.ne_nil {field : List UInt8} (h : IsLengthField field) : field ≠ [] := by
  obtain ⟨init, last, rfl, _⟩ := h
  simp

/-- Two complete length fields at the front of the same bytes are the same. -/
theorem IsLengthField.unique {field other rest : List UInt8} (h : IsLengthField field)
    (h' : IsLengthField other) (front : field <+: rest) (front' : other <+: rest) :
    field = other := by
  induction field generalizing other rest with
  | nil => exact absurd rfl h.ne_nil
  | cons c field ih =>
      obtain ⟨d, other, rfl⟩ := List.exists_cons_of_ne_nil h'.ne_nil
      cases rest with
      | nil => simp at front
      | cons e rest =>
          obtain ⟨rfl, tail⟩ := List.cons_prefix_cons.mp front
          obtain ⟨rfl, tail'⟩ := List.cons_prefix_cons.mp front'
          by_cases more : 128 ≤ d.toNat
          · rw [ih ((isLengthField_cons_iff more).mp h) ((isLengthField_cons_iff more).mp h')
              tail tail']
          · rw [h.eq_singleton (by omega), h'.eq_singleton (by omega)]

/-- A complete length field is not cut. -/
theorem LengthArrives.not_cut {room n : Nat} {rest field : List UInt8}
    (h : LengthArrives room rest field) : ¬ LengthCut n rest := by
  rintro ⟨continued, _⟩
  obtain ⟨start, ⟨init, last, rfl, _, final⟩, _⟩ := h
  have := continued last (start.subset (by simp))
  omega

/-- Decoding a length field of at most four bytes, whatever follows it. -/
theorem decodeLengthLoop_field {field : List UInt8} (complete : IsLengthField field)
    {multiplier : Nat} (value : Nat) (small : multiplier * 128 ^ field.length ≤ 2 ^ 28)
    (rest : List UInt8) :
    decodeLengthLoop multiplier value (field ++ rest) =
      .ok (value + lengthValue field * multiplier, rest) := by
  induction field generalizing multiplier value with
  | nil => exact absurd rfl complete.ne_nil
  | cons c field ih =>
      have power : multiplier * 128 * 128 ^ field.length ≤ 2 ^ 28 := by
        rwa [Nat.mul_assoc, ← Nat.pow_succ']
      have bound : multiplier * 128 ≤ intMax := by
        have : multiplier * 128 * 1 ≤ multiplier * 128 * 128 ^ field.length :=
          Nat.mul_le_mul_left _ (Nat.one_le_pow _ _ (by decide))
        unfold intMax
        omega
      rw [List.cons_append]
      by_cases more : 128 ≤ c.toNat
      · rw [decodeLengthLoop_more more bound, ih ((isLengthField_cons_iff more).mp complete) _
          power,
          lengthValue]
        congr 2
        ring
      · have last : c.toNat < 128 := by omega
        obtain rfl := complete.eq_singleton last
        rw [decodeLengthLoop_last last bound, lengthValue, lengthValue, Nat.mod_eq_of_lt last]
        simp

theorem mqttDecodeLength_field_append {field : List UInt8} (complete : IsLengthField field)
    (few : field.length ≤ buffSize) (rest : List UInt8) :
    mqttDecodeLength (field ++ rest) = .ok (lengthValue field, rest) := by
  have small : 1 * 128 ^ field.length ≤ 2 ^ 28 := by
    rw [Nat.one_mul]
    exact Nat.pow_le_pow_right (by decide) few
  simpa [mqttDecodeLength] using decodeLengthLoop_field complete 0 small rest

theorem mqttDecodeLength_field {field : List UInt8} (complete : IsLengthField field)
    (few : field.length ≤ buffSize) : mqttDecodeLength field = .ok (lengthValue field, []) := by
  simpa using mqttDecodeLength_field_append complete few []

/-! ### What the length loop does -/

/-- The three ways the length loop ends, each with the exact condition on the
bytes that arrived. -/
inductive LengthRead (room : Nat) (rest buff block : List UInt8) :
    Except Fault (Option (List UInt8) × List RecvEvent × List UInt8) → Prop
  | cut {events' block'} (cut : LengthCut room rest)
      (fits : 1 + buff.length + rest.length ≤ block.length) :
      LengthRead room rest buff block (.ok (none, events', block'))
  | field {field events' block'} (arrives : LengthArrives room rest field)
      (fits : 1 + buff.length + field.length ≤ block.length)
      (length : block'.length = block.length) (head : block'.head? = block.head?) :
      LengthRead room rest buff block (.ok (some (buff ++ field), events', block'))
  | fault {e}
      (notCut : ¬ (LengthCut room rest ∧ 1 + buff.length + rest.length ≤ block.length))
      (noField : ∀ field, LengthArrives room rest field →
        ¬ 1 + buff.length + field.length ≤ block.length) :
      LengthRead room rest buff block (.error e)

/-- No byte arrives. -/
private theorem lengthRead_nil {room : Nat} {buff block : List UInt8} {events : List RecvEvent}
    (h : arrived events = []) :
    LengthRead room [] buff block (recvLengthLoop room buff events block) := by
  have noField (field : List UInt8) : ¬ LengthArrives room [] field := fun arrives =>
    arrives.2.1.ne_nil (List.prefix_nil.mp arrives.1)
  by_cases inside : 1 + buff.length ≤ block.length
  · have run : recvLengthLoop room buff events block =
        .ok (none, (recvBytes events 1).events, block) := by
      cases room <;> simp only [recvLengthLoop, recvByte_nil h inside] <;> rfl
    rw [run]
    exact .cut ⟨by simp, by simp⟩ (by simpa using inside)
  · have run : recvLengthLoop room buff events block = .error .heapOverflow := by
      cases room <;> simp only [recvLengthLoop, recvByte_overflow h inside] <;> rfl
    rw [run]
    exact .fault (fun cut => inside (by simpa using cut.2)) fun field arrives _ =>
      noField field arrives

/-- The block is too short for the next length byte. -/
private theorem lengthRead_overflow {room : Nat} {buff block rest : List UInt8} {c : UInt8}
    {e : Fault} (outside : ¬ 1 + buff.length + 1 ≤ block.length) :
    LengthRead room (c :: rest) buff block (.error e) := by
  refine .fault (fun cut => outside ?_) fun field arrives fits => outside ?_
  · have := cut.2
    rw [List.length_cons] at this
    omega
  · have := List.length_pos_of_ne_nil arrives.2.1.ne_nil
    omega

/-- Reading a byte that announces another one, and then the others. -/
private theorem LengthRead.cons {room : Nat} {rest buff block block' : List UInt8} {c : UInt8}
    {result : Except Fault (Option (List UInt8) × List RecvEvent × List UInt8)}
    (h : LengthRead room rest (buff ++ [c]) block' result) (more : 128 ≤ c.toNat)
    (length : block'.length = block.length) (head : block'.head? = block.head?) :
    LengthRead (room + 1) (c :: rest) buff block result := by
  have size : (buff ++ [c]).length = buff.length + 1 := by simp
  cases h with
  | cut cut fits =>
      refine .cut ⟨?_, ?_⟩ ?_
      · intro d member
        rcases List.mem_cons.mp member with rfl | member
        · exact more
        · exact cut.1 d member
      · simpa using cut.2
      · rw [List.length_cons]
        omega
  | @field field _ _ arrives fits length' head' =>
      rw [List.append_assoc, List.singleton_append]
      refine .field ⟨List.cons_prefix_cons.mpr ⟨rfl, arrives.1⟩,
        (isLengthField_cons_iff more).mpr arrives.2.1, ?_⟩ ?_ (length'.trans length)
        (head'.trans head)
      · simpa using arrives.2.2
      · rw [List.length_cons]
        omega
  | fault notCut noField =>
      refine .fault (fun cut => notCut ⟨⟨?_, ?_⟩, ?_⟩) fun field arrives fits => ?_
      · exact fun d member => cut.1.1 d (List.mem_cons_of_mem _ member)
      · simpa using cut.1.2
      · have := cut.2
        rw [List.length_cons] at this
        omega
      · obtain ⟨d, field, rfl⟩ := List.exists_cons_of_ne_nil arrives.2.1.ne_nil
        obtain ⟨rfl, start⟩ := List.cons_prefix_cons.mp arrives.1
        refine noField field ⟨start, (isLengthField_cons_iff more).mp arrives.2.1, ?_⟩ ?_
        · simpa using arrives.2.2
        · rw [List.length_cons] at fits
          omega

theorem recvLengthLoop_spec (room : Nat) (buff block rest : List UInt8)
    (events : List RecvEvent) (h : arrived events = rest) :
    LengthRead room rest buff block (recvLengthLoop room buff events block) := by
  induction room generalizing buff block rest events with
  | zero =>
      cases rest with
      | nil => exact lengthRead_nil h
      | cons c rest =>
          obtain ⟨events', left, received⟩ :=
            recvByte_cons h block (1 + buff.length)
          simp only [recvLengthLoop, received]
          cases stored : store block (1 + buff.length) [c] with
          | error e => exact lengthRead_overflow (not_le_of_store_error stored)
          | ok block' =>
              -- a fifth length byte
              refine .fault (fun cut => absurd cut.1.2 (by simp)) fun field arrives _ => ?_
              have := List.length_pos_of_ne_nil arrives.2.1.ne_nil
              have := arrives.2.2
              omega
  | succ room ih =>
      cases rest with
      | nil => exact lengthRead_nil h
      | cons c rest =>
          obtain ⟨events', left, received⟩ :=
            recvByte_cons h block (1 + buff.length)
          simp only [recvLengthLoop, received]
          cases stored : store block (1 + buff.length) [c] with
          | error e => exact lengthRead_overflow (not_le_of_store_error stored)
          | ok block' =>
              have length := length_of_store stored
              have head := head?_of_store (by omega) stored
              have fits : 1 + buff.length + 1 ≤ block.length := (store_eq_ok_iff.mp stored).1
              change LengthRead _ _ _ _ (if c &&& 128 ≠ 0 then
                recvLengthLoop room (buff ++ [c]) events' block' else _)
              by_cases more : 128 ≤ c.toNat
              · rw [if_pos ((and_128_ne_zero_iff c).mpr more)]
                exact (ih (buff ++ [c]) block' rest events' left).cons more length head
              · rw [if_neg fun h => more ((and_128_ne_zero_iff c).mp h)]
                exact .field ⟨⟨rest, rfl⟩, isLengthField_singleton (by omega), by simp⟩
                  (by simpa using fits) length head

end SolBroker
