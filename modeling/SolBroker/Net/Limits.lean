import Mathlib
import SolBroker.Net.Packet

/-!
# How far the buffers are filled

`recv_packet` has two buffers. The loop over the length bytes is driven by the continuation
bits alone, and what bounds it to the four cells of `buff` is that no fifth byte arrives. The
block of `max_request_size` bytes takes the first byte, the length bytes and, from offset 2,
the body, and it is the length of the body alone that is held against its size.
-/

namespace SolBroker

/-! ## What is taken off a stream -/

/-- All bytes of a stream, also those behind an event that is no data. -/
def streamed : List RecvEvent → List UInt8
  | [] => []
  | .data b more :: events => b :: more ++ streamed events
  | _ :: events => streamed events

theorem streamed_unread (bytes : List UInt8) (events : List RecvEvent) :
    streamed (unread bytes events) = bytes ++ streamed events := by
  cases bytes <;> rfl

/-- What is stored is taken off the stream, and nothing else is. -/
theorem recvBytesLoop_streamed (total : List UInt8) (n : Nat) (events : List RecvEvent) :
    (recvBytesLoop total n events).stored ++ streamed (recvBytesLoop total n events).events =
      total ++ streamed events := by
  induction events generalizing total n with
  | nil => cases n <;> simp [recvBytesLoop]
  | cons event events ih =>
      cases n with
      | zero => simp [recvBytesLoop]
      | succ want =>
          cases event with
          | wouldBlock | eof | err => simp [recvBytesLoop, streamed]
          | data b more =>
              have front : streamed (.data b more :: events) = b :: more ++ streamed events := rfl
              rw [recvBytesLoop, front]
              split
              · rw [streamed_unread, List.append_assoc, ← List.append_assoc (List.take _ _),
                  List.take_append_drop]
              · rw [ih, List.append_assoc]

/-- A byte that is asked for is taken off the stream if it arrives. -/
theorem streamed_of_recvByte {events events' : List RecvEvent} {block block' : List UInt8}
    {offset : Nat} {byte : Option UInt8}
    (run : recvByte events block offset = .ok (byte, events', block')) :
    streamed events = byte.toList ++ streamed events' := by
  have taken := recvBytesLoop_streamed [] 1 events
  rw [recvByte] at run
  obtain ⟨stored, _, run⟩ := bind_eq_ok.mp run
  change (recvBytes events 1).stored ++ streamed (recvBytes events 1).events = _ at taken
  cases bytes : arrived events with
  | nil =>
      obtain ⟨ret, none⟩ := recvBytes_one_nil bytes
      rw [if_pos ret] at run
      cases run
      rw [none] at taken
      exact taken.symm
  | cons b rest =>
      obtain ⟨left, received, _⟩ := recvBytes_one_cons bytes
      rw [received] at run taken
      cases run
      exact taken.symm

/-! ## The length bytes -/

/-- The part of `recv_packet` that reads the Remaining Length: the number it stands for and
how many bytes it took, or nothing if one of them was missing. -/
def readLength (events : List RecvEvent) (block : List UInt8) :
    Except Fault (Option (Nat × Nat) × List RecvEvent × List UInt8) := do
  let (buff, events, block) ← recvLengthLoop buffSize [] events block
  match buff with
  | none => return (none, events, block)
  | some buff => do
      let (tlen, _) ← mqttDecodeLength buff
      return (some (tlen, buff.length), events, block)

/-- The first four length bytes all announce another one. -/
def TooWide (bytes : List UInt8) : Prop :=
  ∃ field, field <+: bytes ∧ field.length = buffSize ∧ ∀ c ∈ field, 128 ≤ c.toNat

/-- Reading the length stays within `buff` and the range of the multiplier, takes at most four
bytes off the stream, and turns away a length that goes on behind its fourth byte. -/
structure LengthBounded (events : List RecvEvent) (block : List UInt8) : Prop where
  inside : ∀ e, readLength events block = .error e → e ≠ .stackOverflow ∧ e ≠ .intOverflow
  few : ∀ tlen events' block', readLength events block = .ok (tlen, events', block') →
    ∃ taken, streamed events = taken ++ streamed events' ∧ taken.length ≤ 4
  rejects : TooWide (arrived events) →
    ∃ events' block', readLength events block = .ok (none, events', block')

/-- The loop takes no more bytes than `buff` has room for. -/
theorem streamed_of_recvLengthLoop {room : Nat} {buff block block' : List UInt8}
    {events events' : List RecvEvent} {result : Option (List UInt8)}
    (run : recvLengthLoop room buff events block = .ok (result, events', block')) :
    ∃ taken, streamed events = taken ++ streamed events' ∧ taken.length ≤ room := by
  induction room generalizing buff block events with
  | zero =>
      rw [recvLengthLoop] at run
      obtain ⟨⟨byte, left, block₁⟩, received, run⟩ := bind_eq_ok.mp run
      have taken := streamed_of_recvByte received
      cases byte with
      | some c => cases run
      | none =>
          cases run
          exact ⟨[], taken, le_refl _⟩
  | succ room ih =>
      rw [recvLengthLoop] at run
      obtain ⟨⟨byte, left, block₁⟩, received, run⟩ := bind_eq_ok.mp run
      have taken := streamed_of_recvByte received
      cases byte with
      | none =>
          cases run
          exact ⟨[], taken, Nat.zero_le _⟩
      | some c =>
          change (if c &&& 128 ≠ 0 then recvLengthLoop room (buff ++ [c]) left block₁
            else .ok (some (buff ++ [c]), left, block₁)) = _ at run
          split at run
          · obtain ⟨others, rest, few⟩ := ih run
            exact ⟨c :: others, by rw [taken, rest]; rfl, Nat.succ_le_succ few⟩
          · cases run
            exact ⟨[c], taken, Nat.succ_le_succ (Nat.zero_le _)⟩

theorem recvByte_error {events : List RecvEvent} {block : List UInt8} {offset : Nat} {e : Fault}
    (run : recvByte events block offset = .error e) : e = .heapOverflow := by
  obtain stored | ⟨block', _, run⟩ := bind_eq_error.mp run
  · rw [store] at stored
    split at stored <;> cases stored
    rfl
  · split at run <;> cases run

theorem arrived_of_recvByte {events events' : List RecvEvent} {block block' : List UInt8}
    {offset : Nat} {c : UInt8}
    (run : recvByte events block offset = .ok (some c, events', block')) :
    arrived events = c :: arrived events' := by
  rw [recvByte] at run
  obtain ⟨stored, _, run⟩ := bind_eq_ok.mp run
  cases bytes : arrived events with
  | nil =>
      obtain ⟨ret, _⟩ := recvBytes_one_nil bytes
      rw [if_pos ret] at run
      cases run
  | cons b rest =>
      obtain ⟨left, received, rfl⟩ := recvBytes_one_cons bytes
      rw [received] at run
      cases run
      rfl

/-- The loop overruns the block, or `buff` with a byte more than it has room for. -/
theorem recvLengthLoop_error {room : Nat} {buff block : List UInt8} {events : List RecvEvent}
    {e : Fault} (run : recvLengthLoop room buff events block = .error e) :
    e = .heapOverflow ∨ e = .stackOverflow ∧ ∃ field c, field ++ [c] <+: arrived events ∧
      field.length = room ∧ ∀ d ∈ field, 128 ≤ d.toNat := by
  induction room generalizing buff block events with
  | zero =>
      rw [recvLengthLoop] at run
      obtain failed | ⟨⟨byte, left, block₁⟩, received, run⟩ := bind_eq_error.mp run
      · exact .inl (recvByte_error failed)
      · cases byte with
        | none => cases run
        | some c =>
            cases run
            refine .inr ⟨rfl, [], c, ?_, rfl, by simp⟩
            rw [arrived_of_recvByte received]
            exact List.prefix_append [c] _
  | succ room ih =>
      rw [recvLengthLoop] at run
      obtain failed | ⟨⟨byte, left, block₁⟩, received, run⟩ := bind_eq_error.mp run
      · exact .inl (recvByte_error failed)
      · cases byte with
        | none => cases run
        | some c =>
            change (if c &&& 128 ≠ 0 then recvLengthLoop room (buff ++ [c]) left block₁
              else .ok (some (buff ++ [c]), left, block₁)) = _ at run
            split at run
            · rename_i more
              obtain overflow | ⟨stack, field, d, front, size, continued⟩ := ih run
              · exact .inl overflow
              · refine .inr ⟨stack, c :: field, d, ?_, by rw [List.length_cons, size], ?_⟩
                · rw [arrived_of_recvByte received]
                  exact List.cons_prefix_cons.mpr ⟨rfl, front⟩
                · rintro d member
                  obtain rfl | member := List.mem_cons.mp member
                  · exact (and_128_ne_zero_iff d).mp more
                  · exact continued d member
            · cases run

/-- Four bytes that announce another one leave no complete length field. -/
theorem TooWide.not_arrives {bytes field : List UInt8} (wide : TooWide bytes) :
    ¬ LengthArrives buffSize bytes field := by
  rintro ⟨front', ⟨init, last, rfl, _, final⟩, few⟩
  obtain ⟨four, front, size, continued⟩ := wide
  have inside : init ++ [last] <+: four := by
    refine List.prefix_of_prefix_length_le front' front ?_
    rw [size]
    exact few
  have := continued last (inside.subset (by simp))
  omega

theorem TooWide.cut_iff {bytes : List UInt8} (wide : TooWide bytes) :
    LengthCut buffSize bytes ↔ bytes.length = 4 := by
  obtain ⟨four, front, size, continued⟩ := wide
  constructor
  · rintro ⟨_, few⟩
    have := front.length_le
    exact le_antisymm few (size.ge.trans this)
  · intro exact_
    have same : four = bytes := front.eq_of_length (size.trans exact_.symm)
    exact ⟨same ▸ continued, exact_.le⟩

section Length

variable {events : List RecvEvent} {block : List UInt8}

theorem readLength_of_cut {events' : List RecvEvent} {block' : List UInt8}
    (loop : recvLengthLoop buffSize [] events block = .ok (none, events', block')) :
    readLength events block = .ok (none, events', block') := by
  rw [readLength, loop]
  rfl

theorem readLength_of_field {events' : List RecvEvent} {block' field : List UInt8}
    (loop : recvLengthLoop buffSize [] events block = .ok (some field, events', block'))
    (complete : IsLengthField field) (few : field.length ≤ buffSize) :
    readLength events block = .ok (some (lengthValue field, field.length), events', block') := by
  rw [readLength, loop]
  show (mqttDecodeLength field >>= _) = _
  rw [mqttDecodeLength_field complete few]
  rfl

theorem readLength_of_error {e : Fault}
    (loop : recvLengthLoop buffSize [] events block = .error e) :
    readLength events block = .error e := by
  rw [readLength, loop]
  rfl

/-- Reading the length fails in one of the two buffers; the multiplier stays in its range. -/
theorem readLength_error {e : Fault} (run : readLength events block = .error e) :
    e = .heapOverflow ∨ e = .stackOverflow ∧ TooWide (arrived events) ∧
      4 < (arrived events).length := by
  have read := recvLengthLoop_spec buffSize [] block _ events rfl
  generalize loop : recvLengthLoop buffSize [] events block = result at read
  cases read with
  | cut cut fits =>
      rw [readLength_of_cut loop] at run
      cases run
  | field arrives fits length head =>
      rw [readLength_of_field loop arrives.2.1 arrives.2.2] at run
      cases run
  | fault notCut noField =>
      rw [readLength_of_error loop] at run
      cases run
      obtain heap | ⟨stack, field, c, front, size, continued⟩ := recvLengthLoop_error loop
      · exact .inl heap
      · refine .inr ⟨stack, ⟨field, (List.prefix_append _ _).trans front, size, continued⟩, ?_⟩
        have := front.length_le
        rw [List.length_append, size] at this
        exact this

theorem readLength_streamed {tlen : Option (Nat × Nat)} {events' : List RecvEvent}
    {block' : List UInt8} (run : readLength events block = .ok (tlen, events', block')) :
    ∃ taken, streamed events = taken ++ streamed events' ∧ taken.length ≤ 4 := by
  rw [readLength] at run
  obtain ⟨⟨buff, left, block₁⟩, loop, run⟩ := bind_eq_ok.mp run
  have taken := streamed_of_recvLengthLoop loop
  cases buff with
  | none =>
      cases run
      exact taken
  | some buff =>
      obtain ⟨_, _, run⟩ := bind_eq_ok.mp run
      cases run
      exact taken

/-- Reading the length is bounded exactly if four bytes that all announce another one are not
followed by it, and fit into the block. -/
theorem lengthBounded_iff (events : List RecvEvent) (block : List UInt8) :
    LengthBounded events block ↔
      (TooWide (arrived events) → (arrived events).length = 4 ∧ 5 ≤ block.length) := by
  have read := recvLengthLoop_spec buffSize [] block _ events rfl
  generalize loop : recvLengthLoop buffSize [] events block = result at read
  constructor
  · intro bounded wide
    obtain ⟨events', block', rejected⟩ := bounded.rejects wide
    cases read with
    | cut cut fits =>
        have exact_ := wide.cut_iff.mp cut
        rw [exact_, List.length_nil] at fits
        exact ⟨exact_, fits⟩
    | field arrives => exact absurd arrives wide.not_arrives
    | fault =>
        rw [readLength_of_error loop] at rejected
        cases rejected
  · intro bound
    refine ⟨fun e failed => ?_, fun _ _ _ => readLength_streamed, fun wide => ?_⟩
    · obtain rfl | ⟨_, wide, five⟩ := readLength_error failed
      · exact ⟨by decide, by decide⟩
      · exact absurd (bound wide).1 five.ne'
    · obtain ⟨exact_, fits⟩ := bound wide
      cases read with
      | cut => exact ⟨_, _, readLength_of_cut loop⟩
      | field arrives => exact absurd arrives wide.not_arrives
      | fault notCut =>
          refine absurd ⟨wide.cut_iff.mpr exact_, ?_⟩ notCut
          rw [exact_, List.length_nil]
          exact fits

end Length

/-- Five bytes that announce another one. -/
theorem fiveBytes_not_lengthBounded :
    ¬ LengthBounded [.data 128 [128, 128, 128, 128]] (List.replicate 64 0) := by
  intro bounded
  have overrun : readLength [.data 128 [128, 128, 128, 128]] (List.replicate 64 0) =
      .error .stackOverflow := by decide
  exact (bounded.inside _ overrun).1 rfl

/-! ## The block -/

/-- What `recv_packet` does with the length it has read. -/
def afterLength (byte : UInt8) :
    Option (Nat × Nat) × List RecvEvent × List UInt8 → Except Fault RecvPacket
  | (none, events, block) => .ok ⟨-errClientDC, 0, block, events, false⟩
  | (some (tlen, count), events, block) => recvBody tlen byte (1 + count) events block

theorem recvPacket_eq_readLength {events events' : List RecvEvent} {block block' : List UInt8}
    {byte : UInt8} (first : recvByte events block 0 = .ok (some byte, events', block'))
    (low : 1 ≤ byte.toNat) (high : byte.toNat ≤ 14) :
    recvPacket events block = readLength events' block' >>= afterLength byte := by
  rw [recvPacket_inRange first low high, readLength]
  rcases recvLengthLoop buffSize [] events' block' with e | ⟨buff, left, block₁⟩
  · rfl
  · cases buff with
    | none => rfl
    | some buff =>
        show _ = ((mqttDecodeLength buff >>= _) >>= _)
        cases decoded : mqttDecodeLength buff with
        | error e =>
            simp only [decoded]
            rfl
        | ok r =>
            simp only [decoded]
            rfl

/-- The bytes come in, up to where the stream breaks off. -/
def Incoming (bytes stream : List UInt8) : Prop := bytes <+: stream ∨ stream <+: bytes

/-- Unless the packet is rejected as too large, nothing is stored outside the block. -/
def StaysInside (events : List RecvEvent) (block : List UInt8) : Prop :=
  ¬ (∃ r, recvPacket events block = .ok r ∧ r.nbytes = -errMaxReqSize) →
    recvPacket events block ≠ .error .heapOverflow

/-- A block of `max` bytes has room for the first byte and, behind a type that exists, for the
length field and for the body at offset 2, as far as they are among the first `n` bytes of the
packet; a body that is announced to be longer than the block is not read. -/
def FitsBlock (max : Nat) (byte : UInt8) (field : List UInt8) (n : Nat) : Prop :=
  min n 1 ≤ max ∧ (1 ≤ byte.toNat → byte.toNat ≤ 14 →
    min n (1 + field.length) ≤ max ∧ (1 + field.length ≤ n → lengthValue field ≤ max →
      2 + min (lengthValue field) (n - (1 + field.length)) ≤ max))

instance (max : Nat) (byte : UInt8) (field : List UInt8) (n : Nat) :
    Decidable (FitsBlock max byte field n) :=
  inferInstanceAs (Decidable (_ ∧ (_ → _ → _ ∧ (_ → _ → _))))

theorem staysInside_of_ok {events : List RecvEvent} {block : List UInt8} {r : RecvPacket}
    (run : recvPacket events block = .ok r) : StaysInside events block := by
  intro _ overflow
  rw [run] at overflow
  cases overflow

theorem staysInside_of_turnedAway {events : List RecvEvent} {block : List UInt8}
    (away : TurnedAway block.length (arrived events)) : StaysInside events block := by
  have read := recvPacket_read events block
  generalize run : recvPacket events block = result at read
  cases read with
  | away => exact staysInside_of_ok run
  | fault notAway => exact absurd away notAway
  | header header => exact absurd away header.not_turnedAway

theorem not_staysInside_of_error {events : List RecvEvent} {block : List UInt8}
    (run : recvPacket events block = .error .heapOverflow) : ¬ StaysInside events block := by
  intro inside
  refine inside ?_ run
  rintro ⟨r, returned, _⟩
  rw [run] at returned
  cases returned

namespace Incoming

variable {field body rest : List UInt8}

/-- As much of the field as arrives is at the front of what arrives. -/
theorem field_iff (incoming : Incoming (field ++ body) rest) :
    field <+: rest ↔ field.length ≤ rest.length := by
  refine ⟨List.IsPrefix.length_le, fun enough => ?_⟩
  obtain whole | cut := incoming
  · exact (List.prefix_append _ _).trans whole
  · exact List.prefix_of_prefix_length_le (List.prefix_append _ _) cut enough

theorem field_unique (incoming : Incoming (field ++ body) rest) (complete : IsLengthField field)
    {other : List UInt8} (complete' : IsLengthField other) (front : other <+: rest) :
    other = field := by
  obtain whole | cut := incoming
  · exact complete'.unique complete front ((List.prefix_append _ _).trans whole)
  · exact complete'.unique complete (front.trans cut) (List.prefix_append _ _)

/-- A field that breaks off. -/
theorem cut (incoming : Incoming (field ++ body) rest) (complete : IsLengthField field)
    (few : field.length ≤ buffSize) (short : rest.length < field.length) :
    LengthCut buffSize rest := by
  obtain ⟨init, last, rfl, continued, _⟩ := complete
  rw [List.length_append, List.length_singleton] at short few
  have front : rest <+: init := by
    obtain whole | cut := incoming
    · have := whole.length_le
      simp only [List.length_append, List.length_singleton] at this
      omega
    · rw [List.append_assoc] at cut
      exact List.prefix_of_prefix_length_le cut (List.prefix_append _ _) (by omega)
  exact ⟨fun c member => continued c (front.subset member), by omega⟩

end Incoming

section Block

variable {byte : UInt8} {field body : List UInt8} (complete : IsLengthField field)
  (few : field.length ≤ buffSize)
include complete few

/-- After a first byte of a type that exists. -/
theorem staysInside_inRange_iff {events events' : List RecvEvent} {block block' rest : List UInt8}
    (first : recvByte events block 0 = .ok (some byte, events', block'))
    (size : block'.length = block.length) (left : arrived events' = rest)
    (incoming : Incoming (field ++ body) rest) (low : 1 ≤ byte.toNat) (high : byte.toNat ≤ 14) :
    StaysInside events block ↔ min (rest.length + 1) (1 + field.length) ≤ block.length ∧
      (1 + field.length ≤ rest.length + 1 → lengthValue field ≤ block.length →
        2 + min (lengthValue field) (rest.length + 1 - (1 + field.length)) ≤ block.length) := by
  have received := recvPacket_eq_readLength first low high
  have read := recvLengthLoop_spec buffSize [] block' rest events' left
  have whole := @recvLengthLoop_field buffSize [] block' field events'
  have arrives (enough : field.length ≤ rest.length) : LengthArrives buffSize rest field :=
    ⟨incoming.field_iff.mpr enough, complete, few⟩
  generalize loop : recvLengthLoop buffSize [] events' block' = result at read whole
  cases read with
  | cut cut fits =>
      rw [readLength_of_cut loop] at received
      rw [List.length_nil, size] at fits
      have short : ¬ field.length ≤ rest.length := fun enough => (arrives enough).not_cut cut
      exact iff_of_true (staysInside_of_ok received)
        ⟨by omega, fun enough => absurd enough (by omega)⟩
  | @field other events₂ block₂ arrives' fits length' head =>
      obtain rfl := incoming.field_unique complete arrives'.2.1 arrives'.1
      rw [readLength_of_field loop complete few] at received
      rw [List.length_nil, size] at fits
      obtain ⟨_, _, same, left', stored⟩ := whole (left ▸ arrives') (by
        rw [List.length_nil, size]
        exact fits)
      cases same
      have enough := arrives'.1.length_le
      have rest_length : (arrived events₂).length = rest.length + 1 - (1 + other.length) := by
        rw [left', left, List.length_drop]
        omega
      have size₂ : block₂.length = block.length := (length_of_store stored).trans size
      change recvPacket events block =
        recvBody (lengthValue other) byte _ events₂ block₂ at received
      have body := recvBody_cases (lengthValue other) byte (1 + other.length : Nat) events₂ block₂
      rw [rest_length, size₂] at body
      obtain ⟨⟨r, returned⟩, inside⟩ | ⟨overflow, small, outside⟩ := body
      · exact iff_of_true (staysInside_of_ok (received.trans returned))
          ⟨by omega, fun _ => inside⟩
      · exact iff_of_false (not_staysInside_of_error (received.trans overflow))
          fun both => outside (both.2 (by omega) small)
  | @fault e notCut noField =>
      have failed := readLength_of_error loop
      rw [List.length_nil, size] at notCut
      have overflow : e = .heapOverflow := by
        obtain heap | ⟨_, wide, five⟩ := readLength_error failed
        · exact heap
        · rw [left] at wide five
          refine absurd (arrives ?_) wide.not_arrives
          exact few.trans five.le
      rw [failed, overflow] at received
      apply iff_of_false (not_staysInside_of_error received)
      intro both
      by_cases enough : field.length ≤ rest.length
      · have := noField field (arrives enough)
        rw [List.length_nil, size] at this
        omega
      · exact notCut ⟨incoming.cut complete few (by omega), by omega⟩

/-- What `recv_packet` stores of a packet stays inside the block exactly if the block has room for
it with the body at offset 2. -/
theorem staysInside_iff {events : List RecvEvent} {block : List UInt8}
    (incoming : Incoming (byte :: (field ++ body)) (arrived events)) :
    StaysInside events block ↔ FitsBlock block.length byte field (arrived events).length := by
  rw [FitsBlock]
  cases bytes : arrived events with
  | nil =>
      have inside : StaysInside events block := staysInside_of_turnedAway (bytes ▸ trivial)
      refine iff_of_true inside ⟨by simp, fun _ _ => ⟨by simp, fun enough => ?_⟩⟩
      rw [List.length_nil] at enough
      omega
  | cons b rest =>
      rw [bytes] at incoming
      have same : b = byte ∧ Incoming (field ++ body) rest := by
        obtain whole | cut := incoming
        · obtain ⟨eq, tail⟩ := List.cons_prefix_cons.mp whole
          exact ⟨eq.symm, .inl tail⟩
        · obtain ⟨eq, tail⟩ := List.cons_prefix_cons.mp cut
          exact ⟨eq, .inr tail⟩
      obtain ⟨rfl, tail⟩ := same
      obtain ⟨events', left, first⟩ := recvByte_cons bytes block 0
      have one : min (b :: rest).length 1 = 1 := by simp
      rw [one]
      cases stored : store block 0 [b] with
      | error e =>
          have empty : ¬ 0 < block.length := not_le_of_store_error stored
          rw [stored] at first
          have run : recvPacket events block = .error .heapOverflow := by
            rw [← recvByte_error first]
            simp only [recvPacket, first]
            rfl
          exact iff_of_false (not_staysInside_of_error run) fun both => empty both.1
      | ok block' =>
          have room : 1 ≤ block.length := (store_eq_ok_iff.mp stored).1
          rw [stored] at first
          replace first : recvByte events block 0 = .ok (some b, events', block') := first
          by_cases inRange : 1 ≤ b.toNat ∧ b.toNat ≤ 14
          · obtain ⟨low, high⟩ := inRange
            rw [staysInside_inRange_iff complete few first (length_of_store stored) left tail
              low high]
            simp only [room, low, high, true_and, forall_const, List.length_cons]
          · have out : b.toNat < 1 ∨ 14 < b.toNat := by omega
            have inside : StaysInside events block := by
              refine staysInside_of_turnedAway ?_
              rw [bytes]
              exact ⟨room, by tauto⟩
            exact iff_of_true inside ⟨room, fun low high => absurd ⟨low, high⟩ inRange⟩

end Block

/-- A packet with a body of 62 bytes in a block of 64. -/
theorem body62_staysInside :
    StaysInside [.data 1 (62 :: List.replicate 62 0)] (List.replicate 64 0) :=
  (staysInside_iff (isLengthField_singleton (by decide)) (by decide)
    (.inl ⟨[], rfl⟩)).mpr (by decide +kernel)

/-- A body of 63 bytes, which is not rejected, goes past the end of the same block. -/
theorem body63_not_staysInside :
    ¬ StaysInside [.data 1 (63 :: List.replicate 63 0)] (List.replicate 64 0) := by
  have run : recvPacket [.data 1 (63 :: List.replicate 63 0)] (List.replicate 64 0) =
      .error .heapOverflow := by decide +kernel
  exact not_staysInside_of_error run

end SolBroker
