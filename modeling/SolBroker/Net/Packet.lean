import Mathlib
import SolBroker.Net.Receive

/-!
# How far a packet is read

What `recv_packet` comes to on any stream: it turns the stream away with an error
code, it runs over one of its two buffers, or it has the first byte and the whole
length field in the block and goes on to the body. How the bytes are split into
chunks and what ends them plays no part before the body.
-/

namespace SolBroker

/-- The bytes are turned away before anything is looked up: none arrives, the
first is outside 1..14, or it is inside and the length field breaks off within
`buff` or announces more than the block holds. -/
def TurnedAway (max : Nat) : List UInt8 → Prop
  | [] => True
  | byte :: rest => 0 < max ∧ (14 < byte.toNat ∨ byte.toNat < 1 ∨
      LengthCut buffSize rest ∧ rest.length < max ∨
      ∃ field, LengthArrives buffSize rest field ∧ field.length < max ∧ max < lengthValue field)

/-- The bytes start with a first byte in range and a length field that fit into the
block, and the field announces no more than the block holds. -/
structure HeaderArrives (max : Nat) (bytes : List UInt8) (byte : UInt8) (field : List UInt8) :
    Prop where
  front : byte :: field <+: bytes
  low : 1 ≤ byte.toNat
  high : byte.toNat ≤ 14
  isField : IsLengthField field
  width : field.length ≤ buffSize
  room : field.length < max
  small : lengthValue field ≤ max

/-- One of the three error codes. -/
def RecvPacket.Rejected (r : RecvPacket) : Prop :=
  r.nbytes = -errClientDC ∨ r.nbytes = -errMaxReqSize ∨ r.nbytes = -errPacketErr

theorem HeaderArrives.not_turnedAway {max : Nat} {bytes field : List UInt8} {byte : UInt8}
    (header : HeaderArrives max bytes byte field) : ¬ TurnedAway max bytes := by
  obtain ⟨rest, rfl⟩ := header.front
  have arrives : LengthArrives buffSize (field ++ rest) field :=
    ⟨List.prefix_append _ _, header.isField, header.width⟩
  have low := header.low
  have high := header.high
  rintro ⟨_, above | below | ⟨cut, _⟩ | ⟨other, arrives', _, larger⟩⟩
  · omega
  · omega
  · exact arrives.not_cut cut
  · rw [arrives'.2.1.unique header.isField arrives'.1 arrives.1] at larger
    exact absurd header.small (not_le.mpr larger)

/-- A stream has at most one header. -/
theorem HeaderArrives.unique {max max' : Nat} {bytes field field' : List UInt8} {byte byte' : UInt8}
    (header : HeaderArrives max bytes byte field)
    (header' : HeaderArrives max' bytes byte' field') : byte = byte' ∧ field = field' := by
  obtain ⟨rest, rfl⟩ := header.front
  obtain ⟨same, front⟩ := List.cons_prefix_cons.mp header'.front
  exact ⟨same.symm, header.isField.unique header'.isField (List.prefix_append _ _) front⟩

/-! ## Whole and partial reads -/

/-- The loop of `recv_bytes` on a stream that has what is asked for. -/
theorem recvBytesLoop_full {n : Nat} {events : List RecvEvent} (total : List UInt8)
    (enough : n ≤ (arrived events).length) :
    ∃ events', recvBytesLoop total n events =
        ⟨(total.length + n : Nat), total ++ (arrived events).take n, events'⟩ ∧
      arrived events' = (arrived events).drop n := by
  induction events generalizing total n with
  | nil =>
      obtain rfl := Nat.le_zero.mp enough
      exact ⟨[], by simp [recvBytesLoop], rfl⟩
  | cons event events ih =>
      cases n with
      | zero => exact ⟨event :: events, by simp [recvBytesLoop], by simp⟩
      | succ want =>
          cases event with
          | wouldBlock | eof | err => exact absurd enough (Nat.not_succ_le_zero want)
          | data b more =>
              change want + 1 ≤ (b :: more ++ arrived events).length at enough
              rw [List.length_append] at enough
              show ∃ events', recvBytesLoop total (want + 1) (.data b more :: events) =
                ⟨_, total ++ (b :: more ++ arrived events).take (want + 1), events'⟩ ∧
                  arrived events' = (b :: more ++ arrived events).drop (want + 1)
              rw [recvBytesLoop]
              split
              · rename_i larger
                refine ⟨unread ((b :: more).drop (want + 1)) events, ?_, ?_⟩
                · rw [List.take_append_of_le_length larger.le, List.length_append,
                    List.length_take_of_le larger.le]
                · rw [arrived_unread, List.drop_append_of_le_length larger.le]
              · rename_i within
                have inside : (b :: more).length ≤ want + 1 := not_lt.mp within
                obtain ⟨events', run, left⟩ := ih (n := want + 1 - (b :: more).length)
                  (total ++ (b :: more)) (by omega)
                refine ⟨events', ?_, ?_⟩
                · rw [run, List.length_append, Nat.add_assoc, Nat.add_sub_cancel' inside,
                    List.append_assoc, List.take_append, List.take_of_length_le inside]
                · rw [left, List.drop_append, List.drop_of_length_le inside, List.nil_append]

theorem recvBytes_full {n : Nat} {events : List RecvEvent} (enough : n ≤ (arrived events).length) :
    ∃ events', recvBytes events n = ⟨n, (arrived events).take n, events'⟩ ∧
      arrived events' = (arrived events).drop n := by
  obtain ⟨events', run, left⟩ := recvBytesLoop_full [] enough
  rw [List.length_nil, Nat.zero_add] at run
  exact ⟨events', run, left⟩

/-- What the loop of `recv_bytes` stores, whatever it returns. -/
theorem recvBytesLoop_stored (total : List UInt8) (n : Nat) (events : List RecvEvent) :
    (recvBytesLoop total n events).stored = total ++ (arrived events).take n := by
  induction events generalizing total n with
  | nil => cases n <;> simp [recvBytesLoop, arrived]
  | cons event events ih =>
      cases n with
      | zero => simp [recvBytesLoop]
      | succ want =>
          cases event with
          | wouldBlock | eof | err => simp [recvBytesLoop, arrived]
          | data b more =>
              have front : arrived (.data b more :: events) = b :: more ++ arrived events := rfl
              rw [recvBytesLoop, front]
              split
              · rename_i larger
                rw [List.take_append_of_le_length larger.le]
              · rename_i within
                rw [ih, List.append_assoc, List.take_append,
                  List.take_of_length_le (not_lt.mp within)]

theorem recvBytes_stored (events : List RecvEvent) (n : Nat) :
    (recvBytes events n).stored = (arrived events).take n :=
  recvBytesLoop_stored [] n events

/-- Two stores in a row. -/
theorem store_append {block block₁ block₂ front back : List UInt8} {offset : Nat}
    (first : store block offset front = .ok block₁)
    (second : store block₁ (offset + front.length) back = .ok block₂) :
    store block offset (front ++ back) = .ok block₂ := by
  have length := length_of_store first
  obtain ⟨fits, rfl⟩ := store_eq_ok_iff.mp first
  obtain ⟨fits', rfl⟩ := store_eq_ok_iff.mp second
  rw [length, Nat.add_assoc] at fits'
  have offset_length : (block.take offset).length = offset := List.length_take_of_le (by omega)
  have front_length : (block.take offset ++ front).length = offset + front.length := by
    rw [List.length_append, offset_length]
  refine store_eq_ok_iff.mpr ⟨by rw [List.length_append]; exact fits', ?_⟩
  have beyond : offset + front.length + back.length =
      (block.take offset ++ front).length + back.length := by
    rw [front_length]
  rw [List.take_left' front_length, beyond, List.drop_length_add_append, List.drop_drop,
    List.append_assoc (block.take offset), List.length_append, Nat.add_assoc]

/-- The body is stored as far as it arrives. -/
theorem recvBody_cases (tlen : Nat) (byte : UInt8) (nbytes : Int) (events : List RecvEvent)
    (block : List UInt8) :
    (∃ r, recvBody tlen byte nbytes events block = .ok r) ∧
        (tlen ≤ block.length → 2 + min tlen (arrived events).length ≤ block.length) ∨
      recvBody tlen byte nbytes events block = .error .heapOverflow ∧
        tlen ≤ block.length ∧ ¬ 2 + min tlen (arrived events).length ≤ block.length := by
  have size : (recvBytes events tlen).stored.length = min tlen (arrived events).length := by
    rw [recvBytes_stored, List.length_take]
  rw [recvBody]
  split
  · rename_i large
    exact .inl ⟨⟨_, rfl⟩, fun small => absurd small (not_le.mpr large)⟩
  · rename_i small
    have small := not_lt.mp small
    rw [← size]
    by_cases fits : 2 + (recvBytes events tlen).stored.length ≤ block.length
    · refine .inl ⟨?_, fun _ => fits⟩
      simp only [store, if_pos fits]
      show ∃ r, (if (recvBytes events tlen).ret < 0 then _ else _) = _
      split
      · exact ⟨_, rfl⟩
      · exact ⟨_, rfl⟩
    · refine .inr ⟨?_, small, fits⟩
      simp only [store, if_neg fits]
      rfl

/-! ## The header -/

/-- The length loop on a stream that has a complete length field. -/
theorem recvLengthLoop_field {room : Nat} {buff block field : List UInt8} {events : List RecvEvent}
    (arrives : LengthArrives room (arrived events) field)
    (fits : 1 + buff.length + field.length ≤ block.length) :
    ∃ events' block', recvLengthLoop room buff events block =
        .ok (some (buff ++ field), events', block') ∧
      arrived events' = (arrived events).drop field.length ∧
      store block (1 + buff.length) field = .ok block' := by
  induction field generalizing room buff block events with
  | nil => exact absurd rfl arrives.2.1.ne_nil
  | cons c field ih =>
      obtain ⟨front, isField, width⟩ := arrives
      obtain ⟨rest, bytes⟩ := front
      obtain ⟨room, rfl⟩ :=
        Nat.exists_eq_add_one_of_ne_zero (Nat.ne_of_gt (Nat.zero_lt_of_lt width))
      rw [List.length_cons] at fits
      obtain ⟨events₁, left, received⟩ := recvByte_cons bytes.symm block (1 + buff.length)
      have inside : 1 + buff.length + [c].length ≤ block.length := by
        rw [List.length_singleton]
        omega
      have stored : store block (1 + buff.length) [c] = .ok _ := if_pos inside
      generalize block.take (1 + buff.length) ++ [c] ++
        block.drop (1 + buff.length + [c].length) = block₁ at stored
      rw [stored] at received
      have loop : recvLengthLoop (room + 1) buff events block =
          if c &&& 128 ≠ 0 then recvLengthLoop room (buff ++ [c]) events₁ block₁
          else .ok (some (buff ++ [c]), events₁, block₁) := by
        simp only [recvLengthLoop, received]
        rfl
      rw [loop, ← bytes, List.length_cons, List.cons_append, List.drop_succ_cons]
      by_cases more : 128 ≤ c.toNat
      · rw [if_pos ((and_128_ne_zero_iff c).mpr more)]
        have arrives₁ : LengthArrives room (arrived events₁) field :=
          ⟨⟨rest, left.symm⟩, (isLengthField_cons_iff more).mp isField,
            Nat.le_of_succ_le_succ width⟩
        have offset : 1 + (buff ++ [c]).length = 1 + buff.length + [c].length := by
          rw [List.length_append, Nat.add_assoc]
        obtain ⟨events', block', run, left', stored'⟩ := @ih _ (buff ++ [c]) _ _ arrives₁ (by
          rw [length_of_store stored, offset, List.length_singleton]
          omega)
        rw [List.append_assoc] at run
        rw [offset] at stored'
        rw [left] at left'
        exact ⟨events', block', run, left', store_append stored stored'⟩
      · rw [if_neg fun h => more ((and_128_ne_zero_iff c).mp h)]
        obtain rfl := isField.eq_singleton (not_le.mp more)
        exact ⟨events₁, block₁, rfl, left, stored⟩

/-- `recv_packet` once a first byte in range has been stored. -/
theorem recvPacket_inRange {events events' : List RecvEvent} {block block' : List UInt8}
    {byte : UInt8} (first : recvByte events block 0 = .ok (some byte, events', block'))
    (low : 1 ≤ byte.toNat) (high : byte.toNat ≤ 14) :
    recvPacket events block =
      match recvLengthLoop buffSize [] events' block' with
      | .error e => .error e
      | .ok (none, events, block) => .ok ⟨-errClientDC, 0, block, events, false⟩
      | .ok (some buff, events, block) =>
          match mqttDecodeLength buff with
          | .error e => .error e
          | .ok (tlen, _) => recvBody tlen byte (1 + buff.length) events block := by
  have inRange : ¬ (PacketType.disconnect.code < byte.toNat ∨
      byte.toNat < PacketType.connect.code) := by
    simp only [PacketType.code]
    omega
  simp only [recvPacket, first]
  change (if PacketType.disconnect.code < byte.toNat ∨ byte.toNat < PacketType.connect.code then
    _ else _) = _
  rw [if_neg inRange]
  rcases recvLengthLoop buffSize [] events' block' with e | ⟨buff, events, block⟩
  · rfl
  · cases buff with
    | none => rfl
    | some buff =>
        change (mqttDecodeLength buff >>= _) = _
        cases decoded : mqttDecodeLength buff with
        | error e =>
            simp only [decoded]
            rfl
        | ok decodedLen =>
            simp only [decoded]
            rfl

/-- The three ways of `recv_packet` up to the body. -/
inductive PacketRead (events : List RecvEvent) (block : List UInt8) : Except Fault RecvPacket → Prop
  | away {r} (away : TurnedAway block.length (arrived events)) (rejected : r.Rejected) :
      PacketRead events block (.ok r)
  | fault {e} (notAway : ¬ TurnedAway block.length (arrived events))
      (noHeader : ∀ byte field, ¬ HeaderArrives block.length (arrived events) byte field) :
      PacketRead events block (.error e)
  | header {byte field events' block'}
      (header : HeaderArrives block.length (arrived events) byte field)
      (left : arrived events = byte :: field ++ arrived events')
      (stored : store block 0 (byte :: field) = .ok block') :
      PacketRead events block (recvBody (lengthValue field) byte (1 + field.length) events' block')

section FirstByte

variable {events events' : List RecvEvent} {block block' : List UInt8} {byte : UInt8}
  {rest : List UInt8}

/-- A type that does not exist is turned away. -/
theorem recvPacket_read_outOfRange (bytes : arrived events = byte :: rest)
    (stored : store block 0 [byte] = .ok block')
    (first : recvByte events block 0 = .ok (some byte, events', block'))
    (out : byte.toNat < 1 ∨ 14 < byte.toNat) :
    PacketRead events block (recvPacket events block) := by
  have room : 0 < block.length := (store_eq_ok_iff.mp stored).1
  have received : recvPacket events block = .ok ⟨-errPacketErr, 0, block', events', false⟩ := by
    have outside : PacketType.disconnect.code < byte.toNat ∨
        byte.toNat < PacketType.connect.code := by
      simp only [PacketType.code]
      omega
    simp only [recvPacket, first]
    change (if PacketType.disconnect.code < byte.toNat ∨
      byte.toNat < PacketType.connect.code then _ else _) = _
    rw [if_pos outside]
    rfl
  rw [received]
  refine .away ?_ (.inr (.inr rfl))
  rw [bytes]
  exact ⟨room, by tauto⟩

/-- After a type that exists everything rests on the length field. -/
theorem recvPacket_read_inRange (bytes : arrived events = byte :: rest)
    (left : arrived events' = rest) (stored : store block 0 [byte] = .ok block')
    (first : recvByte events block 0 = .ok (some byte, events', block'))
    (low : 1 ≤ byte.toNat) (high : byte.toNat ≤ 14) :
    PacketRead events block (recvPacket events block) := by
  have room : 0 < block.length := (store_eq_ok_iff.mp stored).1
  have length := length_of_store stored
  have received := recvPacket_inRange first low high
  have field := recvLengthLoop_spec buffSize [] block' rest events' left
  have whole (field : List UInt8) := @recvLengthLoop_field buffSize [] block' field events'
  generalize recvLengthLoop buffSize [] events' block' = result at field received whole
  rw [received]
  cases field with
  | cut cut fits =>
      simp only [List.length_nil, length] at fits
      refine .away ?_ (.inl rfl)
      rw [bytes]
      exact ⟨room, .inr (.inr (.inl ⟨cut, by omega⟩))⟩
  | fault notCut noField =>
      simp only [List.length_nil, length] at notCut noField
      refine .fault ?_ fun other field header => ?_
      · rw [bytes]
        rintro ⟨_, large | small | ⟨cut, fits⟩ | ⟨field, arrives, fits, _⟩⟩
        · omega
        · omega
        · exact notCut ⟨cut, by omega⟩
        · exact noField field arrives (by omega)
      · have front := header.front
        rw [bytes] at front
        have fits := header.room
        exact noField field ⟨(List.cons_prefix_cons.mp front).2, header.isField,
          header.width⟩ (by omega)
  | @field field _ block₂ arrives fits length₂ =>
      simp only [List.length_nil, length] at fits
      simp only [List.nil_append, mqttDecodeLength_field arrives.2.1 arrives.2.2]
      obtain ⟨_, _, run, left', stored'⟩ := whole field (left ▸ arrives) (by
        rw [List.length_nil, length]
        omega)
      cases run
      by_cases large : block₂.length < lengthValue field
      · rw [recvBody, if_pos large]
        refine .away ?_ (.inr (.inl rfl))
        rw [bytes]
        exact ⟨room, .inr (.inr (.inr ⟨field, arrives, by omega, by omega⟩))⟩
      · have size : block₂.length = block.length := length₂.trans length
        refine .header ?_ ?_ (store_append stored stored')
        · rw [bytes]
          exact ⟨List.cons_prefix_cons.mpr ⟨rfl, arrives.1⟩, low, high, arrives.2.1,
            arrives.2.2, by omega, by omega⟩
        · rw [bytes, left', left]
          obtain ⟨more, rfl⟩ := arrives.1
          rw [List.drop_left, List.cons_append]

end FirstByte

theorem recvPacket_read (events : List RecvEvent) (block : List UInt8) :
    PacketRead events block (recvPacket events block) := by
  cases bytes : arrived events with
  | nil =>
      have received : recvPacket events block =
          .ok ⟨-errClientDC, 0, block, (recvBytes events 1).events, false⟩ := by
        simp only [recvPacket, recvByte_nil bytes (Nat.zero_le _)]
        rfl
      rw [received]
      exact .away (bytes ▸ trivial) (.inl rfl)
  | cons byte rest =>
      obtain ⟨events', left, first⟩ := recvByte_cons bytes block 0
      cases stored : store block 0 [byte] with
      | error e =>
          have empty : ¬ 0 < block.length := not_le_of_store_error stored
          rw [stored] at first
          have received : recvPacket events block = .error e := by
            simp only [recvPacket, first]
            rfl
          rw [received]
          refine .fault ?_ fun byte field header => empty (Nat.zero_lt_of_lt header.room)
          rw [bytes]
          exact fun away => empty away.1
      | ok block' =>
          rw [stored] at first
          replace first : recvByte events block 0 = .ok (some byte, events', block') := first
          by_cases out : byte.toNat < 1 ∨ 14 < byte.toNat
          · exact recvPacket_read_outOfRange bytes stored first out
          · push Not at out
            exact recvPacket_read_inRange bytes left stored first out.1 out.2

end SolBroker
