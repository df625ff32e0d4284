import Mathlib
import SolBroker.Net.Dispatch

/-!
# Whole packets

What `recv_packet` owes its caller: a positive count for a packet that has been read
to its last byte, and the bytes of that packet in the block in the order of the wire.
A body that breaks off is counted all the same, and the body is stored at offset 2
wherever the length field ends.
-/

namespace SolBroker

/-! ## Nothing but whole packets -/

/-- The count is that of one packet, and the packet is what was taken off the stream. -/
def ReadsPacket (events : List RecvEvent) (r : RecvPacket) : Prop :=
  ∃ byte field body, IsLengthField field ∧ body.length = lengthValue field ∧
    arrived events = byte :: (field ++ body) ++ arrived r.events ∧
    r.nbytes = (byte :: (field ++ body)).length

/-- Past the two tests of `on_read`, which goes on to unpack the block. -/
def RecvPacket.Unpacked (r : RecvPacket) : Prop :=
  ¬ (r.nbytes = -errClientDC ∨ r.nbytes = -errMaxReqSize) ∧ ¬ r.nbytes = -errPacketErr

/-- The call returns, with an error code or with the count of a whole packet, and only
a whole packet is unpacked. -/
structure NeverPartial (events : List RecvEvent) (block : List UInt8) : Prop where
  returns : ∃ r, recvPacket events block = .ok r ∧
    (r.Rejected ∨ 0 < r.nbytes ∧ ReadsPacket events r)
  unpacked : ∀ r, recvPacket events block = .ok r → r.Unpacked → ReadsPacket events r

/-- The header and the whole body are there, and fit into the block with the body at
offset 2. -/
def WholeArrives (max : Nat) (bytes : List UInt8) : Prop :=
  ∃ byte field, HeaderArrives max bytes byte field ∧
    1 + field.length + lengthValue field ≤ bytes.length ∧ 2 + lengthValue field ≤ max

section Body

variable {tlen : Nat} {byte : UInt8} {nbytes : Int} {events : List RecvEvent} {block : List UInt8}

/-- The body of a stream that has all of it. -/
theorem recvBody_whole (enough : tlen ≤ (arrived events).length) (fits : 2 + tlen ≤ block.length)
    (byte : UInt8) (nbytes : Int) :
    ∃ r, recvBody tlen byte nbytes events block = .ok r ∧ r.nbytes = nbytes + tlen ∧
      arrived r.events = (arrived events).drop tlen ∧
      store block 2 ((arrived events).take tlen) = .ok r.block := by
  obtain ⟨events', received, left⟩ := recvBytes_full enough
  have inside : 2 + ((arrived events).take tlen).length ≤ block.length := by
    rw [List.length_take_of_le enough]
    exact fits
  obtain ⟨block', stored⟩ : ∃ block', store block 2 ((arrived events).take tlen) = .ok block' :=
    ⟨_, if_pos inside⟩
  refine ⟨⟨nbytes + tlen, byte, block', events', false⟩, ?_, rfl, left, stored⟩
  have positive : ¬ (tlen : Int) < 0 := by omega
  rw [recvBody, if_neg (by omega)]
  simp only [received]
  refine bind_eq_ok.mpr ⟨block', stored, ?_⟩
  rw [if_neg positive]
  rfl

theorem recvBody_overflow (enough : tlen ≤ (arrived events).length) (small : tlen ≤ block.length)
    (outside : ¬ 2 + tlen ≤ block.length) :
    recvBody tlen byte nbytes events block = .error .heapOverflow := by
  obtain ⟨_, fits⟩ | ⟨overflow, _⟩ := recvBody_cases tlen byte nbytes events block
  · rw [Nat.min_eq_left enough] at fits
    exact absurd (fits small) outside
  · exact overflow

/-- A body that breaks off: unless it overruns the block, it is counted. -/
theorem recvBody_returns (small : tlen ≤ block.length) {r : RecvPacket}
    (run : recvBody tlen byte nbytes events block = .ok r) : nbytes ≤ r.nbytes := by
  rw [recvBody, if_neg (not_lt.mpr small)] at run
  obtain ⟨block', _, rest⟩ := bind_eq_ok.mp run
  split at rest
  · cases rest
    exact le_refl _
  · rename_i counted
    cases rest
    show nbytes ≤ nbytes + _
    omega

end Body

theorem RecvPacket.Rejected.negative {r : RecvPacket} (rejected : r.Rejected) : r.nbytes < 0 := by
  obtain code | code | code := rejected <;> rw [code] <;> decide

theorem RecvPacket.Rejected.not_unpacked {r : RecvPacket}
    (rejected : r.Rejected) : ¬ r.Unpacked := by
  rintro ⟨exit, errdc⟩
  obtain code | code | code := rejected
  · exact exit (.inl code)
  · exact exit (.inr code)
  · exact errdc code

/-- A packet that was read has the header of the stream and its whole body. -/
theorem ReadsPacket.whole {events : List RecvEvent} {r : RecvPacket} {max : Nat} {byte : UInt8}
    {field : List UInt8} (reads : ReadsPacket events r)
    (header : HeaderArrives max (arrived events) byte field) :
    1 + field.length + lengthValue field ≤ (arrived events).length := by
  obtain ⟨byte', field', body, isField, length, bytes, _⟩ := reads
  have front := header.front
  rw [bytes, List.cons_append, List.append_assoc] at front
  have same := header.isField.unique isField (List.cons_prefix_cons.mp front).2
    (List.prefix_append _ _)
  rw [same, ← length, bytes]
  simp only [List.length_cons, List.length_append]
  omega

theorem HeaderArrives.wholeArrives_iff {max : Nat} {byte : UInt8} {field rest : List UInt8}
    (header : HeaderArrives max (byte :: field ++ rest) byte field) :
    WholeArrives max (byte :: field ++ rest) ↔
      lengthValue field ≤ rest.length ∧ 2 + lengthValue field ≤ max := by
  have length : (byte :: field ++ rest).length = 1 + field.length + rest.length := by
    rw [List.length_append, List.length_cons, Nat.add_comm field.length]
  constructor
  · rintro ⟨byte', field', header', enough, fits⟩
    obtain ⟨rfl, rfl⟩ := header.unique header'
    rw [length] at enough
    exact ⟨by omega, fits⟩
  · rintro ⟨enough, fits⟩
    refine ⟨byte, field, header, ?_, fits⟩
    rw [length]
    omega

/-- What is unpacked has at least the two bytes of a header. -/
theorem RecvPacket.Unpacked.two_le {events : List RecvEvent} {block : List UInt8} {r : RecvPacket}
    (unpacked : r.Unpacked) (received : recvPacket events block = .ok r) : 2 ≤ r.nbytes := by
  have read := recvPacket_read events block
  rw [received] at read
  generalize result : Except.ok r = outcome at read
  cases read with
  | away away rejected =>
      cases result
      exact absurd unpacked rejected.not_unpacked
  | fault => cases result
  | @header byte field events' block' header left stored =>
      have small : lengthValue field ≤ block'.length := by
        rw [length_of_store stored]
        exact header.small
      have counted := recvBody_returns small result.symm
      have some_ := List.length_pos_iff.mpr header.isField.ne_nil
      omega

/-- After a header: exactly if the whole packet arrives and fits. -/
theorem neverPartial_header_iff {events events' : List RecvEvent} {block block' : List UInt8}
    {byte : UInt8} {field : List UInt8}
    (header : HeaderArrives block.length (arrived events) byte field)
    (left : arrived events = byte :: field ++ arrived events')
    (size : block'.length = block.length)
    (received : recvPacket events block =
      recvBody (lengthValue field) byte (1 + field.length) events' block') :
    NeverPartial events block ↔ WholeArrives block.length (arrived events) := by
  have only {r r' : RecvPacket} (result : recvPacket events block = .ok r)
      (result' : recvPacket events block = .ok r') : r = r' :=
    Except.ok.inj (result.symm.trans result')
  have small : lengthValue field ≤ block'.length := by
    rw [size]
    exact header.small
  have whole_iff : WholeArrives block.length (arrived events) ↔
      lengthValue field ≤ (arrived events').length ∧ 2 + lengthValue field ≤ block.length := by
    rw [left] at header ⊢
    exact header.wholeArrives_iff
  rw [whole_iff, ← size]
  by_cases enough : lengthValue field ≤ (arrived events').length
  · by_cases fits : 2 + lengthValue field ≤ block'.length
    · refine iff_of_true ?_ ⟨enough, fits⟩
      obtain ⟨r, body, count, rest, _⟩ := recvBody_whole enough fits byte (1 + field.length)
      have reads : ReadsPacket events r := by
        refine ⟨byte, field, (arrived events').take (lengthValue field), header.isField,
          List.length_take_of_le enough, ?_, ?_⟩
        · rw [left, rest, List.cons_append, List.cons_append, List.append_assoc,
            List.take_append_drop]
        · rw [count, List.length_cons, List.length_append, List.length_take_of_le enough]
          omega
      refine ⟨⟨r, received.trans body, .inr ⟨?_, reads⟩⟩, fun r' received' _ => ?_⟩
      · rw [count]
        omega
      · rw [only received' (received.trans body)]
        exact reads
    · refine iff_of_false (fun never => ?_) fun whole => fits whole.2
      obtain ⟨r, returned, _⟩ := never.returns
      rw [received, recvBody_overflow enough small fits] at returned
      cases returned
  · refine iff_of_false (fun never => ?_) fun whole => enough whole.1
    -- whatever ended the body, the count is positive
    obtain ⟨r, returned, outcome⟩ := never.returns
    have counted := recvBody_returns small (received.symm.trans returned)
    obtain rejected | ⟨_, reads⟩ := outcome
    · have negative := rejected.negative
      omega
    · have whole := reads.whole header
      rw [left, List.length_append, List.length_cons] at whole
      omega

/-- Partial packets are kept out exactly if the stream is turned away or has a whole
packet that fits. -/
theorem neverPartial_iff (events : List RecvEvent) (block : List UInt8) :
    NeverPartial events block ↔
      TurnedAway block.length (arrived events) ∨ WholeArrives block.length (arrived events) := by
  have read := recvPacket_read events block
  generalize received : recvPacket events block = result at read
  cases read with
  | @away r away rejected =>
      refine iff_of_true ⟨⟨r, received, .inl rejected⟩, fun r' received' unpacked => ?_⟩ (.inl away)
      obtain rfl := Except.ok.inj (received.symm.trans received')
      exact absurd unpacked rejected.not_unpacked
  | fault notAway noHeader =>
      refine iff_of_false (fun never => ?_) ?_
      · obtain ⟨r, returned, _⟩ := never.returns
        rw [received] at returned
        cases returned
      · rintro (away | ⟨byte, field, header, _⟩)
        · exact notAway away
        · exact noHeader byte field header
  | @header byte field events' block' header left stored =>
      rw [or_iff_right header.not_turnedAway]
      exact neverPartial_header_iff header left (length_of_store stored) received

/-- The first two bytes and one of two body bytes of a packet, and then nothing to read. -/
def brokenOff : List RecvEvent := [.data 1 [2, 7], .wouldBlock]

theorem brokenOff_counted : ¬ NeverPartial brokenOff (List.replicate 64 0) := by
  intro never
  obtain ⟨r, returned, outcome⟩ := never.returns
  have run : recvPacket brokenOff (List.replicate 64 0) =
      .ok ⟨3, 1, [1, 2, 7] ++ List.replicate 61 0, [], false⟩ := by decide
  obtain rfl := Except.ok.inj (run.symm.trans returned)
  obtain rejected | ⟨_, reads⟩ := outcome
  · exact absurd rejected.negative (by decide)
  · have header : HeaderArrives 64 (arrived brokenOff) 1 [2] :=
      ⟨by decide, by decide, by decide, isLengthField_singleton (by decide), by decide, by decide,
        by decide⟩
    exact absurd (reads.whole header) (by decide)

/-! ## The block -/

/-- A packet with a first byte in range and a length field of a legal width. -/
structure WirePacket where
  byte : UInt8
  field : List UInt8
  body : List UInt8
  low : 1 ≤ byte.toNat
  high : byte.toNat ≤ 14
  isField : IsLengthField field
  width : field.length ≤ buffSize
  length : body.length = lengthValue field

def WirePacket.bytes (p : WirePacket) : List UInt8 := p.byte :: (p.field ++ p.body)

/-- Whatever `malloc` left in a block of `max` bytes, it starts with the bytes of the
packet afterwards, and decodes to what they decode to. -/
def LaidOut (max : Nat) (events : List RecvEvent) (p : WirePacket) : Prop :=
  ∀ block : List UInt8, block.length = max → ∃ r, recvPacket events block = .ok r ∧
    p.bytes <+: r.block ∧
    (unpackMqttPacket r.block).map Prod.fst = (unpackMqttPacket p.bytes).map Prod.fst

namespace WirePacket

variable {p : WirePacket} {max : Nat} {events : List RecvEvent}

theorem header (fits : p.bytes.length ≤ max) (arrives : p.bytes <+: arrived events) :
    HeaderArrives max (arrived events) p.byte p.field := by
  have length := p.length
  rw [bytes, List.length_cons, List.length_append] at fits
  refine ⟨?_, p.low, p.high, p.isField, p.width, by omega, by omega⟩
  exact .trans (List.cons_prefix_cons.mpr ⟨rfl, List.prefix_append _ _⟩) arrives

/-- The body goes to offset 2 of a block that holds the header. -/
theorem block_of_recvPacket {block : List UInt8} (fits : p.bytes.length ≤ block.length)
    (arrives : p.bytes <+: arrived events) :
    ∃ r, recvPacket events block = .ok r ∧
      store (p.byte :: p.field ++ block.drop (1 + p.field.length)) 2 p.body = .ok r.block := by
  have header := p.header fits arrives
  have read := recvPacket_read events block
  generalize received : recvPacket events block = result at read
  cases read with
  | away away => exact absurd away header.not_turnedAway
  | fault _ noHeader => exact absurd header (noHeader _ _)
  | @header _ _ events' block' header' left stored =>
      obtain ⟨rfl, rfl⟩ := header.unique header'
      obtain ⟨rest, whole⟩ := arrives
      have bytes : arrived events' = p.body ++ rest := by
        rw [← whole, WirePacket.bytes, List.cons_append, List.cons_append,
          List.append_assoc] at left
        exact (List.append_cancel_left (List.cons.inj left).2).symm
      have length := p.length
      have width := List.length_pos_of_ne_nil p.isField.ne_nil
      rw [WirePacket.bytes, List.length_cons, List.length_append] at fits
      have enough : lengthValue p.field ≤ (arrived events').length := by
        rw [bytes, List.length_append]
        omega
      have room : 2 + lengthValue p.field ≤ block'.length := by
        rw [length_of_store stored]
        omega
      obtain ⟨r, body, _, _, laid⟩ := recvBody_whole enough room p.byte (1 + p.field.length)
      refine ⟨r, body, ?_⟩
      rw [bytes, ← length, List.take_left, (store_eq_ok_iff.mp stored).2] at laid
      rw [List.length_cons, Nat.add_comm p.field.length] at laid
      simpa using laid

/-- The body lands where it belongs if the length field is one byte wide, or if there
is no body. -/
theorem bytes_prefix {block block' : List UInt8} (good : p.field.length = 1 ∨ p.body = [])
    (laid : store (p.byte :: p.field ++ block) 2 p.body = .ok block') : p.bytes <+: block' := by
  obtain ⟨_, rfl⟩ := store_eq_ok_iff.mp laid
  obtain narrow | empty := good
  · obtain ⟨c, field⟩ := List.length_eq_one_iff.mp narrow
    rw [bytes, field]
    exact ⟨_, rfl⟩
  · rw [bytes, empty, List.append_nil, List.append_nil, List.length_nil, Nat.add_zero,
      List.take_append_drop]
    exact List.prefix_append _ _

/-- Otherwise the last byte of the packet is not written. -/
theorem last_unwritten {x : UInt8} {n : Nat} {block' : List UInt8} (wide : 1 < p.field.length)
    (laid : store (p.byte :: p.field ++ List.replicate n x) 2 p.body = .ok block')
    (fits : p.body.length ≤ n) (some_ : p.body ≠ []) :
    block'[p.field.length + p.body.length]? = some x := by
  obtain ⟨_, rfl⟩ := store_eq_ok_iff.mp laid
  have positive := List.length_pos_of_ne_nil some_
  have two : ((p.byte :: p.field ++ List.replicate n x).take 2).length = 2 := by
    apply List.length_take_of_le
    rw [List.length_append, List.length_cons]
    omega
  rw [List.getElem?_append_right, List.getElem?_drop, List.getElem?_append_right,
    List.getElem?_replicate, if_pos]
  all_goals simp only [List.length_append, List.length_cons, two]
  all_goals omega

end WirePacket

/-- The block holds the packet exactly if its length field is one byte wide or it has
no body: a body after a wider field overwrites it and leaves the end unwritten. -/
theorem laidOut_iff (p : WirePacket) {max : Nat} {events : List RecvEvent}
    (fits : p.bytes.length ≤ max) (arrives : p.bytes <+: arrived events) :
    LaidOut max events p ↔ p.field.length = 1 ∨ p.body = [] := by
  constructor
  · intro laidOut
    by_contra bad
    push Not at bad
    obtain ⟨wide, some_⟩ := bad
    have width := List.length_pos_of_ne_nil p.isField.ne_nil
    -- a block of a byte other than the last one of the packet
    let last := p.body.getLast some_
    obtain ⟨r, received, front, _⟩ := laidOut (List.replicate max (last + 1)) List.length_replicate
    have size : p.bytes.length ≤ (List.replicate max (last + 1)).length := by
      rw [List.length_replicate]
      exact fits
    obtain ⟨r', received', laid⟩ := WirePacket.block_of_recvPacket size arrives
    obtain rfl := Except.ok.inj (received.symm.trans received')
    rw [WirePacket.bytes, List.length_cons, List.length_append] at fits
    rw [List.drop_replicate] at laid
    have unwritten := WirePacket.last_unwritten (by omega) laid (by omega) some_
    have written : p.bytes[p.field.length + p.body.length]? = some last := by
      have split : p.bytes = p.byte :: (p.field ++ p.body.dropLast) ++ [last] := by
        rw [WirePacket.bytes, List.cons_append, List.append_assoc,
          List.dropLast_append_getLast some_]
      have length : p.field.length + p.body.length =
          (p.byte :: (p.field ++ p.body.dropLast)).length := by
        have positive := List.length_pos_of_ne_nil some_
        rw [List.length_cons, List.length_append, List.length_dropLast]
        omega
      rw [split, length, List.getElem?_concat_length]
    have inside : p.field.length + p.body.length < p.bytes.length := by
      rw [WirePacket.bytes, List.length_cons, List.length_append]
      exact Nat.lt_succ_self _
    obtain ⟨more, whole⟩ := front
    rw [← whole, List.getElem?_append_left inside, written] at unwritten
    have same : last + 0 = last + 1 := (add_zero last).trans (Option.some.inj unwritten)
    exact absurd (add_left_cancel same) (by decide)
  · intro good block size
    subst size
    obtain ⟨r, received, laid⟩ := WirePacket.block_of_recvPacket fits arrives
    refine ⟨r, received, WirePacket.bytes_prefix good laid, ?_⟩
    obtain ⟨more, whole⟩ := WirePacket.bytes_prefix good laid
    have null (buf : List UInt8) := unpackMqttPacket_nullCall p.high buf
    rw [← whole, WirePacket.bytes, List.cons_append, null, null]

/-- A packet of 128 body bytes, whose length field has two bytes. -/
def longPacket : WirePacket where
  byte := 3
  field := [128, 1]
  body := List.replicate 128 7
  low := by decide
  high := by decide
  isField := (isLengthField_cons_iff (by decide)).mpr (isLengthField_singleton (by decide))
  width := by decide
  length := List.length_replicate.trans (by decide)

/-- Its second length byte is lost. -/
theorem longPacket_not_laidOut :
    ¬ LaidOut 200 [.data 3 ([128, 1] ++ List.replicate 128 7)] longPacket := by
  intro laidOut
  obtain ⟨r, received, ⟨more, whole⟩, _⟩ := laidOut (List.replicate 200 0) List.length_replicate
  have third : (recvPacket [.data 3 ([128, 1] ++ List.replicate 128 7)]
      (List.replicate 200 0)).map (fun r => r.block[2]?) = .ok (some 7) := by
    decide +kernel
  have wire : (longPacket.bytes ++ more)[2]? = some 1 := rfl
  rw [received, Except.map, ← whole, wire] at third
  cases third

/-- A packet with a body of one byte. -/
def shortPacket : WirePacket where
  byte := 3
  field := [1]
  body := [7]
  low := by decide
  high := by decide
  isField := isLengthField_singleton (by decide)
  width := by decide
  length := by decide

theorem shortPacket_laidOut : LaidOut 64 [.data 3 [1], .data 7 []] shortPacket :=
  (laidOut_iff shortPacket (by decide) (by decide)).mpr (.inl rfl)

end SolBroker
