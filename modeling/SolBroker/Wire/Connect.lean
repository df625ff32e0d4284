import Mathlib
import SolBroker.Wire.Unpack

/-!
# Decoding CONNECT

`ConnectWire` is a well-formed CONNECT packet with a client id. The decoder finds its
flags at a fixed distance from the length field, which is right for a length field of
one byte. With a wider field it reads the last bytes of the protocol name and level
first and everything else too late. That can only go unnoticed if the packet repeats
these bytes to its end, and there is one packet for each header byte that does.
-/

namespace SolBroker

open Reading

namespace MqttConnect

/-- The strings of the packet in the order of the wire. -/
def strings (c : MqttConnect) : List (List UInt8) :=
  c.payload.clientId.getD [] :: (c.payload.willTopic.toList ++ (c.payload.willMessage.toList ++
    (c.payload.username.toList ++ c.payload.password.toList)))

/-- The packet from its flags on. -/
def fieldBytes (c : MqttConnect) : List UInt8 :=
  c.byte :: (u16Bytes c.payload.keepalive ++ c.strings.flatMap string16Bytes)

/-- The strings that are there are those the flags announce, and have their length in
16 bits. An empty client id is not stored. -/
structure Consistent (c : MqttConnect) : Prop where
  clientId : c.payload.clientId ≠ some []
  willTopic : c.payload.willTopic.isSome = c.will
  willMessage : c.payload.willMessage.isSome = c.will
  username : c.payload.username.isSome = c.username
  password : c.payload.password.isSome = c.password
  fits : ∀ str ∈ c.strings, str.length < 65536

end MqttConnect

/-! ## What is read -/

theorem unpackIf_eq_ok_iff {flag : Bool} {buf rest : List UInt8} {str : Option (List UInt8)} :
    unpackIf flag buf = .ok (str, rest) ↔ str.isSome = flag ∧
      (∀ s ∈ str.toList, s.length < 65536) ∧ buf = str.toList.flatMap string16Bytes ++ rest := by
  cases flag with
  | false =>
      constructor
      · intro run
        cases run
        exact ⟨rfl, by simp, rfl⟩
      · rintro ⟨absent, -, rfl⟩
        obtain rfl := Option.isSome_eq_false_iff.mp absent |> Option.isNone_iff_eq_none.mp
        rfl
  | true =>
      constructor
      · intro run
        obtain ⟨⟨len, own⟩, middle, string, run⟩ := bind_eq_ok_iff.mp run
        cases run
        obtain ⟨fits, -, rfl⟩ := unpackString16_eq_ok_iff.mp string
        exact ⟨rfl, by simpa using fits, by simp⟩
      · rintro ⟨present, fits, rfl⟩
        obtain ⟨own, rfl⟩ := Option.isSome_iff_exists.mp present
        refine bind_eq_ok_iff.mpr ⟨(_, own), rest, unpackString16_eq_ok_iff.mpr ⟨?_, rfl, ?_⟩, rfl⟩
        · simpa using fits
        · simp

/-- The client id, once its length has been read, and whatever is read after it. -/
theorem clientId_bind_eq_ok_iff {β : Type} {cidLen : UInt16}
    {g : Option (List UInt8) → ByteReader β} {buf : List UInt8} {result : β × List UInt8} :
    (if 0 < cidLen then do
        let cid ← unpackBytes cidLen.toNat
        let clientId ← pure (some cid)
        g clientId
      else do
        let clientId ← pure none
        g clientId) buf = .ok result ↔
      ∃ cid rest, cid ≠ some [] ∧ (cid.getD []).length = cidLen.toNat ∧ buf = cid.getD [] ++ rest ∧
        g cid rest = .ok result := by
  have positive_iff : 0 < cidLen ↔ 0 < cidLen.toNat := UInt16.lt_iff_toNat_lt
  by_cases positive : 0 < cidLen
  · rw [if_pos positive]
    have someByte := positive_iff.mp positive
    constructor
    · intro run
      obtain ⟨own, rest, bytes, run⟩ := bind_eq_ok_iff.mp run
      obtain ⟨size, front⟩ := take_eq_ok_iff.mp bytes
      refine ⟨some own, rest, fun empty => ?_, size, front, run⟩
      rw [Option.some.inj empty, List.length_nil] at size
      omega
    · rintro ⟨cid, rest, nonempty, size, rfl, run⟩
      cases cid with
      | none =>
          rw [Option.getD_none, List.length_nil] at size
          omega
      | some own => exact bind_eq_ok_iff.mpr ⟨own, rest, take_eq_ok_iff.mpr ⟨size, rfl⟩, run⟩
  · rw [if_neg positive]
    have zero : cidLen.toNat = 0 := Nat.eq_zero_of_not_pos (mt positive_iff.mpr positive)
    constructor
    · intro run
      exact ⟨none, buf, nofun, zero.symm, rfl, run⟩
    · rintro ⟨cid, rest, nonempty, size, rfl, run⟩
      cases cid with
      | none => exact run
      | some own =>
          rw [zero] at size
          exact absurd (congrArg some (List.eq_nil_of_length_eq_zero size)) nonempty

/-- What is decoded is what stands eight bytes behind the start of the length field. -/
theorem unpackMqttConnect_eq_ok_iff {hdr : MqttHeader} {buf left : List UInt8} {len : UInt64}
    {pkt : MqttPacket} :
    unpackMqttConnect hdr buf = .ok ((len, pkt), left) ↔
      ∃ n rest c, mqttDecodeLength buf = .ok (n, rest) ∧ len = UInt64.ofNat n ∧
        pkt = .connect c ∧ c.header = hdr ∧ c.Consistent ∧ buf.drop 8 = c.fieldBytes ++ left := by
  constructor
  · intro run
    obtain ⟨_, _, here, run⟩ := bind_eq_ok_iff.mp run
    cases here
    obtain ⟨n, rest, length, run⟩ := bind_eq_ok_iff.mp run
    obtain ⟨_, _, moved, run⟩ := bind_eq_ok_iff.mp run
    cases moved
    obtain ⟨byte, _, flags, run⟩ := bind_eq_ok_iff.mp run
    obtain ⟨keepalive, _, alive, run⟩ := bind_eq_ok_iff.mp run
    obtain ⟨cidLen, _, size, run⟩ := bind_eq_ok_iff.mp run
    obtain ⟨clientId, _, nonempty, cidSize, cid, run⟩ := clientId_bind_eq_ok_iff.mp run
    obtain ⟨willTopic, _, topic, run⟩ := bind_eq_ok_iff.mp run
    obtain ⟨willMessage, _, message, run⟩ := bind_eq_ok_iff.mp run
    obtain ⟨username, _, user, run⟩ := bind_eq_ok_iff.mp run
    obtain ⟨password, _, pass, run⟩ := bind_eq_ok_iff.mp run
    cases run
    obtain ⟨topicFlag, topicFits, topic⟩ := unpackIf_eq_ok_iff.mp topic
    obtain ⟨messageFlag, messageFits, message⟩ := unpackIf_eq_ok_iff.mp message
    obtain ⟨userFlag, userFits, user⟩ := unpackIf_eq_ok_iff.mp user
    obtain ⟨passFlag, passFits, pass⟩ := unpackIf_eq_ok_iff.mp pass
    have cidFits : (clientId.getD []).length < 65536 := cidSize ▸ cidLen.toNat_lt
    have sameSize : cidLen = UInt16.ofNat (clientId.getD []).length := by
      rw [cidSize, UInt16.ofNat_toNat]
    refine ⟨n, rest, _, length, rfl, rfl, rfl,
      ⟨nonempty, topicFlag, messageFlag, userFlag, passFlag, ?_⟩, ?_⟩
    · intro str member
      simp only [MqttConnect.strings, List.mem_cons, List.mem_append] at member
      obtain rfl | member | member | member | member := member
      · exact cidFits
      · exact topicFits str member
      · exact messageFits str member
      · exact userFits str member
      · exact passFits str member
    · rw [next_eq_ok_iff.mp flags, unpackU16_eq_ok_iff.mp alive, unpackU16_eq_ok_iff.mp size, cid,
        topic, message, user, pass, sameSize]
      simp [MqttConnect.fieldBytes, MqttConnect.strings, string16Bytes]
  · rintro ⟨n, rest, c, length, rfl, rfl, rfl, consistent, front⟩
    obtain ⟨nonempty, topicFlag, messageFlag, userFlag, passFlag, fits⟩ := consistent
    simp only [MqttConnect.strings, List.mem_cons, List.mem_append, or_imp, forall_and,
      forall_eq] at fits
    obtain ⟨cidFits, topicFits, messageFits, userFits, passFits⟩ := fits
    have cidSize : (c.payload.clientId.getD []).length =
        (UInt16.ofNat (c.payload.clientId.getD []).length).toNat :=
      (UInt16.toNat_ofNat_of_lt' cidFits).symm
    simp only [MqttConnect.fieldBytes, MqttConnect.strings, List.flatMap_cons, List.flatMap_append,
      string16Bytes, List.cons_append, List.append_assoc] at front
    refine bind_eq_ok_iff.mpr ⟨_, _, rfl, bind_eq_ok_iff.mpr ⟨n, rest, length, ?_⟩⟩
    refine bind_eq_ok_iff.mpr ⟨(), _, rfl, bind_eq_ok_iff.mpr ⟨_, _, next_eq_ok_iff.mpr front, ?_⟩⟩
    refine bind_eq_ok_iff.mpr ⟨_, _, unpackU16_eq_ok_iff.mpr rfl, ?_⟩
    refine bind_eq_ok_iff.mpr ⟨_, _, unpackU16_eq_ok_iff.mpr rfl, ?_⟩
    refine clientId_bind_eq_ok_iff.mpr ⟨_, _, nonempty, cidSize, rfl, ?_⟩
    refine bind_eq_ok_iff.mpr ⟨_, _, unpackIf_eq_ok_iff.mpr ⟨topicFlag, topicFits, rfl⟩, ?_⟩
    refine bind_eq_ok_iff.mpr ⟨_, _, unpackIf_eq_ok_iff.mpr ⟨messageFlag, messageFits, rfl⟩, ?_⟩
    refine bind_eq_ok_iff.mpr ⟨_, _, unpackIf_eq_ok_iff.mpr ⟨userFlag, userFits, rfl⟩, ?_⟩
    exact bind_eq_ok_iff.mpr ⟨_, _, unpackIf_eq_ok_iff.mpr ⟨passFlag, passFits, rfl⟩, rfl⟩

/-! ## Packets on the wire -/

/-- The protocol name and level that open the body. -/
def protocolBytes : List UInt8 := [0, 4, 77, 81, 84, 84, 4]

/-- A well-formed CONNECT packet with a client id. -/
structure ConnectWire where
  packet : MqttConnect
  isConnect : packet.header.isType .connect = true
  hasClientId : packet.payload.clientId ≠ none
  consistent : packet.Consistent

/-- A length that all strings keep bounds the bytes they are encoded by. -/
theorem length_flatMap_string16Bytes_le {strs : List (List UInt8)} {size : Nat}
    (small : ∀ str ∈ strs, str.length ≤ size) :
    (strs.flatMap string16Bytes).length ≤ strs.length * (size + 2) := by
  induction strs with
  | nil => simp
  | cons str strs ih =>
      have first := small str List.mem_cons_self
      have others := ih fun str member => small str (List.mem_cons_of_mem _ member)
      rw [List.flatMap_cons, List.length_append, length_string16Bytes,
        List.length_cons, Nat.add_mul]
      omega

theorem MqttConnect.length_strings_le (c : MqttConnect) : c.strings.length ≤ 5 := by
  have one (str : Option (List UInt8)) : str.toList.length ≤ 1 := by
    cases str <;> simp
  have topic := one c.payload.willTopic
  have message := one c.payload.willMessage
  have user := one c.payload.username
  have pass := one c.payload.password
  simp only [MqttConnect.strings, List.length_cons, List.length_append]
  omega

theorem MqttConnect.length_fieldBytes_le (c : MqttConnect) {size : Nat}
    (small : ∀ str ∈ c.strings, str.length ≤ size) : c.fieldBytes.length ≤ 3 + 5 * (size + 2) := by
  have bytes := length_flatMap_string16Bytes_le small
  have few := Nat.mul_le_mul_right (size + 2) c.length_strings_le
  rw [MqttConnect.fieldBytes, List.length_cons, List.length_append, length_u16Bytes]
  omega

namespace ConnectWire

variable (p : ConnectWire)

/-- Everything behind the fixed header. -/
def body : List UInt8 := protocolBytes ++ p.packet.fieldBytes

/-- The packet after its header byte. -/
def afterHeader : List UInt8 := mqttEncodeLength p.body.length ++ p.body

/-- The decoder returns the packet, whatever follows it in the buffer. -/
def DecodesExactly (rest : List UInt8) : Prop :=
  ∃ len left, unpackMqttConnect p.packet.header (p.afterHeader ++ rest) =
    .ok ((len, .connect p.packet), left)

theorem length_body : p.body.length = 7 + p.packet.fieldBytes.length := by
  rw [body, List.length_append, protocolBytes]
  rfl

theorem length_body_lt : p.body.length < 2097152 := by
  have small := p.packet.length_fieldBytes_le fun str member =>
    Nat.le_of_lt_succ (p.consistent.fits str member)
  rw [length_body]
  omega

theorem decodesExactly_iff_prefix (rest : List UInt8) :
    p.DecodesExactly rest ↔ p.packet.fieldBytes <+: (p.afterHeader ++ rest).drop 8 := by
  have length : mqttDecodeLength (p.afterHeader ++ rest) = .ok (p.body.length, p.body ++ rest) := by
    rw [afterHeader, List.append_assoc]
    exact mqttDecodeLength_encode (p.length_body_lt.trans (by decide)) _
  constructor
  · rintro ⟨len, left, run⟩
    obtain ⟨_, _, c, _, _, same, _, _, front⟩ := unpackMqttConnect_eq_ok_iff.mp run
    cases same
    rw [front]
    exact List.prefix_append _ _
  · rintro ⟨left, front⟩
    exact ⟨_, left, unpackMqttConnect_eq_ok_iff.mpr
      ⟨_, _, p.packet, length, rfl, rfl, rfl, p.consistent, front.symm⟩⟩

/-- What stands eight bytes behind the start of the length field. -/
theorem drop_afterHeader (rest : List UInt8) :
    (p.afterHeader ++ rest).drop 8 =
      if p.body.length < 128 then p.packet.fieldBytes ++ rest
      else if p.body.length < 16384 then 4 :: (p.packet.fieldBytes ++ rest)
      else 84 :: 4 :: (p.packet.fieldBytes ++ rest) := by
  have width := length_mqttEncodeLength (p.length_body_lt.trans (by decide))
  have after (w : Nat) (size : (mqttEncodeLength p.body.length).length = w) (skipped : w ≤ 8) :
      (p.afterHeader ++ rest).drop 8 =
        (protocolBytes ++ (p.packet.fieldBytes ++ rest)).drop (8 - w) := by
    rw [afterHeader, List.append_assoc, List.drop_append, size, List.drop_of_length_le (by omega),
      List.nil_append, body, List.append_assoc]
  rw [if_pos p.length_body_lt] at width
  split_ifs at width ⊢
  · exact after 1 width (by decide)
  · exact after 2 width (by decide)
  · exact after 3 width (by decide)

end ConnectWire

/-! ## Packets that repeat themselves -/

/-- The first `n` bytes of `a, b, a, b, ...`. -/
def alternating (a b : UInt8) : Nat → List UInt8
  | 0 => []
  | n + 1 => a :: alternating b a n

@[simp] theorem length_alternating (a b : UInt8) (n : Nat) : (alternating a b n).length = n := by
  induction n generalizing a b with
  | zero => rfl
  | succ n ih => rw [alternating, List.length_cons, ih]

/-- An even number of the bytes ends before an `a`. -/
theorem alternating_add (a b : UInt8) (half n : Nat) :
    alternating a b (2 * half + n) = alternating a b (2 * half) ++ alternating a b n := by
  induction half with
  | zero => simp [alternating]
  | succ half ih =>
      have shift : 2 * (half + 1) + n = 2 * half + n + 1 + 1 := by omega
      rw [shift, Nat.mul_succ, alternating, alternating, ih]
      rfl

theorem alternating_self (a : UInt8) (n : Nat) : alternating a a n = List.replicate n a := by
  induction n with
  | zero => rfl
  | succ n ih => rw [alternating, ih, List.replicate_succ]

/-- A list that is found two places behind where it starts alternates. -/
theorem eq_alternating_of_front {a b : UInt8} {rest : List UInt8} :
    ∀ own : List UInt8, own <+: a :: b :: (own ++ rest) → own = alternating a b own.length
  | [], _ => rfl
  | [x], front => by
      rw [(List.cons_prefix_cons.mp front).1]
      rfl
  | x :: y :: own, front => by
      obtain ⟨first, front₁⟩ := List.cons_prefix_cons.mp front
      obtain ⟨second, front₂⟩ := List.cons_prefix_cons.mp front₁
      rw [first, second] at front₂
      have again := eq_alternating_of_front own front₂
      rw [List.length_cons, List.length_cons, alternating, alternating, ← again, first, second]

theorem eq_replicate_of_front {a : UInt8} {own rest : List UInt8}
    (front : own <+: a :: (own ++ rest)) :
    own = List.replicate own.length a := by
  induction own with
  | nil => rfl
  | cons x own ih =>
      obtain ⟨first, front₁⟩ := List.cons_prefix_cons.mp front
      rw [first] at front₁
      rw [List.length_cons, List.replicate_succ, ← ih front₁, first]

theorem replicate_prefix (a : UInt8) (n : Nat) (rest : List UInt8) :
    List.replicate n a <+: a :: (List.replicate n a ++ rest) := by
  refine ⟨a :: rest, ?_⟩
  rw [← List.cons_append, ← List.replicate_succ, List.replicate_succ', List.append_assoc]
  rfl

theorem toNat_of_u16Bytes {val : UInt16} {hi lo : UInt8} (bytes : u16Bytes val = [hi, lo]) :
    val.toNat = hi.toNat * 256 + lo.toNat := by
  have small := val.toNat_lt
  obtain ⟨high, low⟩ := List.cons.inj bytes
  rw [← high, ← (List.cons.inj low).1, UInt8.toNat_ofNat_of_lt' (by simp [UInt8.size]; omega),
    UInt8.toNat_ofNat_of_lt' (by simp [UInt8.size]; omega)]
  omega

/-- Strings whose encodings alternate have the length that the two bytes encode. -/
theorem strings_of_alternating {a b : UInt8} {half n : Nat}
    (size : a.toNat * 256 + b.toNat = 2 * half)
    {strs : List (List UInt8)} (fits : ∀ str ∈ strs, str.length < 65536)
    (encoded : strs.flatMap string16Bytes = alternating a b n) :
    ∀ str ∈ strs, str = alternating a b (2 * half) := by
  induction strs generalizing n with
  | nil => simp
  | cons str strs ih =>
      have strFits := fits str List.mem_cons_self
      have total := congrArg List.length encoded
      rw [List.flatMap_cons, List.length_append, length_string16Bytes, length_alternating] at total
      obtain ⟨m, rfl⟩ : ∃ m, n = m + 1 + 1 := ⟨n - 2, by omega⟩
      rw [List.flatMap_cons, string16Bytes, List.append_assoc] at encoded
      obtain ⟨prefixed, tail⟩ := List.append_inj
        (show u16Bytes (UInt16.ofNat str.length) ++ _ = [a, b] ++ alternating a b m from encoded)
        rfl
      have length : str.length = 2 * half := by
        rw [← size, ← toNat_of_u16Bytes prefixed, UInt16.toNat_ofNat_of_lt' strFits]
      obtain ⟨r, rfl⟩ : ∃ r, m = 2 * half + r := ⟨m - 2 * half, by omega⟩
      rw [alternating_add] at tail
      obtain ⟨own, others⟩ := List.append_inj tail (by rw [length, length_alternating])
      intro other member
      obtain rfl | member := List.mem_cons.mp member
      · exact own
      · exact ih (fun str member => fits str (List.mem_cons_of_mem _ member)) others other member

/-- The packet that repeats the protocol level from its flags on: a will, and 1028 bytes
in every string. -/
def repeating (header : MqttHeader) : MqttConnect where
  header := header
  byte := 4
  payload :=
    { keepalive := 0x0404
      clientId := some (List.replicate 1028 4)
      willTopic := some (List.replicate 1028 4)
      willMessage := some (List.replicate 1028 4) }

theorem fieldBytes_repeating (header : MqttHeader) :
    (repeating header).fieldBytes = List.replicate 3093 4 := by
  have string : string16Bytes (List.replicate 1028 4) = List.replicate 1030 4 := by
    rw [string16Bytes, List.length_replicate]
    exact (List.replicate_add 2 1028 4).symm
  have listed : (repeating header).strings = List.replicate 3 (List.replicate 1028 4) := rfl
  have keepalive : u16Bytes (repeating header).payload.keepalive = List.replicate 2 4 := by
    change u16Bytes 0x0404 = _
    decide
  have three (str : List UInt8) : (List.replicate 3 str).flatMap string16Bytes =
      string16Bytes str ++ (string16Bytes str ++ string16Bytes str) := by
    simp [List.replicate_succ]
  rw [MqttConnect.fieldBytes, listed, three, string, keepalive, List.replicate_append_replicate,
    List.replicate_append_replicate, List.replicate_append_replicate]
  exact List.replicate_succ.symm

/-- The flags and the strings of a packet that repeats the byte 4. -/
theorem eq_repeating {c : MqttConnect} (consistent : c.Consistent)
    (named : c.payload.clientId ≠ none)
    (fours : c.fieldBytes = List.replicate c.fieldBytes.length 4) : c = repeating c.header := by
  obtain ⟨m, length⟩ : ∃ m, c.fieldBytes.length = m + 2 + 1 := by
    refine ⟨(c.strings.flatMap string16Bytes).length, ?_⟩
    rw [MqttConnect.fieldBytes, List.length_cons, List.length_append, length_u16Bytes,
      Nat.add_comm 2]
  rw [length, List.replicate_succ, Nat.add_comm m, List.replicate_add,
    MqttConnect.fieldBytes] at fours
  obtain ⟨flags, fours⟩ := List.cons.inj fours
  obtain ⟨alive, fours⟩ := List.append_inj fours rfl
  have keepalive : c.payload.keepalive = 0x0404 := by
    rw [← UInt16.toNat_inj, toNat_of_u16Bytes alive]
    rfl
  rw [← alternating_self] at fours
  have half : (4 : UInt8).toNat * 256 + (4 : UInt8).toNat = 2 * 514 := by decide
  have strings (str : List UInt8) (member : str ∈ c.strings) : str = List.replicate 1028 4 := by
    rw [← alternating_self]
    exact strings_of_alternating half consistent.fits fours str member
  have present {str : Option (List UInt8)} (there : str.isSome = true)
      (listed : ∀ s, str = some s → s ∈ c.strings) : str = some (List.replicate 1028 4) := by
    obtain ⟨own, rfl⟩ := Option.isSome_iff_exists.mp there
    rw [strings own (listed own rfl)]
  have absent {str : Option (List UInt8)} {flag : Bool} (same : str.isSome = flag)
      (off : flag = false) : str = none := by
    rwa [off, Option.isSome_eq_false_iff, Option.isNone_iff_eq_none] at same
  have will : c.will = true := by
    rw [MqttConnect.will, flags]
    decide
  have clientId : c.payload.clientId = some (List.replicate 1028 4) :=
    present (Option.isSome_iff_ne_none.mpr named) fun s own => by simp [MqttConnect.strings, own]
  have willTopic : c.payload.willTopic = some (List.replicate 1028 4) :=
    present (consistent.willTopic.trans will) fun s own => by simp [MqttConnect.strings, own]
  have willMessage : c.payload.willMessage = some (List.replicate 1028 4) :=
    present (consistent.willMessage.trans will) fun s own => by simp [MqttConnect.strings, own]
  have username : c.payload.username = none := by
    refine absent consistent.username ?_
    rw [MqttConnect.username, flags]
    decide
  have password : c.payload.password = none := by
    refine absent consistent.password ?_
    rw [MqttConnect.password, flags]
    decide
  obtain ⟨header, byte, _, _, _, _, _, _⟩ := c
  cases flags
  cases keepalive
  cases clientId
  cases willTopic
  cases willMessage
  cases username
  cases password
  rfl

/-- A packet that repeats two bytes, the first of them the last letter of the name, is short. -/
theorem length_le_of_alternating {c : MqttConnect} (consistent : c.Consistent) {n : Nat}
    (alternates : c.fieldBytes = alternating 84 4 n) : c.fieldBytes.length ≤ 5553 := by
  have length := congrArg List.length alternates
  rw [MqttConnect.fieldBytes, List.length_cons, List.length_append, length_u16Bytes,
    length_alternating] at length
  obtain ⟨m, rfl⟩ : ∃ m, n = m + 1 + 1 + 1 := ⟨n - 3, by omega⟩
  rw [MqttConnect.fieldBytes] at alternates
  obtain ⟨-, fields⟩ := List.cons.inj alternates
  obtain ⟨-, strings⟩ := List.append_inj
    (show u16Bytes c.payload.keepalive ++ _ = [4, 84] ++ alternating 4 84 m from fields) rfl
  have half : (4 : UInt8).toNat * 256 + (84 : UInt8).toNat = 2 * 554 := by decide
  have size (str : List UInt8) (member : str ∈ c.strings) : str.length ≤ 1108 := by
    rw [strings_of_alternating half consistent.fits strings str member, length_alternating]
  exact c.length_fieldBytes_le size

/-- A CONNECT packet is decoded as it is exactly if its length field has one byte or it is
the packet that repeats itself. -/
theorem connect_decodesExactly_iff (p : ConnectWire) (rest : List UInt8) :
    p.DecodesExactly rest ↔ p.body.length < 128 ∨ p.packet = repeating p.packet.header := by
  rw [p.decodesExactly_iff_prefix, p.drop_afterHeader]
  split
  · rename_i one
    exact iff_of_true (List.prefix_append _ _) (.inl one)
  · rename_i notOne
    rw [or_iff_right notOne]
    split
    · constructor
      · intro front
        have hasId := p.hasClientId
        exact eq_repeating p.consistent hasId (eq_replicate_of_front front)
      · intro same
        rw [same, fieldBytes_repeating]
        exact replicate_prefix 4 3093 rest
    · rename_i notTwo
      refine iff_of_false (fun front => ?_) fun same => ?_
      · have short := length_le_of_alternating p.consistent (eq_alternating_of_front _ front)
        have length := p.length_body
        omega
      · have length := p.length_body
        rw [same, fieldBytes_repeating, List.length_replicate] at length
        omega

/-- A client with an id of 128 letters. -/
def longClientId : ConnectWire where
  packet :=
    { header := ⟨0x10⟩
      byte := 2
      payload := { keepalive := 60, clientId := some (List.replicate 128 97) } }
  isConnect := by decide
  hasClientId := by decide
  consistent := ⟨by simp, rfl, rfl, rfl, rfl, by simp [MqttConnect.strings]⟩

theorem longClientId_not_decodesExactly : ¬ longClientId.DecodesExactly [] := by
  rw [ConnectWire.decodesExactly_iff_prefix, ConnectWire.drop_afterHeader]
  decide +kernel

end SolBroker
