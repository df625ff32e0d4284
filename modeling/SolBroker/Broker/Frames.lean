import Mathlib
import SolBroker.Lib.Along
import SolBroker.Broker.Board
import SolBroker.Broker.Counters
import SolBroker.Broker.Dialogue
import SolBroker.Wire.Frames

/-!
# What the broker hands to its sockets

Whatever is handed to `send_bytes` is one control packet and all of it: the length that is
passed, the size of the block and the length field of the packet agree. So the receiver can
tell the packets apart, for there is only one way to cut the stream into them, as long as no
send falls short. The bytes of the block have all been written, except for a PUBLISH with a NUL
in its topic or its payload.
-/

namespace SolBroker

open Framing Transition

variable {T : Type → Type}

/-! ## Replies -/

/-- Every reply that a closure holds is one packet, written to its end. -/
def RepliesReady (heap : Heap Closure) : Prop :=
  ∀ cb closure payload, heap.get? cb = some closure → closure.payload = some payload →
    payload.OnePacket ∧ payload.Determined

section Replies

variable {b b' : Broker T} {cb : ClosureRef} {closure : Closure} {heap : Heap Closure}

theorem RepliesReady.write (ready : RepliesReady heap) {closure' : Closure}
    (live : heap.get? cb = some closure)
    (own : ∀ payload, closure'.payload = some payload → payload.OnePacket ∧ payload.Determined) :
    RepliesReady (heap.write cb closure') := by
  intro cb₁ closure₁ payload live₁ held
  rw [Heap.get?_write live] at live₁
  split at live₁
  · cases live₁
    exact own payload held
  · exact ready cb₁ closure₁ payload live₁ held

theorem RepliesReady.reply (ready : RepliesReady b.closureHeap) (closure' : Closure)
    {packed : Packed} (live : b.closureHeap.get? cb = some closure)
    (own : packed.OnePacket ∧ packed.Determined) :
    RepliesReady (reply b cb closure' packed).2.closureHeap := by
  refine ready.write live fun payload held => ?_
  cases held
  exact own

variable [KeyTable T] {fuel : Nat}

theorem RepliesReady.dropConnection (ready : RepliesReady b.closureHeap)
    {clientId closureId : CString} (run : dropConnection b clientId closureId = .ok b') :
    RepliesReady b'.closureHeap := fun cb closure payload live held =>
  ready cb closure payload (dropConnection_others run live) held

/-- A handler leaves no reply but whole packets. -/
theorem RepliesReady.handle (ready : RepliesReady b.closureHeap) {results : List Int}
    {request : Request} {rc : Int} (live : b.closureHeap.get? cb = some closure)
    (run : handle fuel b cb results request = .ok (rc, b')) : RepliesReady b'.closureHeap := by
  cases handle_eq_ok live run with
  | refused _ _ dropped | disconnected _ _ dropped =>
      exact RepliesReady.dropConnection (b := closeFd b _) ready dropped
  | connected _ _ _ packs =>
      cases packs
      exact RepliesReady.reply (b := { b with clients := _, clientHeap := _ }) ready _ live
        (onePacket_four ..)
  | @subscribed pkt _ _ st packed _ _ enough rounds packs =>
      obtain ⟨_, _, same⟩ := subscribeTuples_keep rounds
      have heap : st.broker.closureHeap = b.closureHeap := by
        rw [same]
      have counted : st.rcs.length = pkt.tuplesLen.toNat := by
        rw [subscribeTuples_codes rounds, List.nil_append, List.length_map, List.length_take,
          Nat.min_eq_left enough]
      refine RepliesReady.reply (heap ▸ ready) closure (heap ▸ live) ?_
      exact packMqttSuback_onePacket counted packs
  | unsubscribed => exact ready.reply closure live (onePacket_four ..)
  | @published pkt _ _ topic b₁ _ _ _ _ _ loop replies =>
      obtain ⟨_, _, same₁⟩ := publishLoop_keeps loop
      obtain ⟨_, _, _, same⟩ := b.published_keeps topic
      have heap : b₁.closureHeap = b.closureHeap := by
        rw [same₁, same]
      obtain ⟨_, rfl, _⟩ | ⟨byte, _, rfl, _⟩ := publishReply_eq_ok replies
      · exact heap ▸ ready
      · exact RepliesReady.reply (heap ▸ ready) closure (heap ▸ live) (onePacket_four ..)

theorem RepliesReady.dispatch (ready : RepliesReady b.closureHeap) {event : Event}
    (run : dispatch fuel b event = .ok b') : RepliesReady b'.closureHeap := by
  cases dispatch_eq_ok run with
  | accepted run =>
      obtain ⟨⟨status, closures⟩, _, done⟩ := bind_eq_ok.mp run
      cases done
      intro cb closure payload live held
      change (b.closureHeap.alloc _).get? cb = some closure at live
      rw [Heap.get?_alloc] at live
      split at live
      · cases live
        cases held
      · exact ready cb closure payload live held
  | wrote live => exact ready.write live fun payload held => by cases held
  | failed live => exact ready.write live fun payload held => ready _ _ payload live held
  | @malformed cb closure _ _ _ _ live _ _ _ dropped =>
      have disarmed : RepliesReady (b.closureHeap.write cb { closure with armed := none }) :=
        ready.write live fun payload held => ready _ _ payload live held
      exact RepliesReady.dropConnection
        (b := closeFd (setClosure b cb { closure with armed := none }) closure.fd) disarmed dropped
  | @handled cb closure request _ rc b₂ _ live reads live₁ returned rearmed =>
      have disarmed : RepliesReady (readyToHandle b cb closure).closureHeap :=
        ready.write live fun payload held => ready _ _ payload live held
      have after := disarmed.handle live₁ returned
      rw [rearm] at rearmed
      split at rearmed
      · obtain ⟨closure₂, live₂, done⟩ := bind_eq_ok.mp rearmed
        cases done
        have live₂ := deref_eq_ok.mp live₂
        exact after.write live₂ fun payload held => after _ _ payload live₂ held
      · cases rearmed
        exact after

end Replies

/-! ## Sends -/

/-- What is handed to `send_bytes` is one packet, to its end. -/
def Send.OnePacket (send : Send) : Prop :=
  send.len = send.buf.size ∧ send.buf.OnePacket

section Sends

variable {clients : Heap SolClient} {pkt : MqttPublish} {sub : Subscriber} {subs : List Subscriber}
  {send : Send} {sends : List Send}

theorem SendsTo.onePacket (goes : SendsTo clients pkt sub send) : send.OnePacket := by
  obtain ⟨_, _, _, packs, len⟩ := goes
  have packs : packMqttPublish (pkt.to sub) = .ok send.buf := packs
  exact ⟨len.trans (congrArg Packed.size (packMqttPublish_bytes packs)).symm,
    packMqttPublish_onePacket packs⟩

theorem SendsTo.determined_iff (goes : SendsTo clients pkt sub send) :
    send.buf.Determined ↔ pkt.Filled := by
  obtain ⟨_, _, _, packs, _⟩ := goes
  have written : send.buf.Determined ↔ (pkt.to sub).Filled := packMqttPublish_determined_iff packs
  exact written

theorem sendsTo_onePacket (each : List.Forall₂ (SendsTo clients pkt) subs sends) :
    ∀ send ∈ sends, send.OnePacket := by
  induction each with
  | nil => exact List.forall_mem_nil _
  | cons first _ ih => exact List.forall_mem_cons.mpr ⟨first.onePacket, ih⟩

/-- All of them are written to their ends, or none is. -/
theorem sendsTo_determined_iff (each : List.Forall₂ (SendsTo clients pkt) subs sends) :
    (∀ send ∈ sends, send.buf.Determined) ↔ (subs ≠ [] → pkt.Filled) := by
  induction each with
  | nil => exact iff_of_true (List.forall_mem_nil _) fun some_ => absurd rfl some_
  | cons first _ ih =>
      rw [List.forall_mem_cons, first.determined_iff, ih]
      exact ⟨fun both _ => both.1, fun filled =>
        ⟨filled (List.cons_ne_nil _ _), fun _ => filled (List.cons_ne_nil _ _)⟩⟩

/-- A message of the broker that is sent at all has the lengths that are recorded in it. -/
theorem statPacket_filled {message : CString × CString} {packed : Packed}
    (packs : packMqttPublish ((statPacket message).to sub) = .ok packed) :
    (statPacket message).Filled := by
  have within := packMqttPublish_within packs
  have missing := packMqttPublish_missing packs
  have recorded (bytes : List UInt8) : (UInt16.ofNat (UInt16.ofNat bytes.length).toNat).toNat ≤
      bytes.length := by
    rw [UInt16.ofNat_toNat, UInt16.toNat_ofNat']
    exact Nat.mod_le ..
  have topic : (statPacket message).topiclen.toNat ≤
      (cstr (statPacket message).topic).bytes.length := by
    show _ ≤ (cstr message.1.bytes).bytes.length
    rw [cstr_bytes_of_nulFree message.1.nulFree]
    exact recorded _
  have payload : (statPacket message).payloadlen.toNat ≤
      (cstr (statPacket message).payload).bytes.length := by
    show _ ≤ (cstr message.2.bytes).bytes.length
    rw [cstr_bytes_of_nulFree message.2.nulFree]
    exact recorded _
  have missing : packed.written.length +
      ((statPacket message).topiclen.toNat + (statPacket message).payloadlen.toNat) =
        packed.size + ((cstr (statPacket message).topic).bytes.length +
          (cstr (statPacket message).payload).bytes.length) := missing
  rw [MqttPublish.Filled]
  omega

end Sends

/-! ## Events -/

/-- A PUBLISH that goes to a subscriber has the lengths that are recorded in it. -/
def ServerEvent.Filled (b : Broker T) : ServerEvent → Prop
  | .socket (.ready cb (.request (.publish pkt)) _) => b.reading cb = true → ∀ name,
      publishTopic pkt = .ok name → b.view.subscribers name ≠ [] → pkt.Filled
  | _ => True

/-- What a step sends: whole packets, and written to their ends if its PUBLISH is filled. -/
structure SendsPackets (b b' : Broker T) (event : ServerEvent) (sends : List Send) : Prop where
  sent : b'.sent = b.sent ++ sends
  whole : ∀ send ∈ sends, send.OnePacket
  determined : (∀ send ∈ sends, send.buf.Determined) ↔ event.Filled b

section Events

variable [KeyTable T] {fuel : Nat} {b b' : Broker T}

omit [KeyTable T] in
theorem SendsPackets.silent {event : ServerEvent} (sent : b'.sent = b.sent ++ [])
    (filled : event.Filled b) : SendsPackets b b' event [] :=
  ⟨sent, List.forall_mem_nil _, iff_of_true (List.forall_mem_nil _) filled⟩

omit [KeyTable T] in
/-- What is ready on a closure that writes is not read. -/
theorem ServerEvent.filled_of_not_reading {cb : ClosureRef} {input : Input} {results : List Int}
    (writes : b.reading cb = false) :
    ServerEvent.Filled b (.socket (.ready cb input results)) := by
  cases input with
  | request request =>
      cases request with
      | publish pkt =>
          intro reading
          rw [writes] at reading
          cases reading
      | connect | disconnect | subscribe | unsubscribe => trivial
  | packetErr | dropped => trivial

theorem dispatch_sendsPackets (ready : RepliesReady b.closureHeap) {event : Event}
    (run : dispatch fuel b event = .ok b') : ∃ sends, SendsPackets b b' (.socket event) sends := by
  cases dispatch_tally run with
  | accepted _ adds => exact ⟨[], .silent adds.sent trivial⟩
  | @wrote cb closure payload input results _ live writes held _ adds =>
      obtain ⟨one, determined⟩ := ready cb closure payload live held
      refine ⟨_, adds.sent, ?_, iff_of_true ?_ ?_⟩
      · exact List.forall_mem_singleton.mpr ⟨rfl, one⟩
      · exact List.forall_mem_singleton.mpr determined
      · refine ServerEvent.filled_of_not_reading ?_
        rw [b.reading_eq live, writes]
        rfl
  | failed _ _ _ adds => exact ⟨[], .silent adds.sent trivial⟩
  | malformed _ _ _ adds => exact ⟨[], .silent adds.sent trivial⟩
  | @left cb closure request results _ live reads leaves _ adds silent =>
      refine ⟨[], .silent adds.sent ?_⟩
      cases request with
      | publish => exact absurd leaves id
      | connect | disconnect | subscribe | unsubscribe => trivial
  | @stayed cb closure request results sends _ live reads _ _ adds _ own =>
      cases request with
      | publish pkt =>
          obtain ⟨name, named, each⟩ := own
          refine ⟨sends, adds.sent, sendsTo_onePacket each, ?_⟩
          rw [sendsTo_determined_iff each]
          have reading : b.reading cb = true := (b.reading_eq live).trans (decide_eq_true reads)
          constructor
          · intro filled _ name' named' heard
            cases named.symm.trans named'
            exact filled heard
          · exact fun filled => filled reading name named
      | connect | disconnect | subscribe | unsubscribe =>
          obtain rfl : sends = [] := own
          exact ⟨[], .silent adds.sent trivial⟩

omit [KeyTable T] in
/-- A tick sends whole packets that are written to their ends. -/
theorem publishStats_sendsPackets {uptime : Int} {solUptime : CString} {results : List (List Int)}
    (run : publishStats b uptime solUptime results = .ok b') :
    ∃ sends, SendsPackets b b' (.tick uptime solUptime results) sends := by
  obtain ⟨batches, sent, all⟩ := publishStats_sends run
  have each : ∀ batch ∈ batches, ∀ send ∈ batch, send.OnePacket ∧ send.buf.Determined := by
    clear sent
    generalize statsMessages b.info uptime solUptime = messages at all
    induction all with
    | nil => exact List.forall_mem_nil _
    | @cons message batch _ _ first _ ih =>
        refine List.forall_mem_cons.mpr ⟨fun send member => ?_, ih⟩
        refine ⟨sendsTo_onePacket first send member, ?_⟩
        refine (sendsTo_determined_iff first).mpr (fun heard => ?_) send member
        obtain ⟨sub, subs, same⟩ := List.exists_cons_of_ne_nil heard
        rw [same] at first
        obtain ⟨_, _, goes, _⟩ := List.forall₂_cons_left_iff.mp first
        obtain ⟨_, _, _, packs, _⟩ := goes
        exact statPacket_filled packs
  have inBatch {send : Send} (member : send ∈ batches.flatten) :
      send.OnePacket ∧ send.buf.Determined := by
    obtain ⟨batch, batched, inside⟩ := List.mem_flatten.mp member
    exact each batch batched send inside
  exact ⟨batches.flatten, sent, fun send member => (inBatch member).1,
    iff_of_true (fun send member => (inBatch member).2) trivial⟩

end Events

/-! ## Runs -/

section Runs

variable [KeyTable T] {b b' : Broker T} {tr : List (Broker T × ServerEvent)} {event : ServerEvent}

theorem repliesReady_startServer : RepliesReady (startServer : Broker T).closureHeap := by
  intro cb closure payload live
  obtain ⟨_, _, same⟩ := startServer_eq (T := T)
  rw [same] at live
  cases live

theorem ServerStep.sendsPackets (ready : RepliesReady b.closureHeap)
    (step : ServerStep b event b') :
    RepliesReady b'.closureHeap ∧ ∃ sends, SendsPackets b b' event sends := by
  obtain ⟨_, fuel, run⟩ := step
  cases event with
  | socket event => exact ⟨ready.dispatch run, dispatch_sendsPackets ready run⟩
  | tick uptime solUptime results =>
      obtain ⟨_, _, same⟩ := publishStats_keeps run
      exact ⟨same ▸ ready, publishStats_sendsPackets run⟩

/-- Everything that has been sent in a run, by the step it was sent in. -/
theorem sent_of_run (run : Run ServerStep startServer tr b) :
    RepliesReady b.closureHeap ∧ (∀ send ∈ b.sent, send.OnePacket) ∧
      ((∀ send ∈ b.sent, send.buf.Determined) ↔ ∀ visit ∈ tr, visit.2.Filled visit.1) := by
  induction run with
  | nil =>
      obtain ⟨_, _, same⟩ := startServer_eq (T := T)
      have sent : (startServer : Broker T).sent = [] := by
        rw [same]
        rfl
      rw [sent]
      exact ⟨repliesReady_startServer, List.forall_mem_nil _,
        iff_of_true (List.forall_mem_nil _) (List.forall_mem_nil _)⟩
  | snoc _ step ih =>
      obtain ⟨ready, whole, determined⟩ := ih
      obtain ⟨ready', sends, added⟩ := step.sendsPackets ready
      refine ⟨ready', ?_, ?_⟩
      · rw [added.sent]
        exact List.forall_mem_append.mpr ⟨whole, added.whole⟩
      · rw [added.sent, List.forall_mem_append, List.forall_mem_append, List.forall_mem_singleton,
          determined, added.determined]

/-- In every run each buffer that is handed to `send_bytes` is one control packet and no more
than that, for every content that its memory can have. So what is handed over for a descriptor
can be cut into control packets in one way only, and that gives the packets of the sends. -/
theorem stream_of_packets (run : Run ServerStep startServer tr b) :
    (∀ send ∈ b.sent, send.len = send.buf.size ∧ (∃ bytes, send.buf.Holds bytes) ∧
        ∀ bytes, send.buf.Holds bytes → bytes ∈ controlPackets) ∧
      ∀ fd values, List.Forall₂ (fun send bytes => send.buf.Holds bytes)
          (b.sent.filter fun send => send.fd = fd) values →
        ∀ packets, (∀ packet ∈ packets, packet ∈ controlPackets) →
          packets.flatten = values.flatten → packets = values := by
  obtain ⟨_, whole, _⟩ := sent_of_run run
  refine ⟨fun send member => ?_, fun fd values held packets each same => ?_⟩
  · obtain ⟨len, one⟩ := whole send member
    exact ⟨len, one.exists_holds, fun bytes holds => one.holds_mem holds⟩
  · have own : ∀ bytes ∈ values, bytes ∈ controlPackets := by
      intro bytes member
      obtain ⟨send, sent, holds⟩ := List.Forall₂.exists_of_mem held.flip member
      exact (whole send (List.mem_of_mem_filter sent)).2.holds_mem holds
    exact instantaneous_controlPackets.uniquelyDecodable nil_notMem_controlPackets packets values
      each own same

/-- A client subscribes to `a` and publishes a NUL to it. -/
def publishNulToA : List ServerEvent :=
  connectOnly.map .socket ++
    [.socket (.ready 0 (.request (.subscribe (subscribeTo 97 0))) []),
      .socket (.ready 0 .dropped []), .socket (.ready 0 (.request (.publish publishNul.packet)) [])]

theorem replay_publishNulToA :
    (replay serverNext (startServer : Broker HashTable) publishNulToA).map (fun r => r.2.sent) =
      some [⟨5, ⟨4, [0x20, 2, 0, 0]⟩, 4, 4⟩, ⟨5, ⟨5, [0x90, 3, 0, 1, 0]⟩, 5, 5⟩,
        ⟨5, ⟨6, [0x30, 4, 0, 1, 97]⟩, 6, 6⟩] := by
  decide +kernel

/-- Whatever the last byte is that it gets, it can tell the three packets apart. -/
theorem publishNulToA_stream : ∃ tr b,
    Run ServerStep (startServer : Broker HashTable) tr b ∧ tr.map Prod.snd = publishNulToA ∧
      ∀ last packets, (∀ packet ∈ packets, packet ∈ controlPackets) →
        packets.flatten = [0x20, 2, 0, 0, 0x90, 3, 0, 1, 0, 0x30, 4, 0, 1, 97, last] →
          packets = [[0x20, 2, 0, 0], [0x90, 3, 0, 1, 0], [0x30, 4, 0, 1, 97, last]] := by
  obtain ⟨tr, b, run, labels, sent⟩ := Run.of_replay_map serverNext_step replay_publishNulToA
  refine ⟨tr, b, run, labels, fun last packets each same => ?_⟩
  refine (stream_of_packets run).2 5 _ ?_ packets each same
  rw [sent]
  exact .cons ⟨rfl, List.prefix_refl _⟩ (.cons ⟨rfl, List.prefix_refl _⟩
    (.cons ⟨rfl, [last], rfl⟩ .nil))

/-- In every run no byte is handed to `send_bytes` that was not written before, exactly if in
each PUBLISH for a subscriber topic and payload are as long, up to their first NUL, as the
lengths that are recorded. -/
theorem sent_determined_iff (run : Run ServerStep startServer tr b) :
    (∀ send ∈ b.sent, send.buf.Determined) ↔ ∀ visit ∈ tr, visit.2.Filled visit.1 :=
  (sent_of_run run).2.2

/-- Its PUBLISH ends with a byte that was never written. -/
theorem publishNulToA_notFilled : ∃ tr b,
    Run ServerStep (startServer : Broker HashTable) tr b ∧ tr.map Prod.snd = publishNulToA ∧
      ∃ visit ∈ tr, ¬ visit.2.Filled visit.1 := by
  obtain ⟨tr, b, run, labels, sent⟩ := Run.of_replay_map serverNext_step replay_publishNulToA
  refine ⟨tr, b, run, labels, ?_⟩
  by_contra filled
  push Not at filled
  have determined := (sent_determined_iff run).mpr filled ⟨5, ⟨6, [0x30, 4, 0, 1, 97]⟩, 6, 6⟩
  rw [sent, Packed.determined_iff] at determined
  exact absurd (determined (by simp)) (by decide)

end Runs

end SolBroker
