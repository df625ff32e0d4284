import Mathlib
import SolBroker.Broker.Counters
import SolBroker.Broker.Stats
import SolBroker.Net.Whole

/-!
# Whether the counters count what they are named for

A ledger is a broker together with what has really happened: how many connections were
accepted, and how many bytes the packets had that `recv_packet` has read. What the sends
have reported is kept by the broker. Each counter follows its total exactly in the runs
without a certain kind of step: `nconnections` if no accept fails and no connection is
dropped, `bytes_recv` if no packet is read at all, and `bytes_sent` if no send fails.
-/

namespace SolBroker

open Transition

variable {T : Type → Type}

/-! ## What happens to a broker -/

/-- An event with what is counted of it: whether the accept has succeeded, or what
`recv_packet` has returned; and the periodic task. -/
inductive Occasion
  | accept (succeeded : Bool) (fd : Int) (uuid : CString)
  | read (cb : ClosureRef) (nbytes : Int) (input : Input) (results : List Int)
  | write (cb : ClosureRef) (results : List Int)
  | stats (uptime : Int) (solUptime : CString) (results : List (List Int))

/-- What `on_read` takes the return of `recv_packet` for. -/
def Input.Of (r : RecvPacket) : Input → Prop
  | .dropped => r.nbytes = -errClientDC ∨ r.nbytes = -errMaxReqSize
  | .packetErr => r.nbytes = -errPacketErr
  | .request _ => r.Unpacked

/-- An occasion that is handled. -/
inductive Handles [KeyTable T] (b : Broker T) : Occasion → Broker T → Prop
  | accept {succeeded fd uuid n b'} (run : dispatch n b (.accept fd uuid) = .ok b') :
      Handles b (.accept succeeded fd uuid) b'
  | read {cb closure events block r input results n b'}
      (live : b.closureHeap.get? cb = some closure) (reads : closure.call = .onRead)
      (received : recvPacket events block = .ok r) (isInput : input.Of r)
      (run : dispatch n b (.ready cb input results) = .ok b') :
      Handles b (.read cb r.nbytes input results) b'
  | write {cb closure input results n b'} (live : b.closureHeap.get? cb = some closure)
      (writes : closure.call = .onWrite) (run : dispatch n b (.ready cb input results) = .ok b') :
      Handles b (.write cb results) b'
  | stats {uptime solUptime results b'} (run : publishStats b uptime solUptime results = .ok b') :
      Handles b (.stats uptime solUptime results) b'

/-- A broker with the connections it has accepted and the bytes of the packets it has
received. -/
structure Ledger (T : Type → Type) where
  broker : Broker T
  accepted : Int
  received : Int

namespace Occasion

/-- The connections it adds. -/
def accepted : Occasion → Int
  | accept succeeded _ _ => if succeeded then 1 else 0
  | _ => 0

/-- The bytes of the packet it brings. -/
def received : Occasion → Int
  | read _ nbytes (.request _) _ => nbytes
  | _ => 0

/-- The answers its sends ask for. -/
def answers (b : Broker T) : Occasion → List Int
  | accept .. => []
  | read _ _ (.request request) results => requestAnswers b results request
  | read .. => []
  | write _ results => results.take 1
  | stats uptime solUptime results =>
      ((statsMessages b.info uptime solUptime).zip (results ++ List.replicate 6 [])).flatMap
        fun message => message.2.take (b.view.subscribers message.1.1).length

/-- No accept fails, and no connection is dropped. -/
def KeepsConnections [KeyTable T] (b : Broker T) : Occasion → Prop
  | accept succeeded _ _ => succeeded = true
  | read _ _ input _ => ¬ Leaves b input
  | _ => True

/-- No send fails. -/
def SendsSucceed (b : Broker T) (occasion : Occasion) : Prop :=
  NoFailure (occasion.answers b)

/-- No packet is read. -/
def ReadsNothing : Occasion → Prop
  | read _ _ (.request _) _ => False
  | _ => True

end Occasion

/-- A step of a ledger. -/
structure LedgerStep [KeyTable T] (l : Ledger T) (occasion : Occasion) (l' : Ledger T) : Prop where
  handles : Handles l.broker occasion l'.broker
  accepted : l'.accepted = l.accepted + occasion.accepted
  received : l'.received = l.received + occasion.received

/-- The ledger of the server as it starts. -/
def startLedger [KeyTable T] : Ledger T where
  broker := startServer
  accepted := 0
  received := 0

/-- The bytes that the successful sends have reported. -/
def reported (b : Broker T) : Int := ((b.sent.map Send.result).filter (0 ≤ ·)).sum

/-! ## What the periodic task adds -/

section Stats

variable {b b' : Broker T}

/-- Where the loop of `publish_message` returns, so does that of `publish_handler`. -/
theorem publishLoop_of_message {pkt : MqttPublish} {subs : List Subscriber} {results : List Int}
    (run : publishMessageLoop pkt subs results b = .ok b') :
    publishLoop pkt subs results b = .ok b' := by
  induction subs generalizing pkt results b with
  | nil => exact run
  | cons sub subs ih =>
      obtain ⟨client, held, rest⟩ := bind_eq_ok.mp run
      obtain ⟨packed, packs, rest⟩ := bind_eq_ok.mp rest
      exact bind_eq_ok.mpr ⟨packed, packs, bind_eq_ok.mpr ⟨client, held, ih rest⟩⟩

/-- The send of a message to a subscriber of its topic. -/
def SendsStat (b : Broker T) (message : CString × CString) (send : Send) : Prop :=
  ∃ sub ∈ b.view.subscribers message.1,
    SendsTo b.clientHeap (publishAtMostOnce message.1 message.2) sub send

/-- What is sent of a message to the subscribers of its topic. -/
theorem publishStat_adds {message : (CString × CString) × List Int}
    (run : publishStat b message = .ok b') :
    (∃ info sent, b' = { b with info, sent }) ∧ ∃ sends, Adds b b' 0 0 sends ∧
      Answered (message.2.take (b.view.subscribers message.1.1).length) sends ∧
      ∀ send ∈ sends, SendsStat b message.1 send := by
  obtain ⟨⟨topic, text⟩, results⟩ := message
  change publishMessage b 0 _ topic _ _ results = .ok b' at run
  show _ ∧ ∃ sends, _ ∧ Answered (results.take (b.view.subscribers topic).length) sends ∧
    ∀ send ∈ sends, ∃ sub ∈ b.view.subscribers topic, _
  have topics : b.view.topics = b.topics := rfl
  rw [publishMessage, solTopicGet, mqttPacketPublish_atMostOnce] at run
  rw [View.subscribers, topics]
  cases found : trieFind b.topics topic with
  | none =>
      rw [found] at run
      cases run
      exact ⟨⟨_, _, rfl⟩, [], .of_same rfl rfl, by simp [Answered, NoFailure],
        fun send member => absurd member List.not_mem_nil⟩
  | some t =>
      rw [found] at run
      have loop := publishLoop_of_message run
      obtain ⟨sends, adds, answered⟩ := publishLoop_adds loop
      obtain ⟨sends', sent, each⟩ := publishLoop_sends loop
      obtain rfl := List.append_cancel_left (adds.sent.symm.trans sent)
      refine ⟨publishLoop_keeps loop, sends, adds, answered, fun send member => ?_⟩
      exact each.flip.exists_of_mem member

theorem publishStats_adds {messages : List ((CString × CString) × List Int)}
    (run : messages.foldlM publishStat b = .ok b') :
    (∃ info sent, b' = { b with info, sent }) ∧ ∃ sends, Adds b b' 0 0 sends ∧
      Answered (messages.flatMap
        fun message => message.2.take (b.view.subscribers message.1.1).length) sends ∧
      ∀ send ∈ sends, ∃ message ∈ messages, SendsStat b message.1 send := by
  induction messages generalizing b with
  | nil =>
      cases run
      exact ⟨⟨_, _, rfl⟩, [], .of_same rfl rfl, answered_nil,
        fun send member => absurd member List.not_mem_nil⟩
  | cons message messages ih =>
      obtain ⟨mid, first, rest⟩ := bind_eq_ok.mp run
      obtain ⟨⟨info, sent, rfl⟩, sends, adds, answered, each⟩ := publishStat_adds first
      obtain ⟨⟨info', sent', rfl⟩, sends', adds', answered', each'⟩ := ih rest
      refine ⟨⟨_, _, rfl⟩, sends ++ sends', adds.trans adds', ?_, fun send member => ?_⟩
      · rw [Answered, List.flatMap_cons, List.map_append, noFailure_append, noFailure_append]
        exact and_congr answered answered'
      · obtain now | later := List.mem_append.mp member
        · exact ⟨message, List.mem_cons_self .., each send now⟩
        · obtain ⟨message', member, own⟩ := each' send later
          exact ⟨message', List.mem_cons_of_mem _ member, own⟩

end Stats

/-! ## The counters and their totals -/

section Ledgers

variable [KeyTable T] {b b' : Broker T} {occasion : Occasion} {l l' : Ledger T}

/-- What an occasion adds, compared with what it should. -/
theorem handles_adds (handles : Handles b occasion b') :
    ∃ connections packets sends, Adds b b' connections packets sends ∧
      (connections = occasion.accepted ↔ occasion.KeepsConnections b) ∧
      (packets = occasion.received ↔ occasion.ReadsNothing) ∧
      (NoFailure (sends.map Send.result) ↔ occasion.SendsSucceed b) := by
  cases handles with
  | @accept succeeded fd uuid n _ run =>
      cases dispatch_tally run with
      | accepted put adds =>
          refine ⟨1, 0, [], adds, ?_, iff_of_true rfl trivial, Iff.rfl⟩
          show 1 = (if succeeded = true then 1 else 0) ↔ succeeded = true
          cases succeeded <;> decide
  | @write _ _ _ results _ _ live writes run =>
      cases dispatch_tally run with
      | wrote _ _ _ _ adds =>
          refine ⟨0, 0, _, adds, iff_of_true rfl trivial, iff_of_true rfl trivial, ?_⟩
          show NoFailure [_] ↔ NoFailure (results.take 1)
          cases results <;> simp [NoFailure]
      | failed live' reads | malformed live' reads | left live' reads | stayed live' reads =>
          cases live.symm.trans live'
          cases writes.symm.trans reads
  | @read _ _ _ _ r input _ _ _ live reads received isInput run =>
      cases dispatch_tally run with
      | wrote live' writes =>
          cases live.symm.trans live'
          cases reads.symm.trans writes
      | failed _ _ _ adds =>
          exact ⟨0, 0, [], adds, iff_of_true rfl id, iff_of_true rfl trivial, Iff.rfl⟩
      | malformed _ _ _ adds =>
          refine ⟨-1, 0, [], adds, iff_of_false ?_ fun stays => stays trivial,
            iff_of_true rfl trivial, Iff.rfl⟩
          exact (by decide : (-1 : Int) ≠ 0)
      | left _ _ leaves _ adds silent =>
          have long := RecvPacket.Unpacked.two_le isInput received
          refine ⟨-1, 1, [], adds, iff_of_false ?_ fun stays => stays leaves,
            iff_of_false ?_ id, ?_⟩
          · exact (by decide : (-1 : Int) ≠ 0)
          · exact fun same : 1 = r.nbytes => by omega
          · show _ ↔ NoFailure (requestAnswers b _ _)
            rw [silent]
            exact Iff.rfl
      | stayed _ _ stays _ adds answered _ =>
          have long := RecvPacket.Unpacked.two_le isInput received
          refine ⟨0, 1, _, adds, iff_of_true rfl stays, iff_of_false ?_ id, answered⟩
          exact fun same : 1 = r.nbytes => by omega
  | stats run =>
      obtain ⟨_, sends, adds, answered, _⟩ := publishStats_adds run
      exact ⟨0, 0, sends, adds, iff_of_true rfl trivial, iff_of_true rfl trivial, answered⟩

theorem Handles.accepted_nonneg (handles : Handles b occasion b') : 0 ≤ occasion.accepted := by
  cases handles with
  | @accept succeeded =>
      show (0 : Int) ≤ if succeeded = true then 1 else 0
      cases succeeded <;> decide
  | read | write | stats => exact le_refl _

theorem Handles.received_nonneg (handles : Handles b occasion b') : 0 ≤ occasion.received := by
  cases handles with
  | @read _ _ _ _ r input _ _ _ _ _ received isInput =>
      cases input with
      | request request =>
          have long := RecvPacket.Unpacked.two_le isInput received
          show 0 ≤ r.nbytes
          omega
      | packetErr | dropped => exact le_refl _
  | accept | write | stats => exact le_refl _

omit [KeyTable T] in
theorem Adds.reported {connections packets : Int} {sends : List Send}
    (adds : Adds b b' connections packets sends) :
    reported b' = reported b + ((sends.map Send.result).filter (0 ≤ ·)).sum := by
  rw [SolBroker.reported, adds.sent, List.map_append, List.filter_append, List.sum_append]
  rfl

/-- The failures are what the sum of all results is short of. -/
theorem sum_eq_filter_iff (results : List Int) :
    results.sum ≤ (results.filter (0 ≤ ·)).sum ∧
      (results.sum = (results.filter (0 ≤ ·)).sum ↔ NoFailure results) := by
  induction results with
  | nil => simp [NoFailure]
  | cons r results ih =>
      obtain ⟨below, same_iff⟩ := ih
      rw [NoFailure, List.forall_mem_cons, List.sum_cons]
      by_cases success : 0 ≤ r
      · rw [List.filter_cons_of_pos (by simpa using success), List.sum_cons]
        refine ⟨by omega, ?_⟩
        rw [and_iff_right success, ← NoFailure, ← same_iff]
        omega
      · rw [List.filter_cons_of_neg (by simpa using success)]
        refine ⟨by omega, iff_of_false (by omega) fun both => success both.1⟩

theorem reported_le (step : LedgerStep l occasion l') : reported l.broker ≤ reported l'.broker := by
  obtain ⟨_, _, sends, adds, _⟩ := handles_adds step.handles
  rw [adds.reported]
  have positive : 0 ≤ ((sends.map Send.result).filter (0 ≤ ·)).sum :=
    List.sum_nonneg fun r member => by simpa using (List.mem_filter.mp member).2
  omega

theorem startServer_info : (startServer : Broker T).info = {} ∧
    (startServer : Broker T).sent = [] := by
  obtain ⟨topics, topicHeap, same⟩ := startServer_eq (T := T)
  rw [same]
  exact ⟨rfl, rfl⟩

section Runs

variable {tr : List (Ledger T × Occasion)} (run : Run LedgerStep startLedger tr l)
include run

theorem tracks_nconnections_iff :
    Tracks (fun l : Ledger T => l.broker.info.nconnections) Ledger.accepted tr l ↔
      ∀ visit ∈ tr, visit.2.KeepsConnections visit.1.broker := by
  have start : (startLedger : Ledger T).broker.info.nconnections = 0 :=
    congrArg SolInfo.nconnections startServer_info.1
  refine @Run.tracks_iff _ _ LedgerStep startLedger _ _ _ _
    (fun l occasion => occasion.KeepsConnections l.broker) start (fun l occasion l' step => ?_)
    (fun l occasion l' same step => ?_) tr l run
  · have positive := step.handles.accepted_nonneg
    rw [step.accepted]
    omega
  · obtain ⟨connections, packets, sends, adds, keeps_iff, _⟩ := handles_adds step.handles
    rw [adds.nconnections, step.accepted, same, add_right_inj]
    exact keeps_iff

theorem tracks_bytesRecv_iff :
    Tracks (fun l : Ledger T => l.broker.info.bytesRecv) Ledger.received tr l ↔
      ∀ visit ∈ tr, visit.2.ReadsNothing := by
  have start : (startLedger : Ledger T).broker.info.bytesRecv = 0 :=
    congrArg SolInfo.bytesRecv startServer_info.1
  refine @Run.tracks_iff _ _ LedgerStep startLedger _ _ _ _
    (fun _ occasion => occasion.ReadsNothing)
    start (fun l occasion l' step => ?_) (fun l occasion l' same step => ?_) tr l run
  · have positive := step.handles.received_nonneg
    rw [step.received]
    omega
  · obtain ⟨connections, packets, sends, adds, _, nothing_iff, _⟩ := handles_adds step.handles
    rw [adds.bytesRecv, step.received, same, add_right_inj]
    exact nothing_iff

theorem tracks_bytesSent_iff :
    Tracks (fun l : Ledger T => l.broker.info.bytesSent) (fun l => reported l.broker) tr l ↔
      ∀ visit ∈ tr, visit.2.SendsSucceed visit.1.broker := by
  have start : (startLedger : Ledger T).broker.info.bytesSent =
      reported (startServer : Broker T) := by
    rw [reported, startServer_info.2]
    exact congrArg SolInfo.bytesSent startServer_info.1
  refine @Run.tracks_iff _ _ LedgerStep startLedger _ _ _ _
    (fun l occasion => occasion.SendsSucceed l.broker) start (fun l occasion l' step => ?_)
    (fun l occasion l' same step => ?_) tr l run
  · exact reported_le step
  · obtain ⟨connections, packets, sends, adds, _, _, answered⟩ := handles_adds step.handles
    rw [adds.bytesSent, adds.reported, same, add_right_inj, (sum_eq_filter_iff _).2]
    exact answered

/-- Each counter is its total throughout a run, and never goes down, exactly if the run has
none of the steps it goes wrong in. -/
theorem accounted_iff :
    (Tracks (fun l : Ledger T => l.broker.info.nconnections) Ledger.accepted tr l ↔
        ∀ visit ∈ tr, visit.2.KeepsConnections visit.1.broker) ∧
      (Tracks (fun l : Ledger T => l.broker.info.bytesRecv) Ledger.received tr l ↔
        ∀ visit ∈ tr, visit.2.ReadsNothing) ∧
      (Tracks (fun l : Ledger T => l.broker.info.bytesSent) (fun l => reported l.broker) tr l ↔
        ∀ visit ∈ tr, visit.2.SendsSucceed visit.1.broker) :=
  ⟨tracks_nconnections_iff run, tracks_bytesRecv_iff run, tracks_bytesSent_iff run⟩

end Runs

end Ledgers

/-! ## An accept that fails -/

/-- `accept` fails, and `on_accept` goes on with what is in `conn`. -/
def failedAccept : Occasion := .accept false 5 (uuidOf 0)

theorem accept_returns :
    (dispatch 2 (startServer : Broker HashTable) (.accept 5 (uuidOf 0))).toOption.isSome =
      true := by
  decide +kernel

/-- The failure is counted as a connection. -/
theorem run_failedAccept : ∃ tr l, Run LedgerStep (startLedger : Ledger HashTable) tr l ∧
    tr.map Prod.snd = [failedAccept] ∧ l.broker.info.nconnections ≠ l.accepted := by
  obtain ⟨b', returned⟩ := Option.isSome_iff_exists.mp accept_returns
  have run : dispatch 2 (startServer : Broker HashTable) (.accept 5 (uuidOf 0)) = .ok b' :=
    toOption_eq_some.mp returned
  have step : LedgerStep (startLedger : Ledger HashTable) failedAccept ⟨b', 0, 0⟩ :=
    ⟨.accept run, rfl, rfl⟩
  refine ⟨_, _, Run.nil.snoc step, rfl, ?_⟩
  cases dispatch_tally run with
  | accepted put adds =>
      show b'.info.nconnections ≠ 0
      rw [adds.nconnections, startServer_info.1]
      decide

theorem failedAccept_not_accounted :
    ¬ ∀ tr l, Run LedgerStep (startLedger : Ledger HashTable) tr l →
      Tracks (fun l : Ledger HashTable => l.broker.info.nconnections) Ledger.accepted tr l ∧
      Tracks (fun l : Ledger HashTable => l.broker.info.bytesRecv) Ledger.received tr l ∧
      Tracks (fun l : Ledger HashTable => l.broker.info.bytesSent) (fun l => reported l.broker)
        tr l := by
  intro always
  obtain ⟨tr, l, run, _, other⟩ := run_failedAccept
  exact other (always tr l run).1.final

/-! ## An answer that is counted -/

/-- A connection, a CONNECT on it, and a write event whose send takes 3 of the 4 bytes of
the CONNACK. -/
def acceptAndAnswer : List Occasion :=
  [.accept true 5 (uuidOf 0), .read 0 5 (.request (.connect (connectAs 97))) [], .write 0 [3]]

theorem acceptAndAnswer_returns :
    ((dispatch 2 (startServer : Broker HashTable) (.accept 5 (uuidOf 0))).bind fun b₁ =>
      (dispatch 2 b₁ (.ready 0 (.request (.connect (connectAs 97))) [])).bind fun b₂ =>
        (dispatch 2 b₂ (.ready 0 .dropped [3])).map fun b₃ =>
          ((b₁.closureHeap.get? 0).map Closure.call, KeyTable.contains b₁.clients (cstr [97]),
            (b₂.closureHeap.get? 0).map Closure.call, b₃.sent.map Send.result)).toOption =
      some (some .onRead, false, some .onWrite, [3]) := by
  decide +kernel

theorem fiveBytes_read :
    ((recvPacket [.data 1 [3, 7, 7, 7]] (List.replicate 8 0)).map RecvPacket.nbytes).toOption =
      some 5 := by
  decide +kernel

theorem run_acceptAndAnswer : ∃ b₁ b₂ b₃ : Broker HashTable,
    Run LedgerStep startLedger
      [(startLedger, .accept true 5 (uuidOf 0)),
        (⟨b₁, 1, 0⟩, .read 0 5 (.request (.connect (connectAs 97))) []),
        (⟨b₂, 1, 5⟩, .write 0 [3])] ⟨b₃, 1, 5⟩ ∧
      KeyTable.contains b₁.clients (cstr [97]) = false ∧ b₃.sent.map Send.result = [3] := by
  obtain ⟨b₁, accepted, rest⟩ := bind_eq_ok.mp (toOption_eq_some.mp acceptAndAnswer_returns)
  obtain ⟨b₂, connected, rest⟩ := bind_eq_ok.mp rest
  obtain ⟨b₃, written, facts⟩ := map_eq_ok.mp rest
  simp only [Prod.mk.injEq] at facts
  obtain ⟨reading, absent, writing, results⟩ := facts
  obtain ⟨closure₁, live₁, reads⟩ := Option.map_eq_some_iff.mp reading
  obtain ⟨closure₂, live₂, writes⟩ := Option.map_eq_some_iff.mp writing
  obtain ⟨r, received, size⟩ := map_eq_ok.mp (toOption_eq_some.mp fiveBytes_read)
  have unpacked : r.Unpacked := by
    rw [RecvPacket.Unpacked, size]
    decide
  have read : Handles b₁ (.read 0 5 (.request (.connect (connectAs 97))) []) b₂ :=
    size ▸ .read live₁ reads received unpacked connected
  have first : LedgerStep (startLedger : Ledger HashTable) (.accept true 5 (uuidOf 0))
      ⟨b₁, 1, 0⟩ := ⟨.accept accepted, rfl, rfl⟩
  have second : LedgerStep ⟨b₁, 1, 0⟩ (.read 0 5 (.request (.connect (connectAs 97))) [])
      ⟨b₂, 1, 5⟩ := ⟨read, rfl, rfl⟩
  have third : LedgerStep ⟨b₂, 1, 5⟩ (.write 0 [3]) ⟨b₃, 1, 5⟩ :=
    ⟨.write live₂ writes written, rfl, rfl⟩
  exact ⟨b₁, b₂, b₃, ((Run.nil.snoc first).snoc second).snoc third, absent, results⟩

/-- The connection and the 3 bytes are counted, the bytes of the CONNECT are not. -/
theorem acceptAndAnswer_accounted :
    ∃ tr l, Run LedgerStep (startLedger : Ledger HashTable) tr l ∧
      tr.map Prod.snd = acceptAndAnswer ∧ reported l.broker = 3 ∧
      Tracks (fun l : Ledger HashTable => l.broker.info.nconnections) Ledger.accepted tr l ∧
      ¬ Tracks (fun l : Ledger HashTable => l.broker.info.bytesRecv) Ledger.received tr l ∧
      Tracks (fun l : Ledger HashTable => l.broker.info.bytesSent) (fun l => reported l.broker)
        tr l := by
  obtain ⟨b₁, b₂, b₃, run, absent, results⟩ := run_acceptAndAnswer
  obtain ⟨connections, bytesRecv, bytesSent⟩ := accounted_iff run
  have stays : ¬ Leaves b₁ (.request (.connect (connectAs 97))) := by
    rintro ⟨block, named, found⟩
    cases named
    rw [absent] at found
    cases found
  refine ⟨_, _, run, rfl, ?_, connections.mpr ?_, fun tracks => ?_, bytesSent.mpr ?_⟩
  · rw [reported, results]
    rfl
  · simp only [List.forall_mem_cons]
    exact ⟨rfl, stays, trivial, List.forall_mem_nil _⟩
  · have nothing := bytesRecv.mp tracks
    simp only [List.forall_mem_cons] at nothing
    exact nothing.2.1
  · simp only [List.forall_mem_cons]
    refine ⟨List.forall_mem_nil _, List.forall_mem_nil _, ?_, List.forall_mem_nil _⟩
    exact List.forall_mem_singleton.mpr (by decide : (0 : Int) ≤ 3)

end SolBroker
