import Mathlib
import SolBroker.Hash.Contents
import SolBroker.Broker.Attachment
import SolBroker.Broker.Closures
import SolBroker.Broker.Publish

/-!
# What one event adds to the counters

`nclients` and `nconnections` go up in `on_accept` and down wherever a connection is
dropped, `bytes_recv` goes up by one for every packet that is read, and `bytes_sent` by
whatever each send has returned. The table of closures is changed where `nclients` is, by
one entry each time, so that the number of clients is the number of its entries.
-/

namespace SolBroker

open Transition

variable {T : Type → Type}

/-- What a call adds to the counters and to what was sent. -/
structure Adds (b b' : Broker T) (connections packets : Int) (sends : List Send) : Prop where
  nclients : b'.info.nclients = b.info.nclients + connections
  nconnections : b'.info.nconnections = b.info.nconnections + connections
  bytesRecv : b'.info.bytesRecv = b.info.bytesRecv + packets
  bytesSent : b'.info.bytesSent = b.info.bytesSent + (sends.map Send.result).sum
  sent : b'.sent = b.sent ++ sends

namespace Adds

variable {b b₁ b' : Broker T}

theorem of_same (info : b'.info = b.info) (sent : b'.sent = b.sent) : Adds b b' 0 0 [] := by
  constructor <;> simp [info, sent]

theorem trans {connections packets connections' packets' : Int} {sends sends' : List Send}
    (first : Adds b b₁ connections packets sends)
    (second : Adds b₁ b' connections' packets' sends') :
    Adds b b' (connections + connections') (packets + packets') (sends ++ sends') where
  nclients := by rw [second.nclients, first.nclients, add_assoc]
  nconnections := by rw [second.nconnections, first.nconnections, add_assoc]
  bytesRecv := by rw [second.bytesRecv, first.bytesRecv, add_assoc]
  bytesSent := by
    rw [second.bytesSent, first.bytesSent, List.map_append, List.sum_append, add_assoc]
  sent := by rw [second.sent, first.sent, List.append_assoc]

end Adds

/-- None of what `send_bytes` returns is a failure. -/
def NoFailure (results : List Int) : Prop :=
  ∀ r ∈ results, 0 ≤ r

theorem noFailure_append {results results' : List Int} :
    NoFailure (results ++ results') ↔ NoFailure results ∧ NoFailure results' :=
  List.forall_mem_append

/-- No send has failed, exactly if no answer that was given for it is a failure. -/
def Answered (given : List Int) (sends : List Send) : Prop :=
  NoFailure (sends.map Send.result) ↔ NoFailure given

theorem answered_nil : Answered [] [] := Iff.rfl

/-! ## Calls -/

section Calls

variable {b b' : Broker T} {cb : ClosureRef} {closure : Closure}

theorem publishLoop_adds {pkt : MqttPublish} {subs : List Subscriber} {results : List Int}
    (run : publishLoop pkt subs results b = .ok b') :
    ∃ sends, Adds b b' 0 0 sends ∧ Answered (results.take subs.length) sends := by
  induction subs generalizing pkt results b with
  | nil =>
      cases run
      exact ⟨[], .of_same rfl rfl, by simp [Answered, NoFailure]⟩
  | cons sub subs ih =>
      obtain ⟨packed, packs, rest⟩ := bind_eq_ok.mp run
      obtain ⟨client, held, rest⟩ := bind_eq_ok.mp rest
      simp only [sendBytes] at rest
      generalize length : publishLen _ + remaininglenOffset _ = len at rest
      obtain ⟨sends, adds, answered⟩ := ih rest
      let send : Send := ⟨client.fd, packed, len, results.headD len⟩
      refine ⟨send :: sends, ?_, ?_⟩
      · have one : Adds b { b with
            info := { b.info with
              bytesSent := b.info.bytesSent + results.headD len
              messagesSent := b.info.messagesSent + 1 }
            sent := b.sent ++ [send] } 0 0 [send] := by
          constructor <;> simp [send]
        exact one.trans adds
      · rw [Answered, List.map_cons, NoFailure, List.forall_mem_cons]
        refine (and_congr_right fun _ => answered).trans ?_
        cases results with
        | nil => simp [NoFailure, send]
        | cons r results => simp [NoFailure, send]

theorem publishReply_adds {pkt : MqttPublish} {rc : Int}
    (run : publishReply b cb closure pkt = .ok (rc, b')) : Adds b b' 0 0 [] := by
  obtain ⟨closureHeap, rfl⟩ := publishReply_keeps run
  exact .of_same rfl rfl

/-- The answers that `publish_handler` asks for. -/
def publishAnswers (b : Broker T) (pkt : MqttPublish) (results : List Int) : List Int :=
  match publishTopic pkt with
  | .ok name => results.take (b.view.subscribers name).length
  | .error _ => []

/-- What `publish_handler` sends: a packet to each subscriber of the topic. -/
def PublishSends (b : Broker T) (pkt : MqttPublish) (sends : List Send) : Prop :=
  ∃ name, publishTopic pkt = .ok name ∧
    List.Forall₂ (SendsTo b.clientHeap pkt) (b.view.subscribers name) sends

theorem published_adds {pkt : MqttPublish} {results : List Int} {name : CString} {b₁ : Broker T}
    {rc : Int} (named : publishTopic pkt = .ok name)
    (loop : publishLoop pkt ((b.published name).2.topicHeap[(b.published name).1]?.elim []
      fun topic => topic.subscribers.nodes) results (b.published name).2 = .ok b₁)
    (replies : publishReply b₁ cb closure pkt = .ok (rc, b')) :
    ∃ sends, Adds b b' 0 0 sends ∧ Answered (publishAnswers b pkt results) sends ∧
      PublishSends b pkt sends := by
  obtain ⟨sends', sent', each⟩ := published_sends loop replies
  rw [b.subscribers_published] at loop
  obtain ⟨sends, adds, answered⟩ := publishLoop_adds loop
  obtain ⟨topics, topicHeap, same⟩ := publishedTopic_keeps
    { b with info := { b.info with messagesRecv := b.info.messagesRecv + 1 } } name
  have counted : Adds b (b.published name).2 0 0 [] := by
    rw [Broker.published, same]
    constructor <;> simp
  have whole := (counted.trans adds).trans (publishReply_adds replies)
  rw [List.nil_append, List.append_nil] at whole
  obtain rfl := List.append_cancel_left (whole.sent.symm.trans sent')
  refine ⟨sends, by simpa using whole, ?_, name, named, each⟩
  rw [publishAnswers, named]
  exact answered

variable [KeyTable T] {fuel : Nat}

theorem dropConnection_adds {clientId closureId : CString}
    (run : dropConnection b clientId closureId = .ok b') :
    Adds b b' (-1) 0 [] ∧ b'.closures = (KeyTable.del b.closures closureId).2.1 := by
  obtain ⟨b₁, first, rest⟩ := bind_eq_ok.mp run
  obtain ⟨b₂, second, done⟩ := bind_eq_ok.mp rest
  cases done
  have kept₁ : ∃ clients clientHeap, b₁ = { b with clients, clientHeap } := by
    rw [delClient] at first
    split at first
    · cases first
      exact ⟨_, _, rfl⟩
    · obtain ⟨_, _, done⟩ := bind_eq_ok.mp first
      cases done
      exact ⟨_, _, rfl⟩
  obtain ⟨clients, clientHeap, rfl⟩ := kept₁
  have kept₂ : ∃ closureHeap, b₂ =
      { b with
        clients, clientHeap, closureHeap,
        closures := (KeyTable.del b.closures closureId).2.1 } := by
    rw [delClosure] at second
    split at second
    · rename_i deleted
      cases second
      refine ⟨b.closureHeap, ?_⟩
      rw [deleted]
    · rename_i freed deleted
      obtain ⟨_, _, done⟩ := bind_eq_ok.mp second
      cases done
      refine ⟨b.closureHeap.free freed, ?_⟩
      rw [deleted]
  obtain ⟨closureHeap, rfl⟩ := kept₂
  exact ⟨by constructor <;> simp [sub_eq_add_neg], rfl⟩

end Calls

/-! ## Events -/

/-- A packet after which the connection it came on is dropped: a malformed header, a
DISCONNECT, or a CONNECT with an id that is found. -/
def Leaves [KeyTable T] (b : Broker T) : Input → Prop
  | .packetErr => True
  | .request .disconnect => True
  | .request (.connect pkt) =>
      ∃ block, pkt.payload.clientId = some block ∧ KeyTable.contains b.clients (cstr block) = true
  | _ => False

/-- What the handler of a packet sends by itself. -/
def RequestSends (b : Broker T) (sends : List Send) : Request → Prop
  | .publish pkt => PublishSends b pkt sends
  | _ => sends = []

/-- The answers that a packet asks for. -/
def requestAnswers (b : Broker T) (results : List Int) : Request → List Int
  | .publish pkt => publishAnswers b pkt results
  | _ => []

/-- What an event does to the counters and to the table of closures. -/
inductive Tally [KeyTable T] (b : Broker T) : Event → Broker T → Prop
  | accepted {fd uuid n status b'}
      (put : KeyTable.put n b.closures uuid b.closureHeap.next = .ok (status, b'.closures))
      (adds : Adds b b' 1 0 []) : Tally b (.accept fd uuid) b'
  | wrote {cb closure payload input results b'} (live : b.closureHeap.get? cb = some closure)
      (writes : closure.call = .onWrite) (held : closure.payload = some payload)
      (same : b'.closures = b.closures)
      (adds : Adds b b' 0 0 [⟨closure.fd, payload, payload.size, results.headD payload.size⟩]) :
      Tally b (.ready cb input results) b'
  | failed {cb closure results b'} (live : b.closureHeap.get? cb = some closure)
      (reads : closure.call = .onRead) (same : b'.closures = b.closures) (adds : Adds b b' 0 0 []) :
      Tally b (.ready cb .dropped results) b'
  | malformed {cb closure results b'} (live : b.closureHeap.get? cb = some closure)
      (reads : closure.call = .onRead)
      (del : b'.closures = (KeyTable.del b.closures closure.closureId).2.1)
      (adds : Adds b b' (-1) 0 []) : Tally b (.ready cb .packetErr results) b'
  | left {cb closure request results b'} (live : b.closureHeap.get? cb = some closure)
      (reads : closure.call = .onRead) (leaves : Leaves b (.request request))
      (del : b'.closures = (KeyTable.del b.closures closure.closureId).2.1)
      (adds : Adds b b' (-1) 1 []) (silent : requestAnswers b results request = []) :
      Tally b (.ready cb (.request request) results) b'
  | stayed {cb closure request results sends b'} (live : b.closureHeap.get? cb = some closure)
      (reads : closure.call = .onRead) (stays : ¬ Leaves b (.request request))
      (same : b'.closures = b.closures) (adds : Adds b b' 0 1 sends)
      (answered : Answered (requestAnswers b results request) sends)
      (own : RequestSends b sends request) :
      Tally b (.ready cb (.request request) results) b'

section Events

variable [KeyTable T] {fuel : Nat} {b b' : Broker T} {cb : ClosureRef} {closure : Closure}
  {results : List Int}

/-- A packet that is handled either drops its connection or leaves the table and the
number of connections alone. -/
theorem handle_adds {request : Request} {rc : Int} (live : b.closureHeap.get? cb = some closure)
    (run : handle fuel b cb results request = .ok (rc, b')) :
    (Leaves b (.request request) ∧ Adds b b' (-1) 0 [] ∧
        b'.closures = (KeyTable.del b.closures closure.closureId).2.1 ∧
        requestAnswers b results request = []) ∨
      ¬ Leaves b (.request request) ∧ b'.closures = b.closures ∧
        ∃ sends, Adds b b' 0 0 sends ∧ Answered (requestAnswers b results request) sends ∧
          RequestSends b sends request := by
  have quiet {b' : Broker T} (same : b'.info = b.info) (sent : b'.sent = b.sent) :
      ∃ sends, Adds b b' 0 0 sends ∧ Answered [] sends ∧ sends = [] :=
    ⟨[], .of_same same sent, answered_nil, rfl⟩
  -- closing the descriptor counts nothing
  have dropped {fd : Int} {key : CString}
      (run : dropConnection (closeFd b fd) key closure.closureId = .ok b') :
      Adds b b' (-1) 0 [] ∧ b'.closures = (KeyTable.del b.closures closure.closureId).2.1 := by
    obtain ⟨adds, closures⟩ := dropConnection_adds run
    have closed : Adds b (closeFd b fd) 0 0 [] := .of_same rfl rfl
    exact ⟨closed.trans adds, closures⟩
  cases handle_eq_ok live run with
  | @refused pkt block _ given found run =>
      obtain ⟨adds, closures⟩ := dropped run
      exact .inl ⟨⟨block, given, found⟩, adds, closures, rfl⟩
  | @connected pkt block _ _ _ given free =>
      refine .inr ⟨?_, rfl, quiet rfl rfl⟩
      rintro ⟨block', given', found⟩
      cases given.symm.trans given'
      rw [free] at found
      cases found
  | disconnected _ _ run =>
      obtain ⟨adds, closures⟩ := dropped run
      exact .inl ⟨trivial, adds, closures, rfl⟩
  | subscribed _ _ _ rounds =>
      obtain ⟨_, _, same⟩ := subscribeTuples_keep rounds
      have closures := congrArg Broker.closures same
      have info := congrArg Broker.info same
      have sent := congrArg Broker.sent same
      exact .inr ⟨id, closures, quiet info sent⟩
  | unsubscribed => exact .inr ⟨id, rfl, quiet rfl rfl⟩
  | @published pkt _ _ topic _ _ _ _ _ named loop replies =>
      have closures : b'.closures = b.closures := by
        obtain ⟨_, rfl⟩ := publishReply_keeps replies
        obtain ⟨_, _, rfl⟩ := publishLoop_keeps loop
        obtain ⟨_, _, _, same⟩ := b.published_keeps topic
        have closures := congrArg Broker.closures same
        exact closures
      exact .inr ⟨id, closures, published_adds named loop replies⟩

omit [KeyTable T] in
theorem rearm_adds {rc : Int} (run : rearm b cb rc = .ok b') :
    b'.closures = b.closures ∧ Adds b b' 0 0 [] := by
  rw [rearm] at run
  split at run
  · obtain ⟨_, _, done⟩ := bind_eq_ok.mp run
    cases done
    exact ⟨rfl, .of_same rfl rfl⟩
  · cases run
    exact ⟨rfl, .of_same rfl rfl⟩

theorem leaves_of_view {b₁ : Broker T} (same : b₁.view = b.view) (input : Input) :
    Leaves b₁ input = Leaves b input := by
  have clients : b₁.clients = b.clients := congrArg View.clients same
  unfold Leaves
  rw [clients]

omit [KeyTable T] in
theorem requestSends_of_view {b₁ : Broker T} (same : b₁.view = b.view) (sends : List Send)
    (request : Request) : RequestSends b₁ sends request = RequestSends b sends request := by
  have clientHeap : b₁.clientHeap = b.clientHeap := congrArg View.clientHeap same
  unfold RequestSends PublishSends
  rw [same, clientHeap]

omit [KeyTable T] in
theorem requestAnswers_of_view {b₁ : Broker T} (same : b₁.view = b.view) (results : List Int)
    (request : Request) : requestAnswers b₁ results request = requestAnswers b results request := by
  unfold requestAnswers publishAnswers
  rw [same]

/-- Every event that is handled is counted in one of these ways. -/
theorem dispatch_tally {event : Event} (run : dispatch fuel b event = .ok b') :
    Tally b event b' := by
  cases dispatch_eq_ok run with
  | accepted run =>
      obtain ⟨⟨status, closures⟩, put, done⟩ := bind_eq_ok.mp run
      cases done
      exact .accepted put (by constructor <;> simp)
  | wrote live writes held =>
      refine .wrote live writes held rfl ?_
      constructor <;> simp
  | failed live reads => exact .failed live reads rfl (.of_same rfl rfl)
  | @malformed cb closure _ _ _ _ live reads _ _ dropped =>
      obtain ⟨adds, closures⟩ := dropConnection_adds dropped
      have before :
          Adds b (closeFd (setClosure b cb { closure with armed := none }) closure.fd) 0 0 [] :=
        .of_same rfl rfl
      exact .malformed live reads closures (before.trans adds)
  | @handled cb closure _ _ _ _ _ live reads live₁ returned rearmed =>
      have counted : Adds b (readyToHandle b cb closure) 0 1 [] := by
        constructor <;> simp [readyToHandle, setClosure]
      have view : (readyToHandle b cb closure).view = b.view := view_setClosure_same live rfl
      obtain ⟨closures, after⟩ := rearm_adds rearmed
      have outcome := handle_adds live₁ returned
      rw [leaves_of_view view, requestAnswers_of_view view] at outcome
      obtain ⟨leaves, adds, del, silent⟩ | ⟨stays, same, sends, adds, answered, own⟩ := outcome
      · refine .left live reads leaves (closures.trans del) ?_ silent
        simpa using (counted.trans adds).trans after
      · rw [requestSends_of_view view] at own
        refine .stayed live reads stays (closures.trans same) ?_ answered own
        simpa using (counted.trans adds).trans after

end Events

/-! ## The number of clients -/

section Clients

variable {v : View HashTable} {cb : ClosureRef} {link : Link}

/-- The table has one entry more for a connection under a new id. -/
theorem ClosuresKept.length_put (kept : ClosuresKept v) {closures : HashTable ClosureRef}
    {uuid : CString} (isUuid : IsUuid uuid)
    (fresh : ∀ cb link, v.links cb = some link → link.closureId ≠ uuid)
    (returns : PutReturns v.closures uuid v.nextClosure closures) :
    closures.contents.length = v.closures.contents.length + 1 := by
  obtain ⟨m, represented, indexes⟩ := kept.named
  have unknown : m.lookup uuid = none := by
    cases found : m.lookup uuid with
    | none => rfl
    | some cb =>
        obtain ⟨link, linked, own⟩ := Option.map_eq_some_iff.mp ((indexes uuid cb).mp found)
        exact absurd own (fresh cb link linked)
  have absent : hashtableExists v.closures uuid = false := by
    rw [hashtableExists, represented.get prefixFree_uuids isUuid, unknown]
    rfl
  have put := represented.put prefixFree_uuids isUuid absent returns
  rw [← put.known.sound.counted, ← represented.known.sound.counted, put.size, represented.size]
  have new : uuid ∉ m.keys := by
    rw [← AList.mem_keys, ← AList.lookup_isSome, unknown]
    exact Bool.false_ne_true
  rw [AList.keys_insert, List.length_cons, List.erase_of_not_mem new]

/-- It has one entry less once a closure has been deleted by its id. -/
theorem ClosuresKept.length_del (kept : ClosuresKept v) (linked : v.links cb = some link) :
    v.closures.contents.length =
      (hashtableDel v.closures link.closureId).2.1.contents.length + 1 := by
  obtain ⟨i, located, held⟩ := kept.located linked
  rw [hashtableDel, located]
  exact (contents_clear_perm held).length_eq

variable {b b' : Broker HashTable} {event : Event}

/-- The clients are counted as the entries of the table of closures. -/
def ClientsCounted (b : Broker HashTable) : Prop :=
  b.info.nclients = b.closures.contents.length

theorem clientsCounted_step (kept : ClosuresKept b.view) (counted : ClientsCounted b)
    (step : BrokerStep b event b') : ClientsCounted b' := by
  obtain ⟨fresh, fuel, run⟩ := step
  rw [ClientsCounted] at counted ⊢
  cases dispatch_tally run with
  | accepted put adds =>
      have grown := kept.length_put fresh.1 (fun cb link linked => ?_) (putReturns_of_keyTable put)
      · rw [adds.nclients, counted, grown, Nat.cast_succ]
        rfl
      · obtain ⟨closure, live, rfl⟩ := Option.map_eq_some_iff.mp linked
        exact fresh.2 cb closure live
  | wrote _ _ _ same adds | failed _ _ same adds | stayed _ _ _ same adds =>
      rw [adds.nclients, counted, same, add_zero]
  | malformed live _ del adds | left live _ _ del adds =>
      have shrunk : b.closures.contents.length = _ := kept.length_del (view_links live)
      rw [adds.nclients, counted, del, shrunk, Nat.cast_succ, add_neg_cancel_right]
      rfl

/-- In every reachable state the number of clients is the number of entries of the table
of closures, and so not negative. -/
theorem clientsCounted {tr : List (Broker HashTable × Event)}
    (run : Run BrokerStep startServer tr b) :
    b.info.nclients = b.closures.contents.length ∧ 0 ≤ b.info.nclients := by
  let inv (b : Broker HashTable) : Prop := ClosuresKept b.view ∧ ClientsCounted b
  have start : inv startServer := by
    refine ⟨closuresKept_startServer, ?_⟩
    obtain ⟨topics, topicHeap, same⟩ := startServer_eq (T := HashTable)
    rw [ClientsCounted, same]
    rfl
  have preserved (b : Broker HashTable) (event : Event) (b' : Broker HashTable) (both : inv b)
      (step : BrokerStep b event b') : inv b' :=
    ⟨closuresKept_step both.1 step, clientsCounted_step both.1 both.2 step⟩
  have both : inv b := run.invariant start preserved
  refine ⟨both.2, ?_⟩
  rw [both.2]
  exact Int.natCast_nonneg _

end Clients

/-- A client connects, and its second CONNECT is refused. -/
def connectTwice : List Event :=
  [.accept 5 (uuidOf 0), .ready 0 (.request (.connect (connectAs 97))) [], .ready 0 .dropped [],
    .ready 0 (.request (.connect (connectAs 97))) []]

theorem replay_connectTwice :
    (replay brokerNext (startServer : Broker HashTable) connectTwice).map (fun r =>
      r.2.info.nclients) = some 0 := by
  decide +kernel

/-- Its closure is gone with it. -/
theorem connectTwice_counted : ∃ tr b, Run BrokerStep (startServer : Broker HashTable) tr b ∧
    tr.map Prod.snd = connectTwice ∧ b.closures.contents = [] := by
  obtain ⟨tr, b, run, labels, none⟩ :=
    Run.of_replay_map (fun _ _ _ => brokerNext_step) replay_connectTwice
  refine ⟨tr, b, run, labels, ?_⟩
  obtain ⟨counted, _⟩ := clientsCounted run
  have empty : (b.closures.contents.length : Int) = 0 := counted.symm.trans none
  exact List.length_eq_zero_iff.mp (Int.ofNat_eq_zero.mp empty)

end SolBroker
