import Mathlib
import SolBroker.Broker.Frames

/-!
# The messages that are counted

`messages_recv` goes up with every PUBLISH that is handled and `messages_sent` with every copy
of one that is handed to a subscriber, in `publish_handler` as in `publish_message`. So over
any run `messages_sent` is what the subscriber lists say it should be, and together with the
replies that were written it is the number of all sends.
-/

namespace SolBroker

open Transition

variable {T : Type → Type}

section Definitions

/-- The copies of messages that an event hands out: one for each entry of a subscriber list. -/
def ServerEvent.copies (b : Broker T) : ServerEvent → Nat
  | .socket (.ready cb (.request (.publish pkt)) _) =>
      if b.reading cb then
        (publishTopic pkt).toOption.elim 0 fun name => (b.view.subscribers name).length
      else 0
  | .tick uptime solUptime _ =>
      ((statsMessages b.info uptime solUptime).map fun message =>
        (b.view.subscribers message.1).length).sum
  | _ => 0

/-- The PUBLISH packets that an event has handled. -/
def ServerEvent.publishes (b : Broker T) : ServerEvent → Nat
  | .socket (.ready cb (.request (.publish _)) _) => if b.reading cb then 1 else 0
  | _ => 0

/-- The replies that an event has written. -/
def ServerEvent.writes (b : Broker T) : ServerEvent → Nat
  | .socket (.ready cb _ _) => if b.reading cb then 0 else 1
  | _ => 0

end Definitions

/-- What a step adds to the counters of messages and to the number of sends. -/
structure CountsMessages (b b' : Broker T) (copies publishes writes : Nat) : Prop where
  sent : b'.info.messagesSent = b.info.messagesSent + copies
  received : b'.info.messagesRecv = b.info.messagesRecv + publishes
  sends : b'.sent.length = b.sent.length + copies + writes

namespace CountsMessages

variable {b b₁ b' : Broker T}

theorem of_same (sent : b'.info.messagesSent = b.info.messagesSent)
    (received : b'.info.messagesRecv = b.info.messagesRecv) (sends : b'.sent = b.sent) :
    CountsMessages b b' 0 0 0 := by
  constructor <;> simp [sent, received, sends]

theorem trans {copies publishes writes copies' publishes' writes' : Nat}
    (first : CountsMessages b b₁ copies publishes writes)
    (second : CountsMessages b₁ b' copies' publishes' writes') :
    CountsMessages b b' (copies + copies') (publishes + publishes') (writes + writes') where
  sent := by rw [second.sent, first.sent, Nat.cast_add, add_assoc]
  received := by rw [second.received, first.received, Nat.cast_add, add_assoc]
  sends := by
    rw [second.sends, first.sends]
    omega

end CountsMessages

section Calls

variable {b b' : Broker T} {cb : ClosureRef} {closure : Closure}

theorem publishLoop_counts {pkt : MqttPublish} {subs : List Subscriber} {results : List Int}
    (run : publishLoop pkt subs results b = .ok b') :
    CountsMessages b b' subs.length 0 0 := by
  induction subs generalizing pkt results b with
  | nil =>
      cases run
      exact .of_same rfl rfl rfl
  | cons sub subs ih =>
      obtain ⟨packed, _, rest⟩ := bind_eq_ok.mp run
      obtain ⟨client, _, rest⟩ := bind_eq_ok.mp rest
      simp only [sendBytes] at rest
      generalize publishLen _ + remaininglenOffset _ = len at rest
      have one : CountsMessages b { b with
          info := { b.info with
            bytesSent := b.info.bytesSent + results.headD len
            messagesSent := b.info.messagesSent + 1 }
          sent := b.sent ++ [⟨client.fd, packed, len, results.headD len⟩] } 1 0 0 := by
        constructor <;> simp
      rw [List.length_cons, Nat.add_comm]
      exact one.trans (ih rest)

theorem publishedTopic_counts (b : Broker T) (name : CString) :
    CountsMessages b (b.published name).2 0 1 0 := by
  obtain ⟨topics, topicHeap, same⟩ := publishedTopic_keeps
    { b with info := { b.info with messagesRecv := b.info.messagesRecv + 1 } } name
  rw [Broker.published, same]
  constructor <;> simp

theorem dropConnection_counts [KeyTable T] {clientId closureId : CString}
    (run : dropConnection b clientId closureId = .ok b') : CountsMessages b b' 0 0 0 := by
  obtain ⟨b₁, first, rest⟩ := bind_eq_ok.mp run
  obtain ⟨b₂, second, done⟩ := bind_eq_ok.mp rest
  cases done
  have kept₁ : b₁.info = b.info ∧ b₁.sent = b.sent := by
    rw [delClient] at first
    split at first
    · cases first
      exact ⟨rfl, rfl⟩
    · obtain ⟨_, _, done⟩ := bind_eq_ok.mp first
      cases done
      exact ⟨rfl, rfl⟩
  have kept₂ : b₂.info = b₁.info ∧ b₂.sent = b₁.sent := by
    rw [delClosure] at second
    split at second
    · cases second
      exact ⟨rfl, rfl⟩
    · obtain ⟨_, _, done⟩ := bind_eq_ok.mp second
      cases done
      exact ⟨rfl, rfl⟩
  refine .of_same ?_ ?_ (kept₂.2.trans kept₁.2)
  · show b₂.info.messagesSent = b.info.messagesSent
    rw [kept₂.1, kept₁.1]
  · show b₂.info.messagesRecv = b.info.messagesRecv
    rw [kept₂.1, kept₁.1]

/-- The copies that a packet asks for, and whether it counts as a message. -/
def Request.counted (b : Broker T) : Request → Nat × Nat
  | .publish pkt =>
      ((publishTopic pkt).toOption.elim 0 fun name => (b.view.subscribers name).length, 1)
  | _ => (0, 0)

theorem handle_counts [KeyTable T] {fuel : Nat} {results : List Int} {request : Request} {rc : Int}
    (live : b.closureHeap.get? cb = some closure)
    (run : handle fuel b cb results request = .ok (rc, b')) :
    CountsMessages b b' (request.counted b).1 (request.counted b).2 0 := by
  cases handle_eq_ok live run with
  | refused _ _ dropped | disconnected _ _ dropped =>
      have closed (fd : Int) : CountsMessages b (closeFd b fd) 0 0 0 := .of_same rfl rfl rfl
      exact (closed _).trans (dropConnection_counts dropped)
  | connected => exact .of_same rfl rfl rfl
  | @subscribed pkt _ _ st _ _ _ _ rounds =>
      obtain ⟨_, _, same⟩ := subscribeTuples_keep rounds
      have info : st.broker.info = b.info := by
        rw [same]
      have sent : st.broker.sent = b.sent := by
        rw [same]
      exact .of_same (congrArg SolInfo.messagesSent info) (congrArg SolInfo.messagesRecv info) sent
  | unsubscribed => exact .of_same rfl rfl rfl
  | @published pkt _ _ topic b₁ _ _ _ _ named loop replies =>
      rw [b.subscribers_published] at loop
      have replied : CountsMessages b₁ b' 0 0 0 := by
        obtain ⟨_, rfl⟩ := publishReply_keeps replies
        exact .of_same rfl rfl rfl
      have looped := (publishedTopic_counts b topic).trans (publishLoop_counts loop)
      have counted := looped.trans replied
      rw [Request.counted, named]
      show CountsMessages b b' (b.view.subscribers topic).length 1 0
      simpa using counted

theorem publishStat_counts {message : (CString × CString) × List Int}
    (run : publishStat b message = .ok b') :
    CountsMessages b b' (b.view.subscribers message.1.1).length 0 0 := by
  obtain ⟨⟨topic, text⟩, results⟩ := message
  change publishMessage _ _ _ _ _ _ _ = _ at run
  have topics : b.view.topics = b.topics := rfl
  rw [publishMessage, solTopicGet] at run
  rw [View.subscribers, topics]
  dsimp only
  cases found : trieFind b.topics topic with
  | none =>
      rw [found] at run
      cases run
      exact .of_same rfl rfl rfl
  | some t =>
      rw [found] at run
      exact publishLoop_counts (publishLoop_of_message run)

theorem publishStats_counts {uptime : Int} {solUptime : CString} {results : List (List Int)}
    (run : publishStats b uptime solUptime results = .ok b') :
    CountsMessages b b' (ServerEvent.copies b (.tick uptime solUptime results)) 0 0 := by
  rw [publishStats] at run
  rw [ServerEvent.copies, ← statsMessages_zip b.info uptime solUptime results]
  generalize (statsMessages b.info uptime solUptime).zip _ = pairs at run
  induction pairs generalizing b with
  | nil =>
      cases run
      exact .of_same rfl rfl rfl
  | cons pair pairs ih =>
      obtain ⟨mid, first, rest⟩ := bind_eq_ok.mp run
      have counted := publishStat_counts first
      obtain ⟨info, sent, rfl⟩ := publishStat_keeps first
      exact counted.trans (ih rest)

end Calls

/-! ## Runs -/

section Runs

variable [KeyTable T] {fuel : Nat} {b b' : Broker T} {tr : List (Broker T × ServerEvent)}
  {event : ServerEvent}

theorem dispatch_counts {event : Event} (run : dispatch fuel b event = .ok b') :
    CountsMessages b b' (ServerEvent.copies b (.socket event))
      (ServerEvent.publishes b (.socket event)) (ServerEvent.writes b (.socket event)) := by
  cases dispatch_eq_ok run with
  | accepted run =>
      obtain ⟨⟨status, closures⟩, _, done⟩ := bind_eq_ok.mp run
      cases done
      exact .of_same rfl rfl rfl
  | @wrote cb closure payload input results live writes held =>
      have reading : b.reading cb = false := by
        rw [b.reading_eq live, writes]
        rfl
      have silent : ServerEvent.copies b (.socket (.ready cb input results)) = 0 ∧
          ServerEvent.publishes b (.socket (.ready cb input results)) = 0 := by
        cases input with
        | request request =>
            cases request with
            | publish => exact ⟨if_neg (by simp [reading]), if_neg (by simp [reading])⟩
            | connect | disconnect | subscribe | unsubscribe => exact ⟨rfl, rfl⟩
        | packetErr | dropped => exact ⟨rfl, rfl⟩
      rw [silent.1, silent.2, ServerEvent.writes, if_neg (by simp [reading])]
      constructor <;> simp
  | @failed cb closure results live reads =>
      have reading : b.reading cb = true := (b.reading_eq live).trans (decide_eq_true reads)
      rw [ServerEvent.writes, if_pos reading]
      exact .of_same rfl rfl rfl
  | @malformed cb closure results _ _ _ live reads _ _ dropped =>
      have reading : b.reading cb = true := (b.reading_eq live).trans (decide_eq_true reads)
      rw [ServerEvent.writes, if_pos reading]
      have before :
          CountsMessages b (closeFd (setClosure b cb { closure with armed := none }) closure.fd)
            0 0 0 := .of_same rfl rfl rfl
      exact before.trans (dropConnection_counts dropped)
  | @handled cb closure request results rc b₂ _ live reads live₁ returned rearmed =>
      have reading : b.reading cb = true := (b.reading_eq live).trans (decide_eq_true reads)
      have before : CountsMessages b (readyToHandle b cb closure) 0 0 0 := .of_same rfl rfl rfl
      have after : CountsMessages b₂ b' 0 0 0 := by
        rw [rearm] at rearmed
        split at rearmed
        · obtain ⟨_, _, done⟩ := bind_eq_ok.mp rearmed
          cases done
          exact .of_same rfl rfl rfl
        · cases rearmed
          exact .of_same rfl rfl rfl
      have counted := (before.trans (handle_counts live₁ returned)).trans after
      have view : (readyToHandle b cb closure).view = b.view := view_setClosure_same live rfl
      rw [ServerEvent.writes, if_pos reading]
      cases request with
      | publish pkt =>
          rw [ServerEvent.copies, ServerEvent.publishes, if_pos reading, if_pos reading]
          rw [Request.counted, view] at counted
          simpa using counted
      | connect | disconnect | subscribe | unsubscribe => exact counted

theorem ServerStep.counts (step : ServerStep b event b') :
    CountsMessages b b' (event.copies b) (event.publishes b) (event.writes b) := by
  obtain ⟨_, fuel, run⟩ := step
  cases event with
  | socket event => exact dispatch_counts run
  | tick => exact publishStats_counts run

/-- In every run `messages_recv` is the number of PUBLISH packets that were handled, and
`messages_sent` the number of entries, each as often as it stood there, of the subscriber lists
that these and the messages of the ticks went to. All sends are these copies and the replies. -/
theorem messages_counted (run : Run ServerStep startServer tr b) :
    b.info.messagesRecv = (tr.map fun visit => visit.2.publishes visit.1).sum ∧
      b.info.messagesSent = (tr.map fun visit => visit.2.copies visit.1).sum ∧
      b.sent.length = (tr.map fun visit => visit.2.copies visit.1).sum +
        (tr.map fun visit => visit.2.writes visit.1).sum := by
  induction run with
  | nil =>
      obtain ⟨info, sent⟩ := startServer_info (T := T)
      rw [info, sent]
      exact ⟨rfl, rfl, rfl⟩
  | snoc _ step ih =>
      obtain ⟨received, sent, sends⟩ := ih
      have counts := step.counts
      simp only [List.map_append, List.map_singleton, List.sum_append, List.sum_singleton]
      refine ⟨?_, ?_, ?_⟩
      · rw [counts.received, received, Nat.cast_add]
      · rw [counts.sent, sent, Nat.cast_add]
      · rw [counts.sends, sends]
        omega

theorem replay_publishNulToA_counts :
    (replay serverNext (startServer : Broker HashTable) publishNulToA).map (fun r =>
      ((r.1.map fun visit => visit.2.publishes visit.1).sum,
        (r.1.map fun visit => visit.2.copies visit.1).sum,
        (r.1.map fun visit => visit.2.writes visit.1).sum)) = some (1, 1, 2) := by
  decide +kernel

/-- One message in, one out, and two replies. -/
theorem publishNulToA_counted : ∃ tr b,
    Run ServerStep (startServer : Broker HashTable) tr b ∧ tr.map Prod.snd = publishNulToA ∧
      b.info.messagesRecv = 1 ∧ b.info.messagesSent = 1 ∧ b.sent.length = 3 := by
  obtain ⟨tr, b, run, labels, counts⟩ :=
    Run.of_replay_map serverNext_step replay_publishNulToA_counts
  obtain ⟨received, sent, sends⟩ := messages_counted run
  simp only [Prod.mk.injEq] at counts
  obtain ⟨publishes, copies, writes⟩ := counts
  rw [publishes] at received
  rw [copies] at sent
  rw [copies, writes] at sends
  exact ⟨tr, b, run, labels, received, sent, sends⟩

end Runs

end SolBroker
