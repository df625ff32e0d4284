import Mathlib
import SolBroker.Wire.Frames
import SolBroker.Broker.Delivery
import SolBroker.Broker.Maps
import SolBroker.Broker.Replies
import SolBroker.Broker.Tuples

/-!
# What the broker can handle

A callback may fault in many places: it follows pointers, reads strings from their end and
writes into blocks whose lengths were computed beforehand. As long as every client that a
closure or a subscriber refers to exists, the events that it handles can be told from the
events themselves. The clients exist as long as none is destroyed to which something else
still refers.
-/

namespace SolBroker

open Transition Simulation

variable {T : Type → Type}

/-! ## Events that can be handled -/

/-- The tuples of a SUBSCRIBE are all there and few enough for a SUBACK, their names can be
read, and behind a name that is a new string no other is freed. -/
structure MqttSubscribe.Grantable (pkt : MqttSubscribe) : Prop where
  whole : pkt.tuplesLen.toNat ≤ pkt.tuples.length
  few : pkt.tuplesLen.toNat < 126
  named : ∀ tuple ∈ pkt.tuples.take pkt.tuplesLen.toNat, tupleName tuple ≠ none
  strings : (pkt.tuples.take pkt.tuplesLen.toNat).Along TakesString

/-- A packet that its handler can handle. -/
def Request.Decent (b : Broker T) (closure : Closure) : Request → Prop
  | .connect pkt => pkt.payload.clientId ≠ none
  | .disconnect | .unsubscribe _ => closure.obj ≠ none
  | .subscribe pkt => closure.obj ≠ none ∧ pkt.Grantable
  | .publish pkt => closure.obj ≠ none ∧
      ∃ name, publishTopic pkt = .ok name ∧ (b.view.subscribers name ≠ [] → pkt.Fits)

/-- What `on_read` can handle. -/
def Input.Decent (b : Broker T) (closure : Closure) : Input → Prop
  | .request packet => packet.Decent b closure
  | .packetErr => closure.obj ≠ none
  | .dropped => True

/-- The packet of one of the broker's own messages. -/
def statPacket (message : CString × CString) : MqttPublish :=
  mqttPacketPublish publishByte 0 (UInt16.ofNat message.1.bytes.length).toNat message.1.bytes
    (UInt16.ofNat message.2.bytes.length).toNat message.2.bytes

/-- An event on a closure that exists, with a packet that can be handled if it reads; or a
tick whose messages are as long as recorded, where someone is subscribed to them. -/
def ServerEvent.Decent (b : Broker T) : ServerEvent → Prop
  | .socket (.accept ..) => True
  | .socket (.ready cb input _) => ∃ closure, b.closureHeap.get? cb = some closure ∧
      (closure.call = .onRead → input.Decent b closure)
  | .tick uptime solUptime _ => ∀ message ∈ statsMessages b.info uptime solUptime,
      b.view.subscribers message.1 ≠ [] → (statPacket message).Fits


/-- A SUBACK can be packed as long as its length takes one byte. -/
theorem suback_packs_iff {pktId rcslen : UInt16} {codes : List UInt8}
    (counted : codes.length = rcslen.toNat) :
    (∃ packed, packMqttPacket (.suback (mqttPacketSuback subackByte pktId codes rcslen)) .suback =
      .ok packed) ↔ rcslen.toNat < 126 := by
  show (∃ packed, packMqttSuback (mqttPacketSuback subackByte pktId codes rcslen) = _) ↔ _
  rw [packMqttSuback_eq (mqttPacketSuback subackByte pktId codes rcslen) counted]
  show (∃ packed, (if rcslen.toNat < 126 then _ else _) = Except.ok packed) ↔ _
  split
  · rename_i few
    exact iff_of_true ⟨_, rfl⟩ few
  · rename_i many
    exact iff_of_false nofun many

/-! ## Loops over subscribers -/

section Loops

variable {b : Broker T} {pkt : MqttPublish} {subs : List Subscriber}

/-- The rounds return if each packet can be prepared. -/
theorem sendRounds_returns_iff {prepare : Preparing} {results : List Int} :
    (∃ b', sendRounds prepare subs results b = .ok b') ↔
      ∀ sub ∈ subs, ∃ prepared, prepare b.clientHeap sub = .ok prepared := by
  induction subs generalizing results b with
  | nil => exact iff_of_true ⟨b, rfl⟩ (List.forall_mem_nil _)
  | cons sub subs ih =>
      let sent (sc : SolClient) (packed : Packed) (len : Nat) : Broker T := { b with
        info := { b.info with
          bytesSent := b.info.bytesSent + results.headD len
          messagesSent := b.info.messagesSent + 1 }
        sent := b.sent ++ [⟨sc.fd, packed, len, results.headD len⟩] }
      rw [List.forall_mem_cons]
      constructor
      · rintro ⟨b', run⟩
        obtain ⟨⟨sc, packed, len⟩, found, rest⟩ := bind_eq_ok.mp run
        have others := ih.mp ⟨b', rest⟩
        exact ⟨⟨_, found⟩, others⟩
      · rintro ⟨⟨⟨sc, packed, len⟩, found⟩, others⟩
        have later : ∃ b', sendRounds prepare subs results.tail (sent sc packed len) = .ok b' :=
          ih.mpr others
        obtain ⟨b', run⟩ := later
        exact ⟨b', bind_eq_ok.mpr ⟨_, found, run⟩⟩

/-- With all clients there, either loop returns exactly if the packet fits its block. -/
theorem prepared_iff {prepare : Preparing}
    (live : ∀ sub ∈ subs, ∃ client, b.clientHeap.get? sub.client = some client)
    (each : prepare = packAndFind pkt ∨ prepare = findAndPack pkt) :
    (∀ sub ∈ subs, ∃ prepared, prepare b.clientHeap sub = .ok prepared) ↔
      (subs ≠ [] → pkt.Fits) := by
  have one : ∀ sub ∈ subs, (∃ prepared, prepare b.clientHeap sub = .ok prepared) ↔ pkt.Fits := by
    intro sub member
    obtain ⟨client, held⟩ := live sub member
    have found : deref b.clientHeap sub.client = .ok client := deref_eq_ok.mpr held
    have fits : (∃ packed, packMqttPacket (.publish (pkt.to sub)) .publish = .ok packed) ↔
        pkt.Fits := by
      show (∃ packed, packMqttPublish (pkt.to sub) = .ok packed) ↔ (pkt.to sub).Fits
      exact packMqttPublish_returns_iff
    rw [← fits]
    constructor
    · rintro ⟨prepared, run⟩
      obtain rfl | rfl := each
      · obtain ⟨packed, packs, _⟩ := bind_eq_ok.mp run
        exact ⟨packed, packs⟩
      · obtain ⟨_, _, rest⟩ := bind_eq_ok.mp run
        obtain ⟨packed, packs, _⟩ := bind_eq_ok.mp rest
        exact ⟨packed, packs⟩
    · rintro ⟨packed, packs⟩
      obtain rfl | rfl := each
      · exact ⟨_, bind_eq_ok.mpr ⟨packed, packs, bind_eq_ok.mpr ⟨client, found, rfl⟩⟩⟩
      · exact ⟨_, bind_eq_ok.mpr ⟨client, found, bind_eq_ok.mpr ⟨packed, packs, rfl⟩⟩⟩
  constructor
  · intro all some_
    obtain ⟨sub, member⟩ := List.exists_mem_of_ne_nil _ some_
    exact (one sub member).mp (all sub member)
  · intro fits sub member
    exact (one sub member).mpr (fits (List.ne_nil_of_mem member))

theorem publishStat_returns_iff {message : (CString × CString) × List Int}
    (live : ∀ sub ∈ b.view.subscribers message.1.1,
      ∃ client, b.clientHeap.get? sub.client = some client) :
    (∃ b', publishStat b message = .ok b') ↔
      (b.view.subscribers message.1.1 ≠ [] → (statPacket message.1).Fits) := by
  obtain ⟨⟨topic, text⟩, results⟩ := message
  show (∃ b', publishMessage b 0 _ topic _ _ results = .ok b') ↔ _
  have topics : b.view.topics = b.topics := rfl
  rw [View.subscribers, topics] at live ⊢
  rw [publishMessage, solTopicGet]
  dsimp only at live ⊢
  cases found : trieFind b.topics topic with
  | none => exact iff_of_true ⟨b, rfl⟩ fun some_ => absurd rfl some_
  | some t =>
      rw [found] at live
      dsimp only
      rw [publishMessageLoop_eq_rounds, sendRounds_returns_iff]
      exact prepared_iff live (.inr rfl)

/-- A tick returns exactly if each of its messages that is sent fits its block. -/
theorem publishStats_returns_iff
    (live : ∀ name, ∀ sub ∈ b.view.subscribers name,
      ∃ client, b.clientHeap.get? sub.client = some client)
    (uptime : Int) (solUptime : CString) (results : List (List Int)) :
    (∃ b', publishStats b uptime solUptime results = .ok b') ↔
      ∀ message ∈ statsMessages b.info uptime solUptime,
        b.view.subscribers message.1 ≠ [] → (statPacket message).Fits := by
  have messages : statsMessages b.info uptime solUptime =
      ((statsMessages b.info uptime solUptime).zip
        (results ++ List.replicate 6 [])).map Prod.fst := by
    rw [List.map_fst_zip]
    rw [List.length_append, List.length_replicate]
    exact Nat.le_add_left 6 _
  rw [publishStats, messages, List.forall_mem_map]
  rw [← messages]
  generalize (statsMessages b.info uptime solUptime).zip _ = pairs
  clear messages
  have rounds : ∀ (pairs : List ((CString × CString) × List Int)) (b : Broker T),
      (∀ name, ∀ sub ∈ b.view.subscribers name,
        ∃ client, b.clientHeap.get? sub.client = some client) →
      ((∃ b', pairs.foldlM publishStat b = .ok b') ↔ ∀ pair ∈ pairs,
        b.view.subscribers pair.1.1 ≠ [] → (statPacket pair.1).Fits) := by
    intro pairs
    induction pairs with
    | nil => exact fun b _ => iff_of_true ⟨b, rfl⟩ (List.forall_mem_nil _)
    | cons pair pairs ih =>
        intro b live
        rw [List.forall_mem_cons, ← publishStat_returns_iff (live _)]
        constructor
        · rintro ⟨b', run⟩
          obtain ⟨mid, first, rest⟩ := bind_eq_ok.mp run
          refine ⟨⟨mid, first⟩, ?_⟩
          obtain ⟨info, sent, rfl⟩ := publishStat_keeps first
          exact (ih { b with info, sent } live).mp ⟨b', rest⟩
        · rintro ⟨⟨mid, first⟩, others⟩
          obtain ⟨info, sent, rfl⟩ := publishStat_keeps first
          obtain ⟨b', rest⟩ := (ih { b with info, sent } live).mpr others
          exact ⟨b', bind_eq_ok.mpr ⟨_, first, rest⟩⟩
  exact rounds pairs b live

end Loops

/-! ## Closures that write -/

/-- Every closure that is to be written has a client. -/
def AllOwned (b : Broker T) : Prop :=
  ∀ cb closure, b.closureHeap.get? cb = some closure → closure.call = .onWrite → closure.obj ≠ none

section Owners

variable [KeyTable T] {b b' : Broker T} {cb : ClosureRef} {closure closure' : Closure} {fuel : Nat}
  {results : List Int}

omit [KeyTable T] in
theorem owned_reply (live : b.closureHeap.get? cb = some closure) (owned : closure'.obj ≠ none)
    (packed : Packed) : ∃ closure₂, (reply b cb closure' packed).2.closureHeap.get? cb =
      some closure₂ ∧ closure₂.obj ≠ none :=
  ⟨_, get?_setClosure live _, owned⟩

/-- A handler that leaves a reply leaves it with a closure that has a client. -/
theorem handle_owned {request : Request} (live : b.closureHeap.get? cb = some closure)
    (run : handle fuel b cb results request = .ok (rearmW, b')) :
    ∃ closure', b'.closureHeap.get? cb = some closure' ∧ closure'.obj ≠ none := by
  have followed (unsubscribes : ∃ pkt, request = .unsubscribe pkt) : closure.obj ≠ none := by
    obtain ⟨pkt, rfl⟩ := unsubscribes
    obtain ⟨_, live', rest⟩ := bind_eq_ok.mp run
    cases live.symm.trans (deref_eq_ok.mp live')
    obtain ⟨owner, held, _⟩ := bind_eq_ok.mp rest
    rw [(derefObj_eq_ok.mp held).1]
    exact Option.some_ne_none _
  generalize asked : rearmW = rc at run
  cases handle_eq_ok live run with
  | refused | disconnected => cases asked
  | connected => exact owned_reply live (Option.some_ne_none _) _
  | @subscribed pkt _ _ st packed isObj _ _ rounds =>
      obtain ⟨_, _, same⟩ := subscribeTuples_keep rounds
      have live₁ : st.broker.closureHeap.get? cb = some closure := by
        rw [same]
        exact live
      exact owned_reply live₁ (isObj ▸ Option.some_ne_none _) packed
  | @unsubscribed pkt => exact owned_reply live (followed ⟨pkt, rfl⟩) _
  | @published pkt _ _ topic b₁ _ _ isObj _ _ loop replies =>
      obtain ⟨info, sent, rfl⟩ := publishLoop_keeps loop
      obtain ⟨_, _, _, same⟩ := b.published_keeps topic
      have live₁ : (b.published topic).2.closureHeap.get? cb = some closure := by
        rw [same]
        exact live
      obtain ⟨rfl, _⟩ | ⟨byte, _, rfl, _⟩ := publishReply_eq_ok replies
      · cases asked
      · exact owned_reply live₁ (isObj ▸ Option.some_ne_none _) _

/-- An event leaves a closure to be written only with a client. -/
theorem allOwned_step {event : Event} (all : AllOwned b) (step : DispatchStep b event b') :
    AllOwned b' := by
  obtain ⟨fuel, run⟩ := step
  intro cb closure' live' writes
  obtain ⟨_, _, reads⟩ | ⟨closure, input, results, rfl, live, passed⟩ | old :=
    dispatch_passed run live'
  · rw [reads] at writes
    cases writes
  · cases passed with
    | wrote => cases writes
    | disarmed reads =>
        rw [show closure.call = .onWrite from writes] at reads
        cases reads
    | @replied request reads obj payload handled own =>
        subst handled
        cases dispatch_eq_ok run with
        | wrote live₁ writes =>
            cases live.symm.trans live₁
            cases reads.symm.trans writes
        | @handled _ _ _ _ rc b₂ _ live₁ _ live₂ returned rearmed =>
            cases live.symm.trans live₁
            obtain ⟨answer, _⟩ := handle_answer live₂ returned
            have untouched (old : (readyToHandle b cb closure).closureHeap.get? cb =
                some { closure with obj, payload := some payload, call := .onWrite,
                                    armed := some .output }) : False := by
              have call := congrArg (Option.map Closure.call) (live₂.symm.trans old)
              rw [Option.map_some, Option.map_some, reads] at call
              cases call
            cases answer with
            | reply =>
                obtain ⟨closure₂, found, owned⟩ := handle_owned live₂ returned
                obtain ⟨_, found', done⟩ := bind_eq_ok.mp rearmed
                cases found.symm.trans (deref_eq_ok.mp found')
                cases done
                rw [get?_setClosure found] at live'
                exact fun none_ => owned
                  ((congrArg Closure.obj (Option.some.inj live')).trans none_)
            | leave heap view dropped =>
                cases rearmed
                have old := dropConnection_others dropped live'
                rw [heap] at old
                exact (untouched old).elim
            | nothing heap =>
                cases rearmed
                rw [heap] at live'
                exact (untouched live').elim
  · exact all cb closure' old writes

end Owners

/-! ## Callbacks over exact maps -/

section Callbacks

variable {a a' : Broker KeyMap} {cb : ClosureRef} {closure : Closure} {fuel : Nat}
  {results : List Int}

theorem keyMap_del_of_none {V : Type} {m : KeyMap V} {key : CString} (found : m.lookup key = none) :
    KeyTable.del m key = (-hashtableErr, m, none) := by
  simp only [KeyTable.del, found]

theorem keyMap_del_of_some {V : Type} {m : KeyMap V} {key : CString} {v : V}
    (found : m.lookup key = some v) :
    KeyTable.del m key = (hashtableOk, m.erase key, some (key, v)) := by
  simp only [KeyTable.del, found]

theorem delClient_returns (tied : Tied a.view) (key : CString) :
    ∃ a', delClient a key = .ok a' := by
  rw [delClient]
  cases found : a.clients.lookup key with
  | none =>
      rw [keyMap_del_of_none found]
      exact ⟨_, rfl⟩
  | some c =>
      rw [keyMap_del_of_some found]
      obtain ⟨client, held, _⟩ := Option.map_eq_some_iff.mp ((tied.clients key c).mp found)
      exact ⟨_, bind_eq_ok.mpr ⟨client, deref_eq_ok.mpr held, rfl⟩⟩

theorem delClosure_returns (tied : Tied a.view) (key : CString) :
    ∃ a', delClosure a key = .ok a' := by
  rw [delClosure]
  cases found : a.closures.lookup key with
  | none =>
      rw [keyMap_del_of_none found]
      exact ⟨_, rfl⟩
  | some cb =>
      rw [keyMap_del_of_some found]
      obtain ⟨link, linked, _⟩ := tied.closure_of_registered found
      obtain ⟨closure, live, _⟩ := links_eq_some.mp linked
      exact ⟨_, bind_eq_ok.mpr ⟨closure, deref_eq_ok.mpr live, rfl⟩⟩

/-- A connection can be dropped under any keys. -/
theorem dropConnection_returns (tied : Tied a.view) (clientId closureId : CString) :
    ∃ a', dropConnection a clientId closureId = .ok a' := by
  obtain ⟨a₁, first⟩ := delClient_returns tied clientId
  have closures : a₁.closures = a.closures ∧ a₁.closureHeap = a.closureHeap := by
    rw [delClient] at first
    split at first
    · cases first
      exact ⟨rfl, rfl⟩
    · obtain ⟨_, _, done⟩ := bind_eq_ok.mp first
      cases done
      exact ⟨rfl, rfl⟩
  obtain ⟨a₂, second⟩ := delClosure_returns tied closureId
  have second' : ∃ a₂, delClosure a₁ closureId = .ok a₂ := by
    rw [delClosure] at second ⊢
    rw [closures.1, closures.2]
    generalize KeyTable.del a.closures closureId = deleted at second
    obtain ⟨_, closures', _ | ⟨_, cb⟩⟩ := deleted
    · exact ⟨_, rfl⟩
    · obtain ⟨closure, live, _⟩ := bind_eq_ok.mp second
      exact ⟨_, bind_eq_ok.mpr ⟨closure, live, rfl⟩⟩
  obtain ⟨a₂, second⟩ := second'
  exact ⟨_, bind_eq_ok.mpr ⟨a₁, first, bind_eq_ok.mpr ⟨a₂, second, rfl⟩⟩⟩

/-- The client of a closure exists if it has one. -/
theorem Whole.derefObj_iff (whole : Whole a.view) (live : a.closureHeap.get? cb = some closure) :
    (∃ r, derefObj a.clientHeap closure.obj = .ok r) ↔ closure.obj ≠ none := by
  constructor
  · rintro ⟨r, owner⟩
    rw [(derefObj_eq_ok.mp owner).1]
    exact Option.some_ne_none _
  · intro some_
    obtain ⟨c, obj⟩ := Option.ne_none_iff_exists'.mp some_
    obtain ⟨client, held⟩ := whole.owners cb closure.link c (view_links live) obj
    exact ⟨(c, client), derefObj_eq_ok.mpr ⟨obj, held⟩⟩

theorem connectHandler_returns_iff (tied : Tied a.view)
    (live : a.closureHeap.get? cb = some closure) (pkt : MqttConnect) :
    (∃ r, connectHandler fuel a cb pkt = .ok r) ↔ pkt.payload.clientId ≠ none := by
  rw [connectHandler, deref_eq_ok.mpr live]
  cases given : pkt.payload.clientId with
  | none =>
      refine iff_of_false ?_ (fun some_ => some_ rfl)
      rintro ⟨r, run⟩
      obtain ⟨_, _, run⟩ := bind_eq_ok.mp run
      cases run
  | some block =>
      refine iff_of_true ?_ (Option.some_ne_none _)
      cases known : KeyTable.contains a.clients (cstr block) with
      | true =>
          obtain ⟨a', dropped⟩ :=
            dropConnection_returns (a := closeFd a closure.fd) tied (cstr block) closure.closureId
          refine ⟨(-rearmW, a'), bind_eq_ok.mpr ⟨closure, rfl, ?_⟩⟩
          dsimp only
          rw [known]
          exact bind_eq_ok.mpr ⟨a', dropped, rfl⟩
      | false =>
          have packs : packMqttPacket (.connack (mqttPacketConnack connackByte 0 0)) .connack =
              .ok ⟨4, [0x20, 2, 0, 0]⟩ := by decide
          apply Exists.intro
          apply bind_eq_ok.mpr
          refine ⟨closure, rfl, ?_⟩
          dsimp only
          rw [known]
          exact bind_eq_ok.mpr ⟨_, rfl, bind_eq_ok.mpr ⟨_, packs, rfl⟩⟩

theorem codes_counted {pkt : MqttSubscribe} {obj : ClientRef} {st : SubscribeState KeyMap}
    (enough : pkt.tuplesLen.toNat ≤ pkt.tuples.length)
    (rounds : (pkt.tuples.take pkt.tuplesLen.toNat).foldlM (subscribeTuple obj) { broker := a } =
      .ok st) : st.rcs.length = pkt.tuplesLen.toNat := by
  rw [subscribeTuples_codes rounds, List.nil_append, List.length_map, List.length_take,
    Nat.min_eq_left enough]

theorem subscribeHandler_returns_iff (whole : Whole a.view)
    (live : a.closureHeap.get? cb = some closure) (pkt : MqttSubscribe) :
    (∃ r, subscribeHandler a cb pkt = .ok r) ↔ closure.obj ≠ none ∧ pkt.Grantable := by
  rw [← whole.derefObj_iff live]
  constructor
  · rintro ⟨r, run⟩
    have named (tuple : SubscribeTuple) (member : tuple ∈ pkt.tuples.take pkt.tuplesLen.toNat) :
        tupleName tuple ≠ none :=
      subscribeHandler_nameless run member
    obtain ⟨_, live', rest⟩ := bind_eq_ok.mp run
    cases live.symm.trans (deref_eq_ok.mp live')
    obtain ⟨owner, held, rest⟩ := bind_eq_ok.mp rest
    refine ⟨⟨owner, held⟩, ?_⟩
    dsimp only at rest
    split at rest
    · cases rest
    · rename_i enough
      obtain ⟨st, rounds, rest⟩ := bind_eq_ok.mp rest
      obtain ⟨st', rounds', strings⟩ := subscribeTuples_run a owner.1 named
      cases rounds.symm.trans rounds'
      split at rest
      · cases rest
      · rename_i kept
        obtain ⟨packed, packs, _⟩ := bind_eq_ok.mp rest
        have counted := codes_counted (not_lt.mp enough) rounds
        exact ⟨not_lt.mp enough, (suback_packs_iff counted).mp ⟨packed, packs⟩, named,
          strings.freed.mp (Bool.eq_false_iff.mpr kept)⟩
  · rintro ⟨⟨⟨obj, c⟩, held⟩, grantable⟩
    obtain ⟨st, rounds, strings⟩ := subscribeTuples_run a obj grantable.named
    have counted := codes_counted grantable.whole rounds
    obtain ⟨packed, packs⟩ : ∃ packed, packMqttPacket
        (.suback (mqttPacketSuback subackByte pkt.pktId st.rcs pkt.tuplesLen)) .suback =
          .ok packed :=
      (suback_packs_iff counted).mpr grantable.few
    have kept : st.ownFreed = false := strings.freed.mpr grantable.strings
    rw [subscribeHandler, deref_eq_ok.mpr live]
    refine ⟨reply st.broker cb closure packed,
      bind_eq_ok.mpr ⟨closure, rfl, bind_eq_ok.mpr ⟨(obj, c), held, ?_⟩⟩⟩
    dsimp only
    rw [if_neg (not_lt.mpr grantable.whole)]
    refine bind_eq_ok.mpr ⟨st, rounds, ?_⟩
    rw [if_neg (Bool.eq_false_iff.mp kept)]
    exact bind_eq_ok.mpr ⟨packed, packs, rfl⟩

theorem publishHandler_returns_iff (whole : Whole a.view)
    (live : a.closureHeap.get? cb = some closure) (pkt : MqttPublish) :
    (∃ r, publishHandler a cb pkt results = .ok r) ↔ closure.obj ≠ none ∧
      ∃ name, publishTopic pkt = .ok name ∧ (a.view.subscribers name ≠ [] → pkt.Fits) := by
  have loops (name : CString) :
      (∃ a₁, publishLoop pkt ((a.published name).2.topicHeap[(a.published name).1]?.elim []
        fun topic => topic.subscribers.nodes) results (a.published name).2 = .ok a₁) ↔
        (a.view.subscribers name ≠ [] → pkt.Fits) := by
    rw [a.subscribers_published]
    obtain ⟨_, _, _, same⟩ := a.published_keeps name
    have clients : (a.published name).2.clientHeap = a.clientHeap := by rw [same]
    rw [publishLoop_eq_rounds, sendRounds_returns_iff]
    refine prepared_iff (fun sub member => ?_) (.inl rfl)
    rw [clients]
    exact whole.subscribers name sub (View.holds_iff_mem.mpr member)
  rw [← whole.derefObj_iff live]
  constructor
  · rintro ⟨⟨rc, a'⟩, run⟩
    obtain ⟨_, c, client, name, a₁, live', isObj, held, named, loop, _⟩ := publishHandler_eq_ok run
    cases live.symm.trans live'
    exact ⟨⟨(c, client), derefObj_eq_ok.mpr ⟨isObj, held⟩⟩, name, named,
      (loops name).mp ⟨a₁, loop⟩⟩
  · rintro ⟨⟨owner, held⟩, name, named, packs⟩
    obtain ⟨a₁, loop⟩ := (loops name).mpr packs
    obtain ⟨rc, a', replies⟩ := publishReply_returns a₁ cb closure pkt
    refine ⟨(rc, a'), bind_eq_ok.mpr ⟨closure, deref_eq_ok.mpr live, ?_⟩⟩
    exact bind_eq_ok.mpr ⟨owner, held, bind_eq_ok.mpr ⟨name, named,
      bind_eq_ok.mpr ⟨a₁, loop, replies⟩⟩⟩

/-- A packet is handled exactly if it can be. -/
theorem handle_returns_iff (tied : Tied a.view) (whole : Whole a.view)
    (live : a.closureHeap.get? cb = some closure) (request : Request) :
    (∃ r, handle fuel a cb results request = .ok r) ↔ request.Decent a closure := by
  cases request with
  | connect pkt => exact connectHandler_returns_iff tied live pkt
  | subscribe pkt => exact subscribeHandler_returns_iff whole live pkt
  | publish pkt => exact publishHandler_returns_iff whole live pkt
  | disconnect =>
      refine Iff.trans ?_ (whole.derefObj_iff live)
      constructor
      · rintro ⟨r, run⟩
        obtain ⟨_, live', rest⟩ := bind_eq_ok.mp run
        cases live.symm.trans (deref_eq_ok.mp live')
        obtain ⟨owner, held, _⟩ := bind_eq_ok.mp rest
        exact ⟨owner, held⟩
      · rintro ⟨⟨c, client⟩, held⟩
        obtain ⟨a', dropped⟩ := dropConnection_returns (a := closeFd a client.fd) tied
          client.clientId closure.closureId
        exact ⟨_, bind_eq_ok.mpr ⟨closure, deref_eq_ok.mpr live, bind_eq_ok.mpr ⟨(c, client), held,
          bind_eq_ok.mpr ⟨a', dropped, rfl⟩⟩⟩⟩
  | unsubscribe pkt =>
      refine Iff.trans ?_ (whole.derefObj_iff live)
      constructor
      · rintro ⟨r, run⟩
        obtain ⟨_, live', rest⟩ := bind_eq_ok.mp run
        cases live.symm.trans (deref_eq_ok.mp live')
        obtain ⟨owner, held, _⟩ := bind_eq_ok.mp rest
        exact ⟨owner, held⟩
      · rintro ⟨owner, held⟩
        exact ⟨_, bind_eq_ok.mpr ⟨closure, deref_eq_ok.mpr live, bind_eq_ok.mpr ⟨owner, held,
          bind_eq_ok.mpr ⟨_, packMqttAck_eq _, rfl⟩⟩⟩⟩

end Callbacks

/-! ## Events -/

section Events

variable {a a' : Broker KeyMap} {cb : ClosureRef} {closure : Closure} {fuel : Nat}
  {results : List Int}

/-- A handler that returns makes the event return. -/
theorem dispatch_of_handle {request : Request} (live : a.closureHeap.get? cb = some closure)
    (reads : closure.call = .onRead) :
    (∃ a', dispatch fuel a (.ready cb (.request request) results) = .ok a') ↔
      ∃ r, handle fuel (readyToHandle a cb closure) cb results request = .ok r := by
  have live₀ : (readyToHandle a cb closure).closureHeap.get? cb =
      some { closure with armed := none } :=
    get?_setClosure live _
  rw [dispatch_reading live reads]
  constructor
  · rintro ⟨a', run⟩
    obtain ⟨r, handled, _⟩ := bind_eq_ok.mp run
    exact ⟨r, handled⟩
  · rintro ⟨⟨rc, a₂⟩, handled⟩
    obtain ⟨answer, _⟩ := handle_answer live₀ handled
    cases answer with
    | @reply _ obj payload heap =>
        have live₂ := (congrArg (Heap.get? · cb) heap).trans
          (by rw [Heap.get?_write live₀, if_pos rfl])
        exact ⟨_, bind_eq_ok.mpr ⟨(rearmW, a₂), handled,
          bind_eq_ok.mpr ⟨_, deref_eq_ok.mpr live₂, rfl⟩⟩⟩
    | leave => exact ⟨_, bind_eq_ok.mpr ⟨(-rearmW, a₂), handled, rfl⟩⟩
    | nothing => exact ⟨_, bind_eq_ok.mpr ⟨(rearmR, a₂), handled, rfl⟩⟩

/-- Only the view and the client of the closure matter. -/
theorem Request.decent_congr {b b' : Broker T} {closure closure' : Closure}
    (same : b.view = b'.view) (obj : closure.obj = closure'.obj) (request : Request) :
    request.Decent b closure ↔ request.Decent b' closure' := by
  cases request <;> simp only [Request.Decent, same, obj]

/-- `on_write` has a payload to write and, if the send fails, a client to name. -/
theorem onWrite_returns (whole : Whole a.view) (live : a.closureHeap.get? cb = some closure)
    (held : closure.payload ≠ none) (owned : closure.obj ≠ none) :
    ∃ a', onWrite a cb results = .ok a' := by
  obtain ⟨payload, held⟩ := Option.ne_none_iff_exists'.mp held
  obtain ⟨owner, found⟩ := (whole.derefObj_iff live).mpr owned
  have logs (sent : Int) : logFailure a closure.obj sent = .ok () := by
    rw [logFailure, found]
    split <;> rfl
  rw [onWrite, deref_eq_ok.mpr live]
  dsimp only [bind, Except.bind]
  rw [held]
  exact ⟨_, bind_eq_ok.mpr ⟨(), logs _, rfl⟩⟩

/-- What the broker over exact maps handles. -/
theorem dispatch_returns_iff (tied : Tied a.view) (whole : Whole a.view) (paired : AllPaired a)
    (owned : AllOwned a) (event : Event) :
    (∃ a', dispatch fuel a event = .ok a') ↔ (ServerEvent.socket event).Decent a := by
  cases event with
  | accept fd uuid => exact iff_of_true ⟨_, bind_eq_ok.mpr ⟨_, rfl, rfl⟩⟩ trivial
  | ready cb input results =>
      show _ ↔ ∃ closure, a.closureHeap.get? cb = some closure ∧ _
      cases live : a.closureHeap.get? cb with
      | none =>
          refine iff_of_false ?_ (by simp)
          rintro ⟨a', run⟩
          obtain ⟨closure, live', _⟩ := bind_eq_ok.mp run
          rw [deref_eq_ok.mp live'] at live
          cases live
      | some closure =>
          have same : (setClosure a cb { closure with armed := none }).view = a.view :=
            view_setClosure_same live rfl
          have live₀ : (setClosure a cb { closure with armed := none }).closureHeap.get? cb =
              some { closure with armed := none } :=
            get?_setClosure live _
          simp only [Option.some.injEq, exists_eq_left']
          cases call : closure.call with
          | onWrite =>
              refine iff_of_true ?_ nofun
              rw [dispatch_writing live call]
              exact onWrite_returns (same ▸ whole) live₀ ((paired cb closure live).mpr call)
                (owned cb closure live call)
          | onRead =>
              rw [forall_prop_of_true rfl]
              cases input with
              | dropped =>
                  rw [dispatch_reading live call]
                  exact iff_of_true ⟨_, rfl⟩ trivial
              | packetErr =>
                  rw [dispatch_reading live call]
                  show _ ↔ closure.obj ≠ none
                  rw [← whole.derefObj_iff live]
                  constructor
                  · rintro ⟨a', run⟩
                    obtain ⟨_, live', rest⟩ := bind_eq_ok.mp run
                    cases live₀.symm.trans (deref_eq_ok.mp live')
                    obtain ⟨owner, held, _⟩ := bind_eq_ok.mp rest
                    exact ⟨owner, held⟩
                  · rintro ⟨⟨c, client⟩, held⟩
                    obtain ⟨a', dropped⟩ := dropConnection_returns
                      (a := closeFd (setClosure a cb { closure with armed := none }) closure.fd)
                      (same ▸ tied) client.clientId closure.closureId
                    exact ⟨a', bind_eq_ok.mpr ⟨_, deref_eq_ok.mpr live₀,
                      bind_eq_ok.mpr ⟨(c, client), held, dropped⟩⟩⟩
              | request request =>
                  have same₁ : (readyToHandle a cb closure).view = a.view := same
                  have live₁ : (readyToHandle a cb closure).closureHeap.get? cb =
                      some { closure with armed := none } := live₀
                  have handled : (∃ r, handle fuel (readyToHandle a cb closure) cb results request =
                      .ok r) ↔ request.Decent (readyToHandle a cb closure)
                        { closure with armed := none } :=
                    handle_returns_iff (same₁ ▸ tied) (same₁ ▸ whole) live₁ request
                  exact (dispatch_of_handle live call).trans
                    (handled.trans (Request.decent_congr same₁ rfl request))

theorem serve_returns_iff (fuel : Nat) (tied : Tied a.view) (whole : Whole a.view)
    (paired : AllPaired a) (owned : AllOwned a) (event : ServerEvent) :
    (∃ a', serve fuel a event = .ok a') ↔ event.Decent a := by
  cases event with
  | socket event => exact dispatch_returns_iff tied whole paired owned event
  | tick uptime solUptime results =>
      exact publishStats_returns_iff
        (fun name sub member => whole.subscribers name sub (View.holds_iff_mem.mpr member))
        uptime solUptime results

end Events

/-! ## Harmless events -/

section Harm

variable [KeyTable T]

/-- The event destroys the client: a client that leaves or sends a malformed header, or the
one registered under the id of a CONNECT. -/
def Destroys (b : Broker T) : Event → ClientRef → Prop
  | .accept .., _ => False
  | .ready cb input _, c => ∃ closure, b.closureHeap.get? cb = some closure ∧
      closure.call = .onRead ∧
      match input with
      | .packetErr | .request .disconnect => closure.obj = some c
      | .request (.connect pkt) => ∃ block, pkt.payload.clientId = some block ∧
          KeyTable.get b.clients (cstr block) = some c
      | _ => False

/-- The client that an event destroys is no subscriber, and no other closure has it. -/
def ServerEvent.Harmless (b : Broker T) : ServerEvent → Prop
  | .socket event => ∀ c, Destroys b event c →
      (∀ name sub, b.view.Holds name sub → sub.client ≠ c) ∧
      ∀ cb closure, b.closureHeap.get? cb = some closure → closure.obj = some c →
        ∃ input results, event = .ready cb input results
  | .tick .. => True

end Harm

section Harmless

variable {a a' : Broker KeyMap} {v : View KeyMap} {event : Event} {fuel : Nat}

theorem ServerEvent.Harmless.noTakeover (harmless : (ServerEvent.socket event).Harmless a) :
    NoTakeover a event := by
  match event with
  | .accept .. => trivial
  | .ready cb (.request (.connect pkt)) results =>
      intro closure block c live reads given found id cb' closure' _ live' obj
      have destroys : Destroys a (.ready cb (.request (.connect pkt)) results) c :=
        ⟨closure, live, reads, block, given, found⟩
      obtain ⟨_, _, same⟩ := (harmless c destroys).2 cb' closure' live' obj
      cases same
      rfl
  | .ready _ .packetErr _ | .ready _ .dropped _ | .ready _ (.request .disconnect) _
  | .ready _ (.request (.subscribe _)) _ | .ready _ (.request (.unsubscribe _)) _
  | .ready _ (.request (.publish _)) _ => trivial

/-- A client is there until an event destroys it. -/
theorem Effect.keeps_client (tied : Tied a.view) (effect : Effect fuel a event v) {c : ClientRef}
    {client : SolClient} (held : a.view.clientHeap.get? c = some client)
    (kept : ¬ Destroys a event c) : v.clientHeap.get? c = some client := by
  have dropped {cb : ClosureRef} {closure : Closure} {key : CString} {c' : ClientRef}
      (live : a.closureHeap.get? cb = some closure) (found : a.view.clients.lookup key = some c')
      (other : c ≠ c') :
      ((a.view.dropClient key).dropClosure closure.closureId).clientHeap.get? c = some client := by
    rw [show closure.closureId = closure.link.closureId from rfl,
      tied.drop_eq found (view_links live)]
    show (a.view.clientHeap.free c').get? c = some client
    rw [Heap.get?_free, if_neg other, held]
  cases effect with
  | accepted | quiet => exact held
  | @left cb closure input results c' client' live reads leaves obj held' =>
      refine dropped live (tied.client_registered held') ?_
      rintro rfl
      refine kept ⟨closure, live, reads, ?_⟩
      obtain rfl | rfl := leaves <;> exact obj
  | @refused cb closure pkt block results live reads given found =>
      obtain ⟨c', found⟩ := keyMap_lookup_of_contains found
      refine dropped live found ?_
      rintro rfl
      exact kept ⟨closure, live, reads, block, given, found⟩
  | connected => exact Heap.get?_alloc_of_live held
  | subscribed _ _ _ _ same rounds =>
      obtain ⟨topics, topicHeap, after⟩ := subscribeTuples_view same rounds
      rw [after]
      exact held
  | published =>
      obtain ⟨topics, topicHeap, after⟩ := a.view.createTopic_frame _
      rw [after]
      exact held

/-- A harmless event leaves everything whole. -/
theorem Whole.harmless (whole : Whole a.view) (tied : Tied a.view)
    (harmless : (ServerEvent.socket event).Harmless a) (effect : Effect fuel a event v) :
    Whole v := by
  have grown := effect.grows
  refine ⟨(grown whole.indexed).1, ?_, fun name sub holds => ?_⟩
  · exact (hasClient_effect_iff tied whole.owners effect).mpr harmless.noTakeover
  · obtain new | old := holds.of_grown whole.indexed grown
    · obtain ⟨cb, pkt, results, closure, rfl, live, reads, obj, _⟩ := new
      obtain ⟨client, held⟩ := whole.owners cb closure.link _ (view_links live) obj
      refine ⟨client, effect.keeps_client tied held ?_⟩
      rintro ⟨_, _, _, none_⟩
      exact none_
    · obtain ⟨client, held⟩ := whole.subscribers name sub old
      exact ⟨client, effect.keeps_client tied held
        fun destroys => (harmless _ destroys).1 name sub old rfl⟩

end Harmless

/-! ## Runs -/

/-- What holds while nothing harmful happens. -/
structure Sane (a : Broker KeyMap) : Prop where
  tied : Tied a.view
  whole : Whole a.view
  paired : AllPaired a
  owned : AllOwned a

theorem sane_startServer : Sane (startServer : Broker KeyMap) := by
  refine ⟨tied_startServer, whole_startServer, allPaired_startServer, fun cb closure live => ?_⟩
  obtain ⟨topics, topicHeap, same⟩ := startServer_eq (T := KeyMap)
  rw [same] at live
  cases live

theorem Sane.step {a a' : Broker KeyMap} {event : ServerEvent} (sane : Sane a)
    (harmless : event.Harmless a) (step : ServerStep a event a') : Sane a' := by
  have tied := tied_serverStep sane.tied step
  obtain ⟨e, rfl, fresh, fuel, run⟩ | ⟨_, _, _, info, sent, rfl, rfl⟩ := step.cases
  · exact ⟨tied, sane.whole.harmless sane.tied harmless (dispatch_effect run),
      allPaired_step sane.paired ⟨fuel, run⟩, allOwned_step sane.owned ⟨fuel, run⟩⟩
  · exact ⟨tied, sane.whole, sane.paired, sane.owned⟩

section Runs

variable {keys : Set CString} {b : Broker HashTable} {a : Broker KeyMap} {event : ServerEvent}

theorem Agrees.harmless (prefixFree : PrefixFree keys) (agrees : Agrees keys b a)
    (within : event.ConnectsWithin keys) (harmless : event.Harmless b) : event.Harmless a := by
  obtain ⟨m, n, rfl, clients, closures⟩ := agrees.exists_tables
  cases event with
  | tick => trivial
  | socket event =>
      intro c destroys
      refine harmless c ?_
      match event with
      | .accept .. => exact destroys
      | .ready cb (.request (.connect pkt)) results =>
          obtain ⟨closure, live, reads, block, given, found⟩ := destroys
          exact ⟨closure, live, reads, block, given,
            (clients.get prefixFree (within block given)).trans found⟩
      | .ready _ .packetErr _ | .ready _ .dropped _ | .ready _ (.request .disconnect) _
      | .ready _ (.request (.subscribe _)) _ | .ready _ (.request (.unsubscribe _)) _
      | .ready _ (.request (.publish _)) _ => exact destroys

theorem Agrees.decent_iff (agrees : Agrees keys b a) : event.Decent b ↔ event.Decent a := by
  obtain ⟨m, n, rfl, _, _⟩ := agrees.exists_tables
  match event with
  | .tick .. | .socket (.accept ..) => exact Iff.rfl
  | .socket (.ready _ .packetErr _) | .socket (.ready _ .dropped _) => exact Iff.rfl
  | .socket (.ready _ (.request request) _) => cases request <;> exact Iff.rfl

/-- In a run that destroys no client something still refers to, the broker handles exactly
the events that can be handled, unless a put does not return. -/
theorem handles_iff_decent (prefixFree : PrefixFree keys)
    {tr : List (Broker HashTable × ServerEvent)} (run : Run ServerStep startServer tr b)
    (within : ∀ visit ∈ tr, visit.2.ConnectsWithin keys)
    (harmless : ∀ visit ∈ tr, visit.2.Harmless visit.1) (fresh : event.Fresh b)
    (here : event.ConnectsWithin keys) :
    (∃ fuel b', serve fuel b event = .ok b') ↔ event.Decent b ∧ ¬ PutStuck b event := by
  obtain ⟨_, a, _, ⟨agrees, sane⟩, _⟩ := Run.matched (fun b a => Agrees keys b a ∧ Sane a)
    (fun b event => event.ConnectsWithin keys ∧ event.Harmless b)
    ⟨agrees_startServer keys, sane_startServer⟩
    (fun b a event b' both good step => by
      obtain ⟨a', step', agrees', _⟩ :=
        serverStep_simulated prefixFree both.1 both.2.tied good.1 step
      exact ⟨a', step', agrees',
        both.2.step (both.1.harmless prefixFree good.1 good.2) step'⟩)
    run (fun visit member => ⟨within visit member, harmless visit member⟩)
  have returns := serve_returns_iff 0 sane.tied sane.whole sane.paired sane.owned event
  have mirrors (fuel : Nat) := serve_mirrors prefixFree agrees sane.tied fresh here fuel 0
  rw [agrees.decent_iff, ← returns]
  constructor
  · rintro ⟨fuel, b', handled⟩
    obtain ⟨a', handled', _⟩ := (mirrors fuel).of_ok handled
    refine ⟨⟨a', handled'⟩, fun stuck => ?_⟩
    obtain ⟨e, failed, _⟩ := stuck fuel
    rw [handled] at failed
    cases failed
  · rintro ⟨⟨a', handled⟩, moves⟩
    by_contra none_
    refine moves fun fuel => ?_
    obtain ⟨b', handled', _⟩ | stuck := (mirrors fuel).to_ok handled
    · exact absurd ⟨fuel, b', handled'⟩ none_
    · exact stuck

theorem replay_acceptedFirst :
    (replay serverNext (startServer : Broker HashTable) [.socket (.accept 5 (uuidOf 0))]).bind
      (fun r => (r.2.closureHeap.get? 0).map fun closure => (closure.call, closure.obj)) =
        some (.onRead, none) := by
  decide +kernel

/-- A connection that was just accepted cannot send a DISCONNECT. -/
theorem acceptedFirst_not_handled : ∃ tr b, Run ServerStep (startServer : Broker HashTable) tr b ∧
    tr.map Prod.snd = [.socket (.accept 5 (uuidOf 0))] ∧
    ¬ ∃ fuel b', serve fuel b (.socket (.ready 0 (.request .disconnect) [])) = .ok b' := by
  obtain ⟨tr, b, run, labels, facts⟩ := Run.of_replay_bind serverNext_step replay_acceptedFirst
  obtain ⟨closure, live, facts⟩ := Option.map_eq_some_iff.mp facts
  obtain ⟨reads, none_⟩ := Prod.mk.inj facts
  have accepts : ∀ visit ∈ tr, visit.2 = .socket (.accept 5 (uuidOf 0)) := by
    intro visit member
    have label := List.mem_map_of_mem (f := Prod.snd) member
    rw [labels] at label
    exact List.mem_singleton.mp label
  have within : ∀ visit ∈ tr, visit.2.ConnectsWithin bothIds := by
    intro visit member
    rw [accepts visit member]
    trivial
  have harmless : ∀ visit ∈ tr, visit.2.Harmless visit.1 := by
    intro visit member
    rw [accepts visit member]
    exact fun _ destroys => destroys.elim
  let leaves : ServerEvent := .socket (.ready 0 (.request .disconnect) [])
  have fresh : leaves.Fresh b := trivial
  refine ⟨tr, b, run, labels, fun handled => ?_⟩
  obtain ⟨⟨closure', live', decent⟩, _⟩ :=
    (handles_iff_decent prefixFree_bothIds run within harmless fresh trivial).mp handled
  cases live.symm.trans live'
  exact decent reads none_

end Runs

end SolBroker
