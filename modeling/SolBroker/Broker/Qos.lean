import Mathlib
import SolBroker.Broker.Accounting
import SolBroker.Broker.Delivery
import SolBroker.Broker.Replies
import SolBroker.Broker.Server

/-!
# Where the QoS of what is sent comes from

Nothing looks at the QoS byte of a tuple. It is returned in the SUBACK, kept with the
subscriber, and its two low bits are put into the header of each PUBLISH that is sent to
the subscriber, over the QoS the message came with. So every packet that a run has sent
is traced back: a reply to the packet it answers, and a PUBLISH to the message and to the
SUBSCRIBE that granted its QoS.
-/

namespace SolBroker

open Transition

variable {T : Type → Type}

/-! ## Provenance -/

/-- `on_read` is given the packet, on a connection with this descriptor. -/
def Reads (b : Broker T) (event : ServerEvent) (fd : Int) (request : Request) : Prop :=
  ∃ cb results closure, event = .socket (.ready cb (.request request) results) ∧
    b.closureHeap.get? cb = some closure ∧ closure.call = .onRead ∧ closure.fd = fd

/-- The packet is published under the name: by a client, or by the broker itself. -/
inductive Publishing (b : Broker T) : ServerEvent → MqttPublish → CString → Prop
  | client {cb pkt results name} (named : publishTopic pkt = .ok name) :
      Publishing b (.socket (.ready cb (.request (.publish pkt)) results)) pkt name
  | own {uptime solUptime results} {message : CString × CString}
      (member : message ∈ statsMessages b.info uptime solUptime) :
      Publishing b (.tick uptime solUptime results) (publishAtMostOnce message.1 message.2)
        message.1

/-- A SUBSCRIBE has asked for the subscriber, with its QoS. -/
def Granted (tr : List (Broker T × ServerEvent)) (sub : Subscriber) : Prop :=
  ∃ visit ∈ tr, ∃ event, visit.2 = .socket event ∧ Grants visit.1 event sub

/-- The bytes are a reply to a packet from this descriptor. -/
def Replied (tr : List (Broker T × ServerEvent)) (fd : Int) (written : List UInt8) : Prop :=
  ∃ visit ∈ tr, ∃ request, Reads visit.1 visit.2 fd request ∧ IsReply written request

/-- The send is that of a message to a subscriber who was granted its QoS before. -/
def FannedOut (tr : List (Broker T × ServerEvent)) (send : Send) : Prop :=
  ∃ before b event pkt name sub, before ++ [(b, event)] <+: tr ∧ Publishing b event pkt name ∧
    sub ∈ b.view.subscribers name ∧ SendsTo b.clientHeap pkt sub send ∧ Granted before sub

section Traces

variable {tr : List (Broker T × ServerEvent)} {visit : Broker T × ServerEvent} {fd : Int}
  {written : List UInt8} {send : Send} {sub : Subscriber}

theorem Granted.snoc (granted : Granted tr sub) : Granted (tr ++ [visit]) sub := by
  obtain ⟨earlier, member, own⟩ := granted
  exact ⟨earlier, List.mem_append_left _ member, own⟩

theorem Replied.snoc (replied : Replied tr fd written) : Replied (tr ++ [visit]) fd written := by
  obtain ⟨earlier, member, own⟩ := replied
  exact ⟨earlier, List.mem_append_left _ member, own⟩

theorem FannedOut.snoc (fanned : FannedOut tr send) : FannedOut (tr ++ [visit]) send := by
  obtain ⟨before, b, event, pkt, name, sub, earlier, own⟩ := fanned
  exact ⟨before, b, event, pkt, name, sub, earlier.trans (List.prefix_append ..), own⟩

end Traces

/-- Everything a broker has got from its clients is traced back to where it came from. -/
structure Attributed (tr : List (Broker T × ServerEvent)) (b : Broker T) : Prop where
  indexed : b.view.Indexed
  granted : ∀ name sub, b.view.Holds name sub → Granted tr sub
  held : ∀ cb closure payload, b.closureHeap.get? cb = some closure →
    closure.payload = some payload → Replied tr closure.fd payload.written
  sent : ∀ send ∈ b.sent, Replied tr send.fd send.buf.written ∨ FannedOut tr send

section Steps

variable [KeyTable T] {tr : List (Broker T × ServerEvent)} {b b' : Broker T} {fuel : Nat}
  {event : Event}

/-- A SUBSCRIBE grants what it adds. -/
theorem Attributed.granted_dispatch (attributed : Attributed tr b)
    (run : dispatch fuel b event = .ok b') {name : CString} {sub : Subscriber}
    (holds : b'.view.Holds name sub) : Granted (tr ++ [(b, .socket event)]) sub := by
  obtain grants | old := holds.of_grown attributed.indexed (dispatch_effect run).grants
  · exact ⟨(b, .socket event), by simp, event, rfl, grants⟩
  · exact (attributed.granted name sub old).snoc

/-- A reply is left by the handler of the packet it answers. -/
theorem Attributed.held_dispatch (attributed : Attributed tr b)
    (run : dispatch fuel b event = .ok b') {cb : ClosureRef} {closure : Closure} {payload : Packed}
    (live : b'.closureHeap.get? cb = some closure) (held : closure.payload = some payload) :
    Replied (tr ++ [(b, .socket event)]) closure.fd payload.written := by
  obtain ⟨_, none, _⟩ | ⟨closure₀, input, results, rfl, live₀, passed⟩ | old :=
    dispatch_passed run live
  · cases none.symm.trans held
  · cases passed with
    | wrote => cases held
    | replied reads obj payload handled own =>
        cases held
        subst handled
        exact ⟨_, List.mem_concat_self .., _, ⟨cb, results, closure₀, rfl, live₀, reads, rfl⟩, own⟩
    | disarmed => exact (attributed.held cb closure₀ payload live₀ held).snoc
  · exact (attributed.held cb closure payload old held).snoc

/-- What is sent is a reply that was held, or what a PUBLISH sends. -/
theorem Attributed.sent_dispatch (attributed : Attributed tr b)
    (run : dispatch fuel b event = .ok b') {send : Send} (member : send ∈ b'.sent) :
    Replied (tr ++ [(b, .socket event)]) send.fd send.buf.written ∨
      FannedOut (tr ++ [(b, .socket event)]) send := by
  have old (earlier : send ∈ b.sent) :
      Replied (tr ++ [(b, .socket event)]) send.fd send.buf.written ∨
      FannedOut (tr ++ [(b, .socket event)]) send :=
    (attributed.sent send earlier).imp Replied.snoc FannedOut.snoc
  cases dispatch_tally run with
  | accepted _ adds | failed _ _ _ adds | malformed _ _ _ adds | left _ _ _ _ adds =>
      rw [adds.sent, List.append_nil] at member
      exact old member
  | @wrote cb closure payload _ _ _ live _ held _ adds =>
      rw [adds.sent] at member
      obtain earlier | now := List.mem_append.mp member
      · exact old earlier
      · rw [List.mem_singleton.mp now]
        exact .inl (attributed.held cb closure payload live held).snoc
  | @stayed cb closure request results sends _ _ _ _ _ adds _ own =>
      rw [adds.sent] at member
      obtain earlier | now := List.mem_append.mp member
      · exact old earlier
      · cases request with
        | publish pkt =>
            obtain ⟨name, named, each⟩ := own
            obtain ⟨sub, subscribed, sendsTo⟩ := each.flip.exists_of_mem now
            have granted := attributed.granted name sub (View.holds_iff_mem.mpr subscribed)
            exact .inr ⟨tr, b, _, pkt, name, sub, List.prefix_refl _, .client named, subscribed,
              sendsTo, granted⟩
        | connect | disconnect | subscribe | unsubscribe =>
            obtain rfl : sends = [] := own
            cases now

theorem Attributed.dispatch (attributed : Attributed tr b)
    (run : SolBroker.dispatch fuel b event = .ok b') :
    Attributed (tr ++ [(b, .socket event)]) b' where
  indexed := ((dispatch_effect run).grants attributed.indexed).1
  granted := fun _ _ holds => attributed.granted_dispatch run holds
  held := fun _ _ _ live held => attributed.held_dispatch run live held
  sent := fun _ member => attributed.sent_dispatch run member

omit [KeyTable T] in
/-- The periodic task only sends messages of the broker. -/
theorem Attributed.publishStats (attributed : Attributed tr b) {uptime : Int} {solUptime : CString}
    {results : List (List Int)} (run : SolBroker.publishStats b uptime solUptime results = .ok b') :
    Attributed (tr ++ [(b, .tick uptime solUptime results)]) b' := by
  obtain ⟨⟨info, sent, rfl⟩, sends, adds, _, each⟩ := publishStats_adds run
  refine ⟨attributed.indexed, fun name sub holds => (attributed.granted name sub holds).snoc,
    fun cb closure payload live held => (attributed.held cb closure payload live held).snoc,
    fun send member => ?_⟩
  rw [adds.sent] at member
  obtain earlier | now := List.mem_append.mp member
  · exact (attributed.sent send earlier).imp Replied.snoc FannedOut.snoc
  · obtain ⟨message, published, sub, subscribed, sendsTo⟩ := each send now
    have granted := attributed.granted _ sub (View.holds_iff_mem.mpr subscribed)
    exact .inr ⟨tr, b, _, _, message.1.1, sub, List.prefix_refl _,
      .own (List.of_mem_zip published).1, subscribed, sendsTo, granted⟩

theorem attributed_startServer : Attributed [] (startServer : Broker T) where
  indexed := indexed_startServer
  granted := fun name sub holds => absurd holds (holds_startServer name sub)
  held := fun cb closure payload live _ => by
    obtain ⟨topics, topicHeap, same⟩ := startServer_eq (T := T)
    rw [same] at live
    cases live
  sent := fun send member => by
    obtain ⟨topics, topicHeap, same⟩ := startServer_eq (T := T)
    rw [same] at member
    cases member

theorem attributed_of_run (run : Run ServeStep startServer tr b) : Attributed tr b := by
  apply run.traced attributed_startServer
  intro tr b event b' attributed step
  obtain ⟨fuel, run⟩ := step
  cases event with
  | socket event => exact attributed.dispatch run
  | tick uptime solUptime results => exact attributed.publishStats run

end Steps

/-- A reply that begins like a SUBACK returns the QoS bytes of a SUBSCRIBE. -/
theorem IsReply.codes {written : List UInt8} {request : Request} (own : IsReply written request)
    (suback : written.head? = some subackByte) : ∃ pkt, request = .subscribe pkt ∧
      written = subackBytes pkt.pktId
        ((pkt.tuples.take pkt.tuplesLen.toNat).map SubscribeTuple.qos) := by
  cases request with
  | subscribe pkt => exact ⟨pkt, rfl, own⟩
  | disconnect => exact own.elim
  | connect | unsubscribe =>
      rw [IsReply] at own
      rw [own] at suback
      cases suback
  | publish pkt =>
      obtain ⟨_, same⟩ | ⟨_, same⟩ := own <;>
        · rw [same] at suback
          cases suback

/-- Every packet that a run has sent is the reply to a packet read before, a SUBACK
returning the QoS bytes of its SUBSCRIBE as they are, or a PUBLISH to a subscriber who was
granted a QoS by an earlier SUBSCRIBE, with the two low bits of that QoS in its header. -/
theorem sent_qos [KeyTable T] {tr : List (Broker T × ServerEvent)} {b : Broker T}
    (run : Run ServeStep startServer tr b) : ∀ send ∈ b.sent,
      (∃ visit ∈ tr, ∃ request, Reads visit.1 visit.2 send.fd request ∧
        IsReply send.buf.written request ∧
        (send.buf.written.head? = some subackByte → ∃ pkt, request = .subscribe pkt ∧
          send.buf.written = subackBytes pkt.pktId
            ((pkt.tuples.take pkt.tuplesLen.toNat).map SubscribeTuple.qos))) ∨
      ∃ before s event pkt name sub byte, before ++ [(s, event)] <+: tr ∧
        Publishing s event pkt name ∧ sub ∈ s.view.subscribers name ∧
        SendsTo s.clientHeap pkt sub send ∧ Granted before sub ∧
        send.buf.written.head? = some byte ∧ (⟨byte⟩ : MqttHeader).qos = sub.qos &&& 3 ∧
        (⟨byte⟩ : MqttHeader).qos ≤ sub.qos ∧
        (sub.qos ≤ exactlyOnce → (⟨byte⟩ : MqttHeader).qos = sub.qos) := by
  intro send member
  obtain replied | fanned := (attributed_of_run run).sent send member
  · obtain ⟨visit, visited, request, reads, own⟩ := replied
    exact .inl ⟨visit, visited, request, reads, own, own.codes⟩
  · obtain ⟨before, s, event, pkt, name, sub, earlier, published, subscribed, sendsTo, granted⟩ :=
      fanned
    obtain ⟨byte, head, header⟩ := sendsTo.header
    refine .inr ⟨before, s, event, pkt, name, sub, byte, earlier, published, subscribed, sendsTo,
      granted, head, header, ?_, fun level => header.trans (low_bits level)⟩
    rw [header]
    exact UInt8.and_le_left

/-! ## A QoS of 3 -/

/-- A client connects, subscribes to `t` with QoS 3, and publishes to it with QoS 0. -/
def subscribeUnchecked : List ServerEvent :=
  [.socket (.accept 5 (uuidOf 0)), .socket (.ready 0 (.request (.connect (connectAs 97))) []),
    .socket (.ready 0 .dropped []),
    .socket (.ready 0 (.request (.subscribe (subscribeTo 116 3))) []),
    .socket (.ready 0 .dropped []), .socket (.ready 0 (.request (.publish (publishTo 116 0))) [])]

/-- The SUBACK and the PUBLISH that it gets. -/
def uncheckedSends : List Send :=
  [⟨5, ⟨5, [0x90, 3, 0, 1, 3]⟩, 5, 5⟩, ⟨5, ⟨7, [0x36, 5, 0, 1, 116, 0, 1]⟩, 7, 7⟩]

theorem replay_subscribeUnchecked :
    ((replay serverNext (startServer : Broker HashTable) subscribeUnchecked).bind fun r => do
      let visit ← r.1[5]?
      let client ← visit.1.clientHeap.get? 0
      return (r.2.sent.drop 1, visit.2, visit.1.view.subscribers (literal "t/"), client.fd)) =
      some (uncheckedSends, .socket (.ready 0 (.request (.publish (publishTo 116 0))) []),
        [⟨3, 0⟩], 5) := by
  decide +kernel

/-- Every return code of a SUBACK that was sent is one the protocol has. -/
def CodesLegal (b : Broker T) : Prop :=
  ∀ send ∈ b.sent, ∀ pktId codes, send.buf.written = subackBytes pktId codes →
    ∀ code ∈ codes, code ∈ ([0, 1, 2, 0x80] : List UInt8)

/-- Every PUBLISH that was sent has at most the QoS of the message and that of the
subscriber. -/
def HeadersBounded (tr : List (Broker T × ServerEvent)) (b : Broker T) : Prop :=
  ∀ visit ∈ tr, ∀ pkt name, Publishing visit.1 visit.2 pkt name →
    ∀ sub ∈ visit.1.view.subscribers name, ∀ send ∈ b.sent,
      SendsTo visit.1.clientHeap pkt sub send →
      ∀ byte, send.buf.written.head? = some byte →
        (⟨byte⟩ : MqttHeader).qos ≤ min pkt.header.qos sub.qos

/-- The SUBACK returns 3, and a message published with QoS 0 is sent with QoS 3. -/
theorem subscribeUnchecked_exceeds :
    ∃ tr b, Run ServeStep (startServer : Broker HashTable) tr b ∧
      tr.map Prod.snd = subscribeUnchecked ∧ ¬ CodesLegal b ∧ ¬ HeadersBounded tr b := by
  obtain ⟨tr, b, run, labels, facts⟩ :=
    Run.of_replay_bind serverNext_serves replay_subscribeUnchecked
  obtain ⟨⟨s, event⟩, visited, facts⟩ := Option.bind_eq_some_iff.mp facts
  obtain ⟨client, held, facts⟩ := Option.bind_eq_some_iff.mp facts
  simp only [Option.pure_def, Option.some.injEq, Prod.mk.injEq] at facts
  obtain ⟨sends, rfl, subscribers, fd⟩ := facts
  have sent (send : Send) (member : send ∈ uncheckedSends) : send ∈ b.sent :=
    List.mem_of_mem_drop (sends ▸ member)
  refine ⟨tr, b, run, labels, fun legal => ?_, fun bounded => ?_⟩
  · have legal := legal _ (sent _ (List.mem_cons_self ..)) 1 [3] (by decide) 3 (by decide)
    exact absurd legal (by decide)
  · have named : publishTopic (publishTo 116 0) = .ok (literal "t/") := by decide
    have subscribed : (⟨3, 0⟩ : Subscriber) ∈ s.view.subscribers (literal "t/") := by
      rw [subscribers]
      exact List.mem_singleton_self _
    have bounded := bounded _ (List.mem_of_getElem? visited) _ _ (.client named) _ subscribed _
      (sent _ (List.mem_cons_of_mem _ (List.mem_cons_self ..)))
      ⟨client, held, fd.symm, by decide, by decide⟩ 0x36 rfl
    exact absurd bounded (by decide)

/-- What it was sent is what it asked for. -/
theorem subscribeUnchecked_traced :
    ∃ tr b, Run ServeStep (startServer : Broker HashTable) tr b ∧
      tr.map Prod.snd = subscribeUnchecked ∧ ∀ send ∈ b.sent,
        Replied tr send.fd send.buf.written ∨ FannedOut tr send := by
  obtain ⟨tr, b, run, labels, _⟩ :=
    Run.of_replay_bind serverNext_serves replay_subscribeUnchecked
  refine ⟨tr, b, run, labels, fun send member => ?_⟩
  obtain ⟨visit, visited, request, reads, own, _⟩ |
    ⟨before, s, event, pkt, name, sub, _, earlier, published, subscribed, sendsTo, granted, _⟩ :=
      sent_qos run send member
  · exact .inl ⟨visit, visited, request, reads, own⟩
  · exact .inr ⟨before, s, event, pkt, name, sub, earlier, published, subscribed, sendsTo, granted⟩

end SolBroker
