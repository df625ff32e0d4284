import Mathlib
import SolBroker.Lib.Simulation
import SolBroker.Broker.Attachment
import SolBroker.Broker.Closures
import SolBroker.Broker.Objects
import SolBroker.Broker.Server

/-!
# The broker over its hash tables and over exact maps

Statements about which client and which closure is registered are simplest for the
broker over exact finite maps. They hold of the broker over its hash tables too: as
long as no client id that is used is a case-insensitive prefix of another, the two
take the same steps, fail in the same ways and agree in everything but the tables,
which represent the maps. Only a put that does not return tells them apart.
-/

namespace SolBroker

open Transition Simulation

/-! ## Agreement -/

/-- The broker with other tables. -/
def Broker.withTables {T T' : Type → Type} (b : Broker T) (clients : T' ClientRef)
    (closures : T' ClosureRef) : Broker T' where
  clients := clients
  closures := closures
  topics := b.topics
  clientHeap := b.clientHeap
  closureHeap := b.closureHeap
  topicHeap := b.topicHeap
  info := b.info
  sent := b.sent
  closed := b.closed

/-- The tables of the first broker represent the maps of the second, and the rest is
the same. -/
structure Agrees (keys : Set CString) (b : Broker HashTable) (a : Broker KeyMap) : Prop where
  same : a = b.withTables a.clients a.closures
  clients : Represented keys b.clients a.clients
  closures : Represented uuids b.closures a.closures

theorem Agrees.exists_tables {keys : Set CString} {b : Broker HashTable} {a : Broker KeyMap}
    (agrees : Agrees keys b a) : ∃ clients closures, a = b.withTables clients closures ∧
      Represented keys b.clients clients ∧ Represented uuids b.closures closures :=
  ⟨a.clients, a.closures, agrees.same, agrees.clients, agrees.closures⟩

/-- What a put of the hash table can fail with. -/
def PutFails (e : Fault) : Prop := e = .noReturn ∨ e = .intOverflow

/-- The keys that the heaps hold are those the tables are used with. -/
structure Named (keys : Set CString) (v : View HashTable) : Prop where
  clients : ∀ c client, v.clientHeap.get? c = some client → client.clientId ∈ keys
  closures : ∀ cb link, v.links cb = some link → link.closureId ∈ uuids

/-- A CONNECT gives one of the ids. -/
def ServerEvent.ConnectsWithin (keys : Set CString) : ServerEvent → Prop
  | .socket (.ready _ (.request (.connect pkt)) _) =>
      ∀ block, pkt.payload.clientId = some block → cstr block ∈ keys
  | _ => True

/-! ## The calls on the tables -/

section Tables

variable {V : Type} {keys : Set CString} {table : HashTable V} {m : KeyMap V} {key : CString}

theorem Represented.contains (rep : Represented keys table m) (prefixFree : PrefixFree keys)
    (member : key ∈ keys) : KeyTable.contains table key = KeyTable.contains m key :=
  congrArg Option.isSome (rep.get prefixFree member)

/-- Deleting finds the same entry. -/
theorem Represented.deletes (rep : Represented keys table m) (prefixFree : PrefixFree keys)
    (member : key ∈ keys) :
    (KeyTable.del table key).2.2 = (KeyTable.del m key).2.2 ∧
      Represented keys (KeyTable.del table key).2.1 (KeyTable.del m key).2.1 := by
  have after := rep.del prefixFree member
  simp only [KeyTable.del]
  rcases hashtableLocate_single rep.known.sound (rep.single key member)
      (rep.known.unclashed prefixFree member) with
    ⟨located, none_⟩ | ⟨i, val, located, held, some_⟩
  · rw [hashtableDel, located, none_]
    exact ⟨rfl, rep⟩
  · rw [hashtableDel, located] at after ⊢
    rw [some_]
    exact ⟨held, after⟩

/-- A put of a key that is not there returns alike, or not at all. -/
theorem Represented.puts (rep : Represented keys table m) (prefixFree : PrefixFree keys)
    (member : key ∈ keys) (absent : KeyTable.contains m key = false) (fuel fuel' : Nat) (val : V) :
    Mirrors PutFails (fun p q => p.1 = q.1 ∧ Represented keys p.2 q.2)
      (KeyTable.put fuel table key val) (KeyTable.put fuel' m key val) := by
  cases put : KeyTable.put fuel table key val with
  | error e =>
      refine .excuse _ ?_
      obtain failed | ⟨_, _, done⟩ := bind_eq_error.mp put
      · exact hashtablePut_error failed
      · cases done
  | ok p =>
      obtain ⟨status, table'⟩ := p
      have returns := putReturns_of_keyTable put
      obtain ⟨⟨_, _, _⟩, run, done⟩ := bind_eq_ok.mp put
      cases done
      obtain ⟨rfl, _, _⟩ := hashtablePut_rule (R := fun _ _ _ => True) (fun _ _ => trivial)
        (fun _ _ _ => trivial) run
      have free : hashtableExists table key = false := (rep.contains prefixFree member).trans absent
      exact .returns ⟨rfl, rep.put prefixFree member free returns⟩

end Tables

/-! ## The handlers -/

section Handlers

variable {keys : Set CString} {b : Broker HashTable} {a : Broker KeyMap} {cb : ClosureRef}
  {closure : Closure} {fuel fuel' : Nat} {results : List Int}

/-- Both return the same code. -/
abbrev AgreesOn (keys : Set CString) (p : Int × Broker HashTable) (q : Int × Broker KeyMap) :
    Prop :=
  p.1 = q.1 ∧ Agrees keys p.2 q.2

theorem Agrees.setClosure (agrees : Agrees keys b a) (cb : ClosureRef) (closure : Closure) :
    Agrees keys (setClosure b cb closure) (setClosure a cb closure) := by
  obtain ⟨same, clients, closures⟩ := agrees
  rw [same]
  exact ⟨rfl, clients, closures⟩

theorem Agrees.closeFd (agrees : Agrees keys b a) (fd : Int) :
    Agrees keys (closeFd b fd) (closeFd a fd) := by
  obtain ⟨same, clients, closures⟩ := agrees
  rw [same]
  exact ⟨rfl, clients, closures⟩

/-- Counters and sends are equal wherever they are assigned alike. -/
theorem Agrees.counted (agrees : Agrees keys b a) (info : SolInfo) (sent : List Send) :
    Agrees keys { b with info, sent } { a with info, sent } := by
  obtain ⟨same, clients, closures⟩ := agrees
  rw [same]
  exact ⟨rfl, clients, closures⟩

theorem Agrees.informed (agrees : Agrees keys b a) (info : SolInfo) :
    Agrees keys { b with info } { a with info } := by
  obtain ⟨same, clients, closures⟩ := agrees
  rw [same]
  exact ⟨rfl, clients, closures⟩

theorem delClient_mirrors (prefixFree : PrefixFree keys) (agrees : Agrees keys b a)
    {key : CString} (member : key ∈ keys) :
    Mirrors PutFails (Agrees keys) (delClient b key) (delClient a key) := by
  obtain ⟨same, clients, closures⟩ := agrees
  obtain ⟨entry, after⟩ := clients.deletes prefixFree member
  rw [delClient, delClient]
  generalize KeyTable.del b.clients key = deleted at entry after
  generalize KeyTable.del a.clients key = deleted' at entry after
  obtain ⟨_, table, found⟩ := deleted
  obtain ⟨_, m, found'⟩ := deleted'
  obtain rfl : found = found' := entry
  rw [same]
  cases found with
  | none => exact .returns ⟨rfl, after, closures⟩
  | some e =>
      obtain ⟨_, c⟩ := e
      refine .bind_same fun _ _ => ?_
      exact .returns ⟨rfl, after, closures⟩

theorem delClosure_mirrors (agrees : Agrees keys b a) {key : CString} (member : key ∈ uuids) :
    Mirrors PutFails (Agrees keys) (delClosure b key) (delClosure a key) := by
  obtain ⟨same, clients, closures⟩ := agrees
  obtain ⟨entry, after⟩ := closures.deletes prefixFree_uuids member
  rw [delClosure, delClosure]
  generalize KeyTable.del b.closures key = deleted at entry after
  generalize KeyTable.del a.closures key = deleted' at entry after
  obtain ⟨_, table, found⟩ := deleted
  obtain ⟨_, m, found'⟩ := deleted'
  obtain rfl : found = found' := entry
  rw [same]
  cases found with
  | none => exact .returns ⟨rfl, clients, after⟩
  | some e =>
      obtain ⟨_, cb⟩ := e
      refine .bind_same fun _ _ => ?_
      exact .returns ⟨rfl, clients, after⟩

theorem dropConnection_mirrors (prefixFree : PrefixFree keys) (agrees : Agrees keys b a)
    {clientId closureId : CString} (client : clientId ∈ keys) (closure : closureId ∈ uuids) :
    Mirrors PutFails (Agrees keys) (dropConnection b clientId closureId)
      (dropConnection a clientId closureId) := by
  refine (delClient_mirrors prefixFree agrees client).bind fun b₁ a₁ agrees₁ => ?_
  refine (delClosure_mirrors agrees₁ closure).bind fun b₂ a₂ agrees₂ => ?_
  obtain ⟨same, clients, closures⟩ := agrees₂
  rw [same]
  exact .returns ⟨rfl, clients, closures⟩

theorem reply_agrees (agrees : Agrees keys b a) (cb : ClosureRef) (closure : Closure)
    (packed : Packed) : AgreesOn keys (reply b cb closure packed) (reply a cb closure packed) :=
  ⟨rfl, agrees.setClosure cb _⟩

theorem connectHandler_mirrors (prefixFree : PrefixFree keys) (agrees : Agrees keys b a)
    (named : Named keys b.view) {pkt : MqttConnect}
    (within : ∀ block, pkt.payload.clientId = some block → cstr block ∈ keys) :
    Mirrors PutFails (AgreesOn keys) (connectHandler fuel b cb pkt)
      (connectHandler fuel' a cb pkt) := by
  have heaps : a.closureHeap = b.closureHeap ∧ a.clientHeap = b.clientHeap := by
    rw [agrees.same]
    exact ⟨rfl, rfl⟩
  rw [connectHandler, connectHandler, heaps.1]
  refine .bind_same fun closure live => ?_
  cases given : pkt.payload.clientId with
  | none => exact .fails _
  | some block =>
      have member := within block given
      have found := agrees.clients.contains prefixFree member
      dsimp only
      rw [found]
      cases taken : KeyTable.contains a.clients (cstr block) with
      | true =>
          have isUuid := named.closures cb closure.link (view_links (deref_eq_ok.mp live))
          have dropped :=
            dropConnection_mirrors prefixFree (agrees.closeFd closure.fd) member isUuid
          refine dropped.bind fun b' a' agrees' => ?_
          exact .returns ⟨rfl, agrees'⟩
      | false =>
          have put := agrees.clients.puts prefixFree member taken fuel fuel' b.clientHeap.next
          rw [if_neg (by decide), if_neg (by decide), heaps.2]
          refine put.bind fun p q both => .bind_same fun packed _ => ?_
          obtain ⟨same, _, closures⟩ := agrees
          rw [same]
          exact .returns ⟨rfl, rfl, both.2, closures⟩

theorem disconnectHandler_mirrors (prefixFree : PrefixFree keys) (agrees : Agrees keys b a)
    (named : Named keys b.view) :
    Mirrors PutFails (AgreesOn keys) (disconnectHandler b cb) (disconnectHandler a cb) := by
  have heaps : a.closureHeap = b.closureHeap ∧ a.clientHeap = b.clientHeap := by
    rw [agrees.same]
    exact ⟨rfl, rfl⟩
  rw [disconnectHandler, disconnectHandler, heaps.1, heaps.2]
  refine .bind_same fun closure live => .bind_same ?_
  rintro ⟨c, client⟩ owner
  have member := named.clients c client (derefObj_eq_ok.mp owner).2
  have isUuid := named.closures cb closure.link (view_links (deref_eq_ok.mp live))
  refine (dropConnection_mirrors prefixFree (agrees.closeFd client.fd) member isUuid).bind ?_
  exact fun b' a' agrees' => .returns ⟨rfl, agrees'⟩

/-- The rounds of a SUBSCRIBE agree if the states between them do. -/
def RoundsAgree (keys : Set CString) (st : SubscribeState HashTable) (st' : SubscribeState KeyMap) :
    Prop :=
  Agrees keys st.broker st'.broker ∧ st.wildcard = st'.wildcard ∧ st.alloced = st'.alloced ∧
    st.ownFreed = st'.ownFreed ∧ st.rcs = st'.rcs

theorem subscribeTuple_mirrors {obj : ClientRef} (st : SubscribeState HashTable)
    (st' : SubscribeState KeyMap) (tuple : SubscribeTuple) (agree : RoundsAgree keys st st') :
    Mirrors PutFails (RoundsAgree keys) (subscribeTuple obj st tuple)
      (subscribeTuple obj st' tuple) := by
  obtain ⟨b, wildcard, alloced, ownFreed, rcs⟩ := st
  obtain ⟨a, _, _, _, _⟩ := st'
  obtain ⟨⟨same, clients, closures⟩, rfl, rfl, rfl, rfl⟩ := agree
  rw [subscribeTuple, subscribeTuple]
  refine .bind_same ?_
  rintro ⟨topic, appended, filter⟩ _
  dsimp only at same clients closures ⊢
  rw [subscribeTopic, subscribeTopic, same]
  show Mirrors _ _ (topicAddSubscriber _ _ _ _ _ >>= _) (topicAddSubscriber _ _ _ _ _ >>= _)
  have topics : solTopicGet (b.withTables a.clients a.closures) topic = solTopicGet b topic := rfl
  rw [topics]
  cases solTopicGet b topic with
  | none => exact .returns ⟨⟨rfl, clients, closures⟩, rfl, rfl, rfl, rfl⟩
  | some t =>
      cases wildcard || filter with
      | false => exact .returns ⟨⟨rfl, clients, closures⟩, rfl, rfl, rfl, rfl⟩
      | true => exact .returns ⟨⟨rfl, clients, closures⟩, rfl, rfl, rfl, rfl⟩

theorem subscribeHandler_mirrors (agrees : Agrees keys b a) (pkt : MqttSubscribe) :
    Mirrors PutFails (AgreesOn keys) (subscribeHandler b cb pkt) (subscribeHandler a cb pkt) := by
  have heaps : a.closureHeap = b.closureHeap ∧ a.clientHeap = b.clientHeap := by
    rw [agrees.same]
    exact ⟨rfl, rfl⟩
  rw [subscribeHandler, subscribeHandler, heaps.1, heaps.2]
  refine .bind_same fun closure _ => .bind_same ?_
  rintro ⟨obj, _⟩ _
  dsimp only
  split
  · exact .fails _
  · refine (Mirrors.foldlM subscribeTuple_mirrors _ ⟨agrees, rfl, rfl, rfl, rfl⟩).bind ?_
    rintro st st' ⟨agrees', _, _, freed, rcs⟩
    rw [freed, rcs]
    split
    · exact .fails _
    · refine .bind_same fun packed _ => ?_
      exact .returns (reply_agrees agrees' cb closure packed)

theorem unsubscribeHandler_mirrors (agrees : Agrees keys b a) (pkt : MqttUnsubscribe) :
    Mirrors PutFails (AgreesOn keys) (unsubscribeHandler b cb pkt)
      (unsubscribeHandler a cb pkt) := by
  have heaps : a.closureHeap = b.closureHeap ∧ a.clientHeap = b.clientHeap := by
    rw [agrees.same]
    exact ⟨rfl, rfl⟩
  rw [unsubscribeHandler, unsubscribeHandler, heaps.1, heaps.2]
  refine .bind_same fun closure _ => .bind_same fun _ _ => .bind_same fun packed _ => ?_
  exact .returns (reply_agrees agrees cb closure packed)

theorem sendRounds_mirrors (prepare : Preparing) (subs : List Subscriber) (results : List Int)
    (agrees : Agrees keys b a) :
    Mirrors PutFails (Agrees keys) (sendRounds prepare subs results b)
      (sendRounds prepare subs results a) := by
  induction subs generalizing results b a with
  | nil => exact .returns agrees
  | cons sub subs ih =>
      have heap : a.clientHeap = b.clientHeap ∧ a.info = b.info ∧ a.sent = b.sent := by
        rw [agrees.same]
        exact ⟨rfl, rfl, rfl⟩
      rw [sendRounds, sendRounds, heap.1]
      refine .bind_same fun prepared _ => ?_
      simp only [sendBytes, heap.2.1, heap.2.2]
      exact ih _ (agrees.counted _ _)

theorem publishedTopic_agrees (agrees : Agrees keys b a) (topic : CString) :
    (publishedTopic b topic).1 = (publishedTopic a topic).1 ∧
      Agrees keys (publishedTopic b topic).2 (publishedTopic a topic).2 := by
  obtain ⟨same, clients, closures⟩ := agrees
  rw [publishedTopic, publishedTopic, same]
  have topics : solTopicGet (b.withTables a.clients a.closures) topic = solTopicGet b topic := rfl
  rw [topics]
  cases solTopicGet b topic with
  | none => exact ⟨rfl, rfl, clients, closures⟩
  | some t => exact ⟨rfl, rfl, clients, closures⟩

theorem publishReply_mirrors (agrees : Agrees keys b a) (pkt : MqttPublish) :
    Mirrors PutFails (AgreesOn keys) (publishReply b cb closure pkt)
      (publishReply a cb closure pkt) := by
  rw [publishReply, publishReply]
  split
  · exact .bind_same fun packed _ => .returns (reply_agrees agrees cb closure packed)
  · split
    · exact .bind_same fun packed _ => .returns (reply_agrees agrees cb closure packed)
    · exact .returns ⟨rfl, agrees⟩

theorem publishHandler_mirrors (agrees : Agrees keys b a) (pkt : MqttPublish)
    (results : List Int) :
    Mirrors PutFails (AgreesOn keys) (publishHandler b cb pkt results)
      (publishHandler a cb pkt results) := by
  obtain ⟨m, n, rfl, clients, closures⟩ := agrees.exists_tables
  rw [publishHandler, publishHandler]
  refine .bind_same fun closure _ => .bind_same fun _ _ => .bind_same fun topic _ => ?_
  obtain ⟨t, agrees'⟩ : (b.published topic).1 = ((b.withTables m n).published topic).1 ∧
      Agrees keys (b.published topic).2 ((b.withTables m n).published topic).2 :=
    publishedTopic_agrees ⟨rfl, clients, closures⟩ topic
  show Mirrors PutFails _
    (publishLoop pkt ((b.published topic).2.topicHeap[(b.published topic).1]?.elim []
      fun topic => topic.subscribers.nodes) results (b.published topic).2 >>=
        fun b => publishReply b cb closure pkt)
    (publishLoop pkt (((b.withTables m n).published topic).2.topicHeap[
      ((b.withTables m n).published topic).1]?.elim []
        fun topic => topic.subscribers.nodes) results ((b.withTables m n).published topic).2 >>=
          fun b => publishReply b cb closure pkt)
  have topicHeap := congrArg Broker.topicHeap agrees'.same
  rw [← t, topicHeap]
  rw [publishLoop_eq_rounds, publishLoop_eq_rounds]
  refine (sendRounds_mirrors _ _ results agrees').bind fun b' a' agrees' => ?_
  exact publishReply_mirrors agrees' pkt

end Handlers

/-! ## The callbacks -/

section Callbacks

variable {keys : Set CString} {b : Broker HashTable} {a : Broker KeyMap} {cb : ClosureRef}
  {fuel fuel' : Nat}

theorem handle_mirrors (prefixFree : PrefixFree keys) (agrees : Agrees keys b a)
    (named : Named keys b.view) (results : List Int) {request : Request}
    (within : ServerEvent.ConnectsWithin keys
      (.socket (.ready cb (.request request) results))) :
    Mirrors PutFails (AgreesOn keys) (handle fuel b cb results request)
      (handle fuel' a cb results request) := by
  cases request with
  | connect pkt => exact connectHandler_mirrors prefixFree agrees named within
  | disconnect => exact disconnectHandler_mirrors prefixFree agrees named
  | subscribe pkt => exact subscribeHandler_mirrors agrees pkt
  | unsubscribe pkt => exact unsubscribeHandler_mirrors agrees pkt
  | publish pkt => exact publishHandler_mirrors agrees pkt results

theorem rearm_mirrors (agrees : Agrees keys b a) (rc : Int) :
    Mirrors PutFails (Agrees keys) (rearm b cb rc) (rearm a cb rc) := by
  have heap : a.closureHeap = b.closureHeap := congrArg Broker.closureHeap agrees.same
  rw [rearm, rearm, heap]
  split
  · exact .bind_same fun closure _ => .returns (agrees.setClosure cb _)
  · exact .returns agrees

theorem onRead_mirrors (prefixFree : PrefixFree keys) (agrees : Agrees keys b a)
    (named : Named keys b.view) (results : List Int) {input : Input}
    (within : ServerEvent.ConnectsWithin keys (.socket (.ready cb input results))) :
    Mirrors PutFails (Agrees keys) (onRead fuel b cb results input)
      (onRead fuel' a cb results input) := by
  have heaps : a.closureHeap = b.closureHeap ∧ a.clientHeap = b.clientHeap ∧ a.info = b.info := by
    rw [agrees.same]
    exact ⟨rfl, rfl, rfl⟩
  cases input with
  | dropped => exact .returns agrees
  | packetErr =>
      rw [onRead, onRead, heaps.1, heaps.2.1]
      refine .bind_same fun closure live => .bind_same ?_
      rintro ⟨c, client⟩ owner
      have member := named.clients c client (derefObj_eq_ok.mp owner).2
      have isUuid := named.closures cb closure.link (view_links (deref_eq_ok.mp live))
      exact dropConnection_mirrors prefixFree (agrees.closeFd closure.fd) member isUuid
  | request request =>
      rw [onRead, onRead, heaps.2.2]
      have counted := agrees.informed { b.info with bytesRecv := b.info.bytesRecv + 1 }
      refine (handle_mirrors prefixFree counted named results within).bind ?_
      rintro ⟨rc, b'⟩ ⟨_, a'⟩ ⟨rfl, agrees'⟩
      exact rearm_mirrors agrees' rc

theorem onWrite_mirrors (agrees : Agrees keys b a) (results : List Int) :
    Mirrors PutFails (Agrees keys) (onWrite b cb results) (onWrite a cb results) := by
  obtain ⟨same, clients, closures⟩ := agrees
  rw [onWrite, onWrite, same]
  refine .bind_same fun closure _ => ?_
  cases closure.payload with
  | none => exact .fails _
  | some payload =>
      refine .bind_same fun _ _ => ?_
      exact .returns ⟨rfl, clients, closures⟩

theorem onAccept_mirrors (agrees : Agrees keys b a) {fd : Int} {uuid : CString}
    (isUuid : IsUuid uuid) (fresh : KeyTable.contains a.closures uuid = false) :
    Mirrors PutFails (Agrees keys) (onAccept fuel b fd uuid) (onAccept fuel' a fd uuid) := by
  obtain ⟨same, clients, closures⟩ := agrees
  rw [onAccept, onAccept]
  have heap : a.closureHeap = b.closureHeap := congrArg Broker.closureHeap same
  rw [heap]
  refine (closures.puts prefixFree_uuids isUuid fresh fuel fuel' b.closureHeap.next).bind ?_
  rintro ⟨_, table⟩ ⟨_, m⟩ ⟨rfl, rep⟩
  rw [same]
  exact .returns ⟨rfl, clients, rep⟩

theorem dispatch_mirrors (prefixFree : PrefixFree keys) (agrees : Agrees keys b a)
    (named : Named keys b.view) {event : Event} (fresh : FreshUuid b event)
    (free : ∀ id cb, a.closures.lookup id = some cb →
      ∃ closure, b.closureHeap.get? cb = some closure ∧ closure.closureId = id)
    (within : ServerEvent.ConnectsWithin keys (.socket event)) :
    Mirrors PutFails (Agrees keys) (dispatch fuel b event) (dispatch fuel' a event) := by
  cases event with
  | accept fd uuid =>
      refine onAccept_mirrors agrees fresh.1 ?_
      cases found : a.closures.lookup uuid with
      | none =>
          show (a.closures.lookup uuid).isSome = false
          rw [found]
          rfl
      | some cb =>
          obtain ⟨closure, live, own⟩ := free uuid cb found
          exact absurd own (fresh.2 cb closure live)
  | ready cb input results =>
      have heap : a.closureHeap = b.closureHeap := congrArg Broker.closureHeap agrees.same
      cases live : b.closureHeap.get? cb with
      | none =>
          rw [dispatch, dispatch, heap]
          exact .bind_same fun closure held => absurd (deref_eq_ok.mp held) (by simp [live])
      | some closure =>
          have disarmed := agrees.setClosure cb { closure with armed := none }
          have live' : a.closureHeap.get? cb = some closure := by rw [heap, live]
          have same : (setClosure b cb { closure with armed := none }).view = b.view :=
            view_setClosure_same live rfl
          rw [← same] at named
          cases call : closure.call with
          | onRead =>
              rw [dispatch_reading live call, dispatch_reading live' call]
              exact onRead_mirrors prefixFree disarmed named results within
          | onWrite =>
              rw [dispatch_writing live call, dispatch_writing live' call]
              exact onWrite_mirrors disarmed results

end Callbacks

/-! ## Ticks -/

section Ticks

variable {keys : Set CString} {b : Broker HashTable} {a : Broker KeyMap}

theorem publishStat_mirrors (b : Broker HashTable) (a : Broker KeyMap)
    (message : (CString × CString) × List Int) (agrees : Agrees keys b a) :
    Mirrors PutFails (Agrees keys) (publishStat b message) (publishStat a message) := by
  obtain ⟨⟨topic, text⟩, results⟩ := message
  have topics : solTopicGet a topic = solTopicGet b topic := by
    rw [agrees.same]
    rfl
  have topicHeap : a.topicHeap = b.topicHeap := congrArg Broker.topicHeap agrees.same
  show Mirrors PutFails _ (publishMessage b _ _ _ _ _ _) (publishMessage a _ _ _ _ _ _)
  rw [publishMessage, publishMessage, topics, topicHeap]
  cases solTopicGet b topic with
  | none => exact .returns agrees
  | some t =>
      dsimp only
      rw [publishMessageLoop_eq_rounds, publishMessageLoop_eq_rounds]
      exact sendRounds_mirrors _ _ results agrees

theorem publishStats_mirrors (agrees : Agrees keys b a) (uptime : Int) (solUptime : CString)
    (results : List (List Int)) :
    Mirrors PutFails (Agrees keys) (publishStats b uptime solUptime results)
      (publishStats a uptime solUptime results) := by
  have info : a.info = b.info := congrArg Broker.info agrees.same
  rw [publishStats, publishStats, info]
  exact .foldlM publishStat_mirrors _ agrees

end Ticks

/-! ## Steps and runs -/

section Steps

variable {keys : Set CString} {b b' : Broker HashTable} {a a' : Broker KeyMap}
  {event : ServerEvent}

theorem Agrees.named (agrees : Agrees keys b a) (tied : Tied a.view) : Named keys b.view := by
  obtain ⟨m, n, rfl, clients, closures⟩ := agrees.exists_tables
  refine ⟨fun c client held => ?_, fun cb link linked => ?_⟩
  · have registered : m.lookup client.clientId = some c := tied.client_registered held
    exact clients.within _ (AList.lookup_isSome.mp (by simp [registered]))
  · have registered : n.lookup link.closureId = some cb := tied.closure_registered linked
    exact closures.within _ (AList.lookup_isSome.mp (by simp [registered]))

theorem Agrees.fresh_iff (agrees : Agrees keys b a) : event.Fresh b ↔ event.Fresh a := by
  rw [agrees.same]
  cases event with
  | tick => exact Iff.rfl
  | socket event => cases event <;> exact Iff.rfl

/-- Whatever happens next, the brokers do alike. -/
theorem serve_mirrors (prefixFree : PrefixFree keys) (agrees : Agrees keys b a)
    (tied : Tied a.view) (fresh : event.Fresh b) (within : event.ConnectsWithin keys)
    (fuel fuel' : Nat) :
    Mirrors PutFails (Agrees keys) (serve fuel b event) (serve fuel' a event) := by
  cases event with
  | socket event =>
      refine dispatch_mirrors prefixFree agrees (agrees.named tied) fresh (fun id cb found => ?_)
        within
      obtain ⟨link, linked, own⟩ := tied.closure_of_registered found
      obtain ⟨closure, live, rfl⟩ := links_eq_some.mp linked
      exact ⟨closure, by rwa [agrees.same] at live, own⟩
  | tick uptime solUptime results => exact publishStats_mirrors agrees uptime solUptime results

theorem tied_serverStep (tied : Tied a.view) (step : ServerStep a event a') : Tied a'.view :=
  step.keeps_view (fun _ _ _ => tied_step) tied

/-- With more fuel the same happens, unless a put fails. -/
theorem serve_mono {fuel fuel' : Nat} (le : fuel ≤ fuel') (b : Broker HashTable)
    (event : ServerEvent) : Mirrors PutFails Eq (serve fuel b event) (serve fuel' b event) := by
  have put (table : HashTable Nat) (key : CString) (val : Nat) :
      Mirrors PutFails Eq (KeyTable.put fuel table key val) (KeyTable.put fuel' table key val) := by
    cases run : hashtablePut fuel table key val [] with
    | error e =>
        show Mirrors PutFails Eq (hashtablePut fuel table key val [] >>= _) _
        rw [run]
        exact .excuse _ (hashtablePut_error run)
    | ok r =>
        show Mirrors PutFails Eq (hashtablePut fuel table key val [] >>= _)
          (hashtablePut fuel' table key val [] >>= _)
        rw [run, hashtablePut_mono le run]
        exact .refl _
  match event with
  | .tick .. => exact .refl _
  | .socket (.accept fd uuid) =>
      refine (put b.closures uuid b.closureHeap.next).bind ?_
      rintro p _ rfl
      exact .refl _
  | .socket (.ready cb input results) =>
      refine .bind_same fun closure _ => ?_
      cases closure.call with
      | onWrite => exact .refl _
      | onRead =>
          match input with
          | .dropped | .packetErr => exact .refl _
          | .request .disconnect | .request (.subscribe _) | .request (.unsubscribe _)
          | .request (.publish _) => exact .refl _
          | .request (.connect pkt) =>
              refine Mirrors.bind (?_ : Mirrors PutFails Eq _ _) ?_
              · refine .bind_same fun closure _ => ?_
                cases pkt.payload.clientId with
                | none => exact .refl _
                | some block =>
                    dsimp only
                    split
                    · exact .refl _
                    · refine (put _ _ _).bind ?_
                      rintro p _ rfl
                      exact .refl _
              · rintro p _ rfl
                exact .refl _

theorem ServerStep.unique (b : Broker HashTable) (event : ServerEvent) (b₁ b₂ : Broker HashTable)
    (first : ServerStep b event b₁) (second : ServerStep b event b₂) : b₁ = b₂ := by
  obtain ⟨_, fuel, run⟩ := first
  obtain ⟨_, fuel', run'⟩ := second
  obtain le | le := Nat.le_total fuel fuel'
  · obtain ⟨_, same, rfl⟩ := (serve_mono le b event).of_ok run
    exact Except.ok.inj (same.symm.trans run')
  · obtain ⟨_, same, rfl⟩ := (serve_mono le b event).of_ok run'
    exact Except.ok.inj (run.symm.trans same)

/-- A put that this event needs never returns, or has no place that fits an `int`. -/
def PutStuck (b : Broker HashTable) (event : ServerEvent) : Prop :=
  ∀ fuel, ∃ e, serve fuel b event = .error e ∧ PutFails e

theorem agrees_startServer (keys : Set CString) :
    Agrees keys (startServer : Broker HashTable) (startServer : Broker KeyMap) := by
  have put (names : List CString) (b : Broker HashTable) (a : Broker KeyMap)
      (agrees : Agrees keys b a) :
      Agrees keys (names.foldl (fun b name => (solTopicPut b name).2) b)
        (names.foldl (fun b name => (solTopicPut b name).2) a) := by
    induction names generalizing b a with
    | nil => exact agrees
    | cons name names ih =>
        refine ih _ _ ?_
        obtain ⟨m, n, rfl, clients, closures⟩ := agrees.exists_tables
        exact ⟨rfl, clients, closures⟩
  exact put sysTopics solInit solInit
    ⟨rfl, represented_hashtableCreate keys, represented_hashtableCreate uuids⟩

theorem serverStep_simulated (prefixFree : PrefixFree keys) (agrees : Agrees keys b a)
    (tied : Tied a.view) (within : event.ConnectsWithin keys) (step : ServerStep b event b') :
    ∃ a', ServerStep a event a' ∧ Agrees keys b' a' ∧ Tied a'.view := by
  obtain ⟨fresh, fuel, run⟩ := step
  obtain ⟨a', run', agrees'⟩ :=
    (serve_mirrors prefixFree agrees tied fresh within fuel 0).of_ok run
  have step' : ServerStep a event a' := ⟨agrees.fresh_iff.mp fresh, 0, run'⟩
  exact ⟨a', step', agrees', tied_serverStep tied step'⟩

theorem serverStep_simulates (prefixFree : PrefixFree keys) (agrees : Agrees keys b a)
    (tied : Tied a.view) (within : event.ConnectsWithin keys) (step : ServerStep a event a') :
    (∃ b', ServerStep b event b' ∧ Agrees keys b' a' ∧ Tied a'.view) ∨ PutStuck b event := by
  have tied' := tied_serverStep tied step
  obtain ⟨fresh, fuel', run⟩ := step
  have fresh' := agrees.fresh_iff.mpr fresh
  by_cases returns : ∃ fuel b', serve fuel b event = .ok b'
  · obtain ⟨fuel, b', run'⟩ := returns
    obtain ⟨a'', run'', agrees'⟩ :=
      (serve_mirrors prefixFree agrees tied fresh' within fuel fuel').of_ok run'
    obtain rfl := Except.ok.inj (run.symm.trans run'')
    exact .inl ⟨b', ⟨fresh', fuel, run'⟩, agrees', tied'⟩
  · refine .inr fun fuel => ?_
    obtain ⟨b', run', _⟩ | stuck :=
      (serve_mirrors prefixFree agrees tied fresh' within fuel fuel').to_ok run
    · exact absurd ⟨fuel, b', run'⟩ returns
    · exact stuck

/-- A run has its counterpart over exact maps, where the maps index what there is. -/
theorem exists_maps_of_run (prefixFree : PrefixFree keys)
    {tr : List (Broker HashTable × ServerEvent)} (run : Run ServerStep startServer tr b)
    (within : ∀ visit ∈ tr, visit.2.ConnectsWithin keys) :
    ∃ tr' a, Run ServerStep (startServer : Broker KeyMap) tr' a ∧
      (Agrees keys b a ∧ Tied a.view) ∧
      Matched (fun b a => Agrees keys b a ∧ Tied a.view) tr tr' :=
  Run.matched (fun b a => Agrees keys b a ∧ Tied a.view) (fun _ => ServerEvent.ConnectsWithin keys)
    ⟨agrees_startServer keys, tied_startServer⟩
    (fun _ _ _ _ both within step => serverStep_simulated prefixFree both.1 both.2 within step)
    run within

/-- Every run of the broker is one of the broker over exact maps, through states that
agree; and where the broker fails next, other than in a put, so does the other. -/
theorem hashTables_refine_maps (prefixFree : PrefixFree keys)
    {tr : List (Broker HashTable × ServerEvent)} (run : Run ServerStep startServer tr b)
    (within : ∀ visit ∈ tr, visit.2.ConnectsWithin keys) :
    ∃ tr' a, Run ServerStep (startServer : Broker KeyMap) tr' a ∧ Agrees keys b a ∧
      Matched (Agrees keys) tr tr' ∧
      ∀ event fuel e, event.Fresh b → event.ConnectsWithin keys → serve fuel b event = .error e →
        ¬ PutFails e → ∀ fuel', serve fuel' a event = .error e := by
  obtain ⟨tr', a, run', ⟨agrees, tied⟩, matched⟩ := exists_maps_of_run prefixFree run within
  refine ⟨tr', a, run', agrees, matched.imp fun _ _ same => ⟨same.1.1, same.2⟩, ?_⟩
  intro event fuel e fresh within failed other fuel'
  have mirrors := serve_mirrors prefixFree agrees tied fresh within fuel fuel'
  refine (mirrors.error_iff fun e' failed' excused => ?_).mp failed
  obtain rfl := Except.error.inj (failed.symm.trans failed')
  exact other excused

/-- Two connections, a CONNECT on each, of clients `x` and `y`, and a tick. -/
def connectAndTick : List ServerEvent :=
  [.socket (.accept 5 (uuidOf 0)), .socket (.ready 0 (.request (.connect (connectAs 120))) []),
    .socket (.accept 6 (uuidOf 1)), .socket (.ready 1 (.request (.connect (connectAs 121))) []),
    .tick 3 (literal "0.0000") []]

/-- The ids of the two. -/
def bothIds : Set CString := { k | k ∈ [cstr [120], cstr [121]] }

theorem prefixFree_bothIds : PrefixFree bothIds := by
  have apart : ∀ a ∈ [cstr [120], cstr [121]], ∀ b ∈ [cstr [120], cstr [121]],
      a.CasePrefix b → a = b := by decide
  exact apart

theorem connectAndTick_within : ∀ event ∈ connectAndTick, event.ConnectsWithin bothIds := by
  have ids (cb : ClosureRef) (c : UInt8) (id : c = 120 ∨ c = 121) : ServerEvent.ConnectsWithin
      bothIds (.socket (.ready cb (.request (.connect (connectAs c))) [])) := by
    rintro block ⟨⟩
    obtain rfl | rfl := id <;> exact show _ ∈ [cstr [120], cstr [121]] by decide
  intro event member
  simp only [connectAndTick, List.mem_cons, List.not_mem_nil, or_false] at member
  obtain rfl | rfl | rfl | rfl | rfl := member
  · trivial
  · exact ids 0 120 (.inl rfl)
  · trivial
  · exact ids 1 121 (.inr rfl)
  · trivial

theorem replay_connectAndTick :
    (replay serverNext (startServer : Broker HashTable) connectAndTick).map (fun r =>
      (hashtableGet r.2.clients (cstr [120]), hashtableGet r.2.clients (cstr [121]))) =
        some (some 0, some 1) := by
  decide +kernel

/-- The exact map finds the clients too. -/
theorem connectAndTick_refines :
    ∃ tr b tr' a, Run ServerStep (startServer : Broker HashTable) tr b ∧
      tr.map Prod.snd = connectAndTick ∧ Run ServerStep (startServer : Broker KeyMap) tr' a ∧
      a.clients.lookup (cstr [120]) = some 0 ∧ a.clients.lookup (cstr [121]) = some 1 ∧
      a.sent = b.sent := by
  obtain ⟨tr, b, run, labels, facts⟩ := Run.of_replay_map serverNext_step replay_connectAndTick
  obtain ⟨foundX, foundY⟩ := Prod.mk.inj facts
  have within : ∀ visit ∈ tr, visit.2.ConnectsWithin bothIds := by
    rw [← List.forall_mem_map, labels]
    exact connectAndTick_within
  obtain ⟨tr', a, run', agrees, _⟩ := hashTables_refine_maps prefixFree_bothIds run within
  have get {k : CString} (inside : k ∈ [cstr [120], cstr [121]]) :=
    agrees.clients.get prefixFree_bothIds inside
  refine ⟨tr, b, tr', a, run, labels, run', ?_, ?_, congrArg Broker.sent agrees.same⟩
  · rw [← get (by decide), foundX]
  · rw [← get (by decide), foundY]

/-- Every run of the broker over exact maps is one of the broker, as far as the puts of
its hash tables return. -/
theorem maps_refine_hashTables (prefixFree : PrefixFree keys)
    {tr' : List (Broker KeyMap × ServerEvent)} (run : Run ServerStep startServer tr' a)
    (within : ∀ visit ∈ tr', visit.2.ConnectsWithin keys) :
    (∃ tr b, Run ServerStep (startServer : Broker HashTable) tr b ∧ Agrees keys b a ∧
      Matched (Agrees keys) tr tr') ∨
    ∃ before a₁ event after tr b, tr' = before ++ (a₁, event) :: after ∧
      Run ServerStep (startServer : Broker HashTable) tr b ∧ Agrees keys b a₁ ∧
      Matched (Agrees keys) tr before ∧ PutStuck b event := by
  have simulated := Run.matched_or_stuck (fun b a => Agrees keys b a ∧ Tied a.view)
    (fun _ => ServerEvent.ConnectsWithin keys) ⟨agrees_startServer keys, tied_startServer⟩
    (fun _ _ _ _ both within step => serverStep_simulates prefixFree both.1 both.2 within step)
    run within
  obtain ⟨tr, b, run', ⟨agrees, _⟩, matched⟩ |
      ⟨before, a₁, event, after, tr, b, parts, run', ⟨agrees, _⟩, matched, stuck⟩ := simulated
  · exact .inl ⟨tr, b, run', agrees, matched.imp fun _ _ same => ⟨same.1.1, same.2⟩⟩
  · exact .inr ⟨before, a₁, event, after, tr, b, parts, run', agrees,
      matched.imp fun _ _ same => ⟨same.1.1, same.2⟩, stuck⟩

theorem replay_connectAndTick_maps :
    (replay serverNext (startServer : Broker KeyMap) connectAndTick).map (fun r =>
      (r.2.clients.lookup (cstr [120]), r.2.clients.lookup (cstr [121]))) =
        some (some 0, some 1) := by
  decide +kernel

/-- The hash tables follow it to its end, as none of their puts is stuck. -/
theorem connectAndTick_refined :
    ∃ tr' a tr b, Run ServerStep (startServer : Broker KeyMap) tr' a ∧
      tr'.map Prod.snd = connectAndTick ∧ Run ServerStep (startServer : Broker HashTable) tr b ∧
      hashtableGet b.clients (cstr [120]) = some 0 ∧
      hashtableGet b.clients (cstr [121]) = some 1 := by
  obtain ⟨tr', a, run, labels, facts⟩ :=
    Run.of_replay_map serverNext_step replay_connectAndTick_maps
  obtain ⟨foundX, foundY⟩ := Prod.mk.inj facts
  have within : ∀ visit ∈ tr', visit.2.ConnectsWithin bothIds := by
    rw [← List.forall_mem_map, labels]
    exact connectAndTick_within
  obtain ⟨tr, b, run', agrees, _⟩ |
      ⟨before, a₁, event, after, tr, b, rfl, run', _, matched, stuck⟩ :=
    maps_refine_hashTables prefixFree_bothIds run within
  · have get {k : CString} (inside : k ∈ [cstr [120], cstr [121]]) :=
      agrees.clients.get prefixFree_bothIds inside
    refine ⟨tr', a, tr, b, run, labels, run', ?_, ?_⟩
    · rw [get (by decide), foundX]
    · rw [get (by decide), foundY]
  · -- the hash tables have a run with these labels
    obtain ⟨tr₁, b₁, whole, labels₁, _⟩ :=
      Run.of_replay_map serverNext_step replay_connectAndTick
    have same : tr.map Prod.snd = before.map Prod.snd := matched.labels
    rw [List.map_append, List.map_cons, ← same] at labels
    obtain ⟨b', _, fuel, served⟩ :=
      run'.next_of_labels ServerStep.unique whole (labels₁.trans labels.symm)
    obtain ⟨e, failed, _⟩ := stuck fuel
    rw [served] at failed
    cases failed

end Steps

end SolBroker
