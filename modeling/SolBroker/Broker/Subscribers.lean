import Mathlib
import SolBroker.Lib.Run
import SolBroker.Hash.Seating
import SolBroker.Broker.Topics
import SolBroker.Broker.Attachment

/-!
# Subscribers and registered clients

The broker with the hash table it has. A subscriber entry refers to a client by
address, and nothing ever removes one: the entry is good as long as `sol.clients` has
an entry for the client, under the client's id. A step keeps all of them good exactly
if it neither deletes nor overwrites the entry of a client that is subscribed, and
subscribes only a client that has one. For a CONNECT that rebuilds the table while a client
in it is not subscribed the condition is only enough.
-/

namespace SolBroker

open Transition

/-- `sol.clients` has an entry for the client, under the id of the client. -/
def Registered (v : View HashTable) (c : ClientRef) : Prop :=
  ∃ client, v.clientHeap.get? c = some client ∧ (client.clientId, c) ∈ v.clients.contents

def Subscribed (v : View HashTable) (c : ClientRef) : Prop :=
  ∃ name qos, v.Holds name ⟨qos, c⟩

def SubscribersRegistered (v : View HashTable) : Prop :=
  ∀ name sub, v.Holds name sub → Registered v sub.client

/-- `hashtable_del` finds no subscriber's entry under the key. -/
def DeletesNoSubscriber (v : View HashTable) (key : CString) : Prop :=
  ∀ i q c, hashtableLocate v.clients key = some i → v.clients.at? i = some (q, c) →
    ¬ Subscribed v c

/-- `hashtable_put` of a new client does not stop at a subscriber's entry, which it would
overwrite. Where it has to rebuild the table, none is taken for a subscriber, or no key for
another. -/
def OverwritesNoSubscriber (v : View HashTable) (key : CString) : Prop :=
  match hashtableHash v.clients key with
  | some i => ∀ q c, v.clients.at? i = some (q, c) → ¬ Subscribed v c
  | none => ∀ e ∈ v.clients.contents, Subscribed v e.2 →
      Aloof v.clients key e.1 ∨ TellsApart v.clients key

/-- The condition on an event, for the packet that is read from a closure. -/
def KeepsSubscribers (b : Broker HashTable) : Event → Prop
  | .accept .. => True
  | .ready cb input _ => ∀ closure, b.closureHeap.get? cb = some closure → closure.call = .onRead →
      match input with
      | .packetErr | .request .disconnect => ∀ c client, closure.obj = some c →
          b.clientHeap.get? c = some client → DeletesNoSubscriber b.view client.clientId
      | .request (.connect pkt) => ∀ block, pkt.payload.clientId = some block →
          if hashtableExists b.clients (cstr block) then DeletesNoSubscriber b.view (cstr block)
          else OverwritesNoSubscriber b.view (cstr block)
      | .request (.subscribe pkt) => pkt.tuples.take pkt.tuplesLen.toNat ≠ [] →
          ∀ c, closure.obj = some c → Registered b.view c
      | .dropped | .request (.unsubscribe _) | .request (.publish _) => True

/-- A CONNECT for which the table has to be rebuilt while a client in it is not subscribed. -/
def RebuildsWithOthers (b : Broker HashTable) : Event → Prop
  | .ready _ (.request (.connect pkt)) _ => ∃ block, pkt.payload.clientId = some block ∧
      hashtableHash b.clients (cstr block) = none ∧
        ∃ e ∈ b.clients.contents, ¬ Subscribed b.view e.2
  | _ => False

section Condition

variable {b : Broker HashTable} {cb : ClosureRef} {closure : Closure} {c : ClientRef}
  {results : List Int}

theorem keepsSubscribers_left_iff {input : Input} {client : SolClient}
    (live : b.closureHeap.get? cb = some closure) (reads : closure.call = .onRead)
    (leaves : input = .packetErr ∨ input = .request .disconnect) (obj : closure.obj = some c)
    (held : b.clientHeap.get? c = some client) :
    KeepsSubscribers b (.ready cb input results) ↔
      DeletesNoSubscriber b.view client.clientId := by
  constructor
  · intro keeps
    obtain rfl | rfl := leaves <;> exact keeps closure live reads c client obj held
  · intro deletesNone
    have forAll : ∀ c' client', some c = some c' → b.clientHeap.get? c' = some client' →
        DeletesNoSubscriber b.view client'.clientId := by
      intro c' client' obj' held'
      obtain rfl := Option.some.inj obj'
      obtain rfl := Option.some.inj (held.symm.trans held')
      exact deletesNone
    obtain rfl | rfl := leaves <;>
      simpa only [KeepsSubscribers, live, reads, obj, Option.some.injEq, forall_eq', forall_const]
        using forAll

theorem keepsSubscribers_connect_iff {pkt : MqttConnect} {block : List UInt8}
    (live : b.closureHeap.get? cb = some closure) (reads : closure.call = .onRead)
    (given : pkt.payload.clientId = some block) :
    KeepsSubscribers b (.ready cb (.request (.connect pkt)) results) ↔
      if hashtableExists b.clients (cstr block) then DeletesNoSubscriber b.view (cstr block)
      else OverwritesNoSubscriber b.view (cstr block) := by
  simp only [KeepsSubscribers, live, reads, given, Option.some.injEq, forall_eq', forall_const]

theorem keepsSubscribers_subscribe_iff {pkt : MqttSubscribe}
    (live : b.closureHeap.get? cb = some closure) (reads : closure.call = .onRead)
    (obj : closure.obj = some c) :
    KeepsSubscribers b (.ready cb (.request (.subscribe pkt)) results) ↔
      (pkt.tuples.take pkt.tuplesLen.toNat ≠ [] → Registered b.view c) := by
  simp only [KeepsSubscribers, live, reads, obj, Option.some.injEq, forall_eq', forall_const]

end Condition

/-! ## What always holds -/

/-- Every entry of the clients' table is one live client, under its own id. -/
structure ClientsSound (v : View HashTable) : Prop where
  sound : Sound v.clients
  live : ∀ e ∈ v.clients.contents, ∃ client, v.clientHeap.get? e.2 = some client ∧
    client.clientId = e.1
  apart : (v.clients.contents.map Prod.snd).Nodup
  once : (v.clients.contents.map Prod.fst).Nodup
  load : v.clients.size ≤ v.clients.tableSize / 2
  indexed : v.Indexed

section Deletion

variable {v : View HashTable} {key : CString} {c : ClientRef}

/-- Deleting a client: nothing happens, or one entry and its client go. -/
theorem View.dropClient_hashTable (v : View HashTable) (key : CString) :
    (hashtableLocate v.clients key = none ∧ v.dropClient key = v) ∨
      ∃ i q c, hashtableLocate v.clients key = some i ∧ v.clients.at? i = some (q, c) ∧
        v.dropClient key =
          { v with clients := v.clients.clear i, clientHeap := v.clientHeap.free c } := by
  cases located : hashtableLocate v.clients key with
  | none =>
      refine .inl ⟨rfl, ?_⟩
      simp only [View.dropClient, KeyTable.del, hashtableDel, located]
  | some i =>
      obtain ⟨⟨q, c, held, _⟩, _⟩ := hashtableLocate_eq_some_iff.mp located
      refine .inr ⟨i, q, c, rfl, held, ?_⟩
      simp only [View.dropClient, KeyTable.del, hashtableDel, located, held]

theorem ClientsSound.drop (clients : ClientsSound v) (key : CString) :
    ClientsSound (v.dropClient key) := by
  obtain ⟨_, same⟩ | ⟨i, q, c, _, held, after⟩ := v.dropClient_hashTable key
  · rw [same]
    exact clients
  · rw [after]
    have perm := contents_clear_perm held
    have apart := apart_clear clients.apart held
    refine ⟨clients.sound.clear held, fun e member => ?_, apart.2,
      (apart_clear clients.once held).2, ?_, ⟨clients.indexed.names, clients.indexed.counted⟩⟩
    swap
    · show v.clients.size - 1 ≤ (v.clients.clear i).tableSize / 2
      rw [HashTable.tableSize_clear]
      exact (Nat.sub_le _ _).trans clients.load
    obtain ⟨client, live, own⟩ := clients.live e (perm.mem_iff.mpr (List.mem_cons_of_mem _ member))
    refine ⟨client, ?_, own⟩
    show (v.clientHeap.free c).get? e.2 = some client
    rw [Heap.get?_free, if_neg, live]
    rintro rfl
    exact apart.1 (List.mem_map.mpr ⟨e, member, rfl⟩)

/-- A deletion leaves exactly the other entries' clients registered. -/
theorem registered_drop_iff :
    Registered (v.dropClient key) c ↔ Registered v c ∧
      ∀ i q, hashtableLocate v.clients key = some i → v.clients.at? i ≠ some (q, c) := by
  obtain ⟨located, same⟩ | ⟨i, q, d, located, held, after⟩ := v.dropClient_hashTable key
  · rw [same, located]
    simp
  · have perm := contents_clear_perm held
    rw [after]
    constructor
    · rintro ⟨client, live, member⟩
      change (v.clientHeap.free d).get? c = some client at live
      rw [Heap.get?_free] at live
      split at live
      · cases live
      · rename_i other
        refine ⟨⟨client, live, perm.mem_iff.mpr (List.mem_cons_of_mem _ member)⟩,
          fun j q' found => ?_⟩
        obtain rfl : i = j := Option.some.inj (located.symm.trans found)
        rw [held]
        rintro ⟨⟩
        exact other rfl
    · rintro ⟨⟨client, live, member⟩, kept⟩
      have other : c ≠ d := by
        rintro rfl
        exact kept i q located held
      refine ⟨client, ?_, ?_⟩
      · show (v.clientHeap.free d).get? c = some client
        rw [Heap.get?_free, if_neg other, live]
      · obtain same | rest := List.mem_cons.mp (perm.mem_iff.mp member)
        · exact absurd (Prod.mk.inj same).2 other
        · exact rest

end Deletion

/-! ## One event -/

section Events

variable {b : Broker HashTable} {v v' : View HashTable} {event : Event} {fuel : Nat}

/-- Only the clients, their heap and the topics matter. -/
theorem ClientsSound.of_same (clients : ClientsSound v) (same : v'.clients = v.clients)
    (heap : v'.clientHeap = v.clientHeap) (indexed : v'.Indexed) : ClientsSound v' where
  sound := same ▸ clients.sound
  live := by
    rw [same, heap]
    exact clients.live
  apart := same ▸ clients.apart
  once := same ▸ clients.once
  load := same ▸ clients.load
  indexed := indexed

theorem registered_congr (same : v'.clients = v.clients) (heap : v'.clientHeap = v.clientHeap)
    (c : ClientRef) : Registered v' c ↔ Registered v c := by
  rw [Registered, Registered, same, heap]

theorem holds_congr {T : Type → Type} {v v' : View T} (topics : v'.topics = v.topics)
    (topicHeap : v'.topicHeap = v.topicHeap) (name : CString) (sub : Subscriber) :
    v'.Holds name sub ↔ v.Holds name sub := by
  rw [View.Holds, View.Holds, topics, topicHeap]

/-- What `hashtable_exists` does not find has no entry. -/
theorem ClientsSound.not_mem_of_absent {key : CString} (sound : ClientsSound v)
    (absent : hashtableExists v.clients key = false) :
    key ∉ v.clients.contents.map Prod.fst := by
  intro member
  obtain ⟨⟨q, c⟩, stored, same⟩ := List.mem_map.mp member
  obtain rfl : q = key := same
  obtain ⟨i, held⟩ := HashTable.mem_contents.mp stored
  cases located : hashtableLocate v.clients q with
  | none =>
      have missing := hashtableLocate_eq_none_iff.mp located
      exact missing i (sound.sound.home i _ c held) _ c held (CString.CasePrefix.refl _)
  | some j =>
      obtain ⟨⟨q, d, found, _⟩, _⟩ := hashtableLocate_eq_some_iff.mp located
      rw [hashtableExists, hashtableGet_of_located located found] at absent
      cases absent

theorem ClientsSound.connect {cb : ClosureRef} {link : Link} {client : SolClient}
    {clients : HashTable ClientRef} (sound : ClientsSound v)
    (absent : hashtableExists v.clients client.clientId = false)
    (returns : PutReturns v.clients client.clientId v.clientHeap.next clients) :
    ClientsSound (v.connect clients cb link client) := by
  have fresh {e : CString × ClientRef} (member : e ∈ v.clients.contents) :
      e.2 < v.clientHeap.next := by
    obtain ⟨_, live, _⟩ := sound.live e member
    exact Heap.lt_next live
  obtain ⟨kept, perm, sublist⟩ := returns.contents_subperm
  refine ⟨sound.sound.put returns, fun e member => ?_, ?_, ?_, returns.load,
    ⟨sound.indexed.names, sound.indexed.counted⟩⟩
  · show ∃ client', (v.clientHeap.alloc client).get? e.2 = some client' ∧ client'.clientId = e.1
    obtain rfl | old := returns.mem_contents member
    · exact ⟨client, by rw [Heap.get?_alloc, if_pos rfl], rfl⟩
    · obtain ⟨client', live, own⟩ := sound.live e old
      exact ⟨client', Heap.get?_alloc_of_live live, own⟩
  · have apart : (v.clientHeap.next :: v.clients.contents.map Prod.snd).Nodup := by
      refine List.nodup_cons.mpr ⟨fun member => ?_, sound.apart⟩
      obtain ⟨e, old, same⟩ := List.mem_map.mp member
      exact (fresh old).ne same
    exact (perm.map Prod.snd).nodup_iff.mp ((sublist.map Prod.snd).nodup apart)
  · have once : (client.clientId :: v.clients.contents.map Prod.fst).Nodup :=
      List.nodup_cons.mpr ⟨sound.not_mem_of_absent absent, sound.once⟩
    exact (perm.map Prod.fst).nodup_iff.mp ((sublist.map Prod.fst).nodup once)

theorem ClientsSound.effect (sound : ClientsSound b.view) (effect : Effect fuel b event v) :
    ClientsSound v := by
  have indexed := (effect.grows sound.indexed).1
  cases effect with
  | accepted => exact sound.of_same rfl rfl indexed
  | quiet => exact sound
  | @left _ closure _ _ _ client | @refused _ closure =>
      obtain ⟨closures, links, after⟩ :=
        View.dropClosure_frame (b.view.dropClient _) closure.closureId
      rw [after] at indexed ⊢
      exact (sound.drop _).of_same rfl rfl indexed
  | connected live reads given free put => exact sound.connect free (putReturns_of_keyTable put)
  | subscribed live reads isObj held same rounds =>
      obtain ⟨topics, topicHeap, after⟩ := subscribeTuples_view same rounds
      rw [after] at indexed ⊢
      exact sound.of_same rfl rfl indexed
  | published =>
      obtain ⟨topics, topicHeap, after⟩ := b.view.createTopic_frame _
      rw [after] at indexed ⊢
      exact sound.of_same rfl rfl indexed

/-- A deletion keeps all subscribers registered exactly if it finds none of them. -/
theorem subscribersRegistered_drop_iff {key key' : CString} (all : SubscribersRegistered v) :
    SubscribersRegistered ((v.dropClient key).dropClosure key') ↔ DeletesNoSubscriber v key := by
  obtain ⟨_, _, first⟩ := v.dropClient_frame key
  obtain ⟨_, _, second⟩ := (v.dropClient key).dropClosure_frame key'
  have holds (name : CString) (sub : Subscriber) :
      ((v.dropClient key).dropClosure key').Holds name sub ↔ v.Holds name sub := by
    rw [second, first]
    exact holds_congr rfl rfl name sub
  have registered (c : ClientRef) : Registered ((v.dropClient key).dropClosure key') c ↔
      Registered (v.dropClient key) c := by
    rw [second]
    exact registered_congr rfl rfl c
  simp only [SubscribersRegistered, holds, registered, registered_drop_iff]
  constructor
  · rintro kept i q c located held ⟨name, qos, holds⟩
    exact (kept name _ holds).2 i q located held
  · intro kept name sub holds
    refine ⟨all name sub holds, fun i q located held => ?_⟩
    exact kept i q sub.client located held ⟨name, sub.qos, holds⟩

/-- Only the entry at its place is lost to a put without a rebuild. -/
theorem ClientsSound.mem_place_iff {i : Nat} {key : CString} (sound : ClientsSound v)
    (hash : hashtableHash v.clients key = some i) {e : CString × ClientRef}
    (member : e ∈ v.clients.contents) :
    e ∈ (v.clients.place i key v.clientHeap.next).contents ↔ v.clients.at? i ≠ some e := by
  have within := sound.sound.hash_lt hash
  obtain ⟨_, live, _⟩ := sound.live e member
  have old : e ≠ (key, v.clientHeap.next) := by
    rintro rfl
    exact (Heap.lt_next live).ne rfl
  constructor
  · intro kept here
    obtain ⟨j, held⟩ := HashTable.mem_contents.mp kept
    rw [HashTable.at?_place within] at held
    split at held
    · exact old (Option.some.inj held).symm
    · rename_i elsewhere
      -- the same entry at two positions would be there twice
      have again : e ∈ (v.clients.clear i).contents := by
        refine HashTable.mem_contents.mpr ⟨j, ?_⟩
        rw [HashTable.at?_clear within, if_neg elsewhere, held]
      exact (apart_clear sound.apart here).1 (List.mem_map_of_mem again)
  · intro other
    obtain ⟨j, held⟩ := HashTable.mem_contents.mp member
    refine HashTable.mem_contents.mpr ⟨j, ?_⟩
    rw [HashTable.at?_place within, if_neg, held]
    rintro rfl
    exact other held

/-- No subscriber's entry is lost where the condition is met. -/
theorem OverwritesNoSubscriber.mem_contents {key : CString} {clients : HashTable ClientRef}
    (none_ : OverwritesNoSubscriber v key) (sound : ClientsSound v)
    (absent : hashtableExists v.clients key = false)
    (returns : PutReturns v.clients key v.clientHeap.next clients) :
    ∀ e ∈ v.clients.contents, Subscribed v e.2 → e ∈ clients.contents := by
  rintro ⟨q, c⟩ member subscribed
  rw [OverwritesNoSubscriber] at none_
  cases hash : hashtableHash v.clients key with
  | some i =>
      obtain ⟨j, found, rfl⟩ | ⟨full, _⟩ := returns.cases
      · obtain rfl := Option.some.inj (hash.symm.trans found)
        rw [hash] at none_
        exact (sound.mem_place_iff hash member).mpr fun held => none_ q c held subscribed
      · rw [full] at hash
        cases hash
  | none =>
      have other : key ≠ q := by
        rintro rfl
        exact sound.not_mem_of_absent absent (List.mem_map_of_mem member)
      have last := lastValue_of_mem sound.once member
      rw [hash] at none_
      obtain aloof | told := none_ (q, c) member subscribed
      · obtain ⟨entry, single⟩ := exists_single (once_of_nodup sound.once q)
        obtain ⟨single', _⟩ := single.put_of_aloof sound.sound returns other aloof
        have own := (single.held c).mpr (HashTable.mem_contents.mp member)
        exact HashTable.mem_contents.mpr ((single'.held c).mp own)
      · rw [← told.lastValue_eq sound.sound sound.load hash returns other] at last
        exact mem_of_lastValue last

/-- Where none is lost, the condition is met, unless a client that is not subscribed may have
been lost in a rebuild. -/
theorem overwritesNoSubscriber_of_mem {key : CString} {clients : HashTable ClientRef}
    (sound : ClientsSound v) (absent : hashtableExists v.clients key = false)
    (returns : PutReturns v.clients key v.clientHeap.next clients)
    (kept : ∀ e ∈ v.clients.contents, Subscribed v e.2 → e ∈ clients.contents)
    (all : hashtableHash v.clients key = none → ∀ e ∈ v.clients.contents, Subscribed v e.2) :
    OverwritesNoSubscriber v key := by
  rw [OverwritesNoSubscriber]
  cases hash : hashtableHash v.clients key with
  | some i =>
      obtain ⟨j, found, rfl⟩ | ⟨full, _⟩ := returns.cases
      · obtain rfl := Option.some.inj (hash.symm.trans found)
        intro q c held subscribed
        have member := HashTable.mem_contents.mpr ⟨i, held⟩
        exact (sound.mem_place_iff hash member).mp (kept (q, c) member subscribed) held
      · rw [full] at hash
        cases hash
  | none =>
      have once : (v.clients.queue key).Nodup :=
        HashTable.nodup_queue_iff.mpr ⟨sound.once, sound.not_mem_of_absent absent⟩
      have told : TellsApart v.clients key := by
        refine (returns.tellsApart_iff sound.sound sound.load hash once).mpr fun q queued => ?_
        obtain stored | new := List.mem_append.mp queued
        · obtain ⟨e, member, rfl⟩ := List.mem_map.mp stored
          exact List.mem_map_of_mem (kept e member (all hash e member))
        · obtain rfl := List.mem_singleton.mp new
          exact List.mem_map_of_mem (returns.mem_self sound.sound)
      exact fun _ _ _ => .inr told

/-- A new client keeps all subscribers registered exactly if all their entries are still there. -/
theorem subscribersRegistered_connect_iff {cb : ClosureRef} {link : Link} {client : SolClient}
    {clients : HashTable ClientRef} (sound : ClientsSound v) (all : SubscribersRegistered v) :
    SubscribersRegistered (v.connect clients cb link client) ↔
      ∀ e ∈ v.clients.contents, Subscribed v e.2 → e ∈ clients.contents := by
  constructor
  · rintro kept ⟨q, c⟩ member ⟨name, qos, holds⟩
    obtain ⟨client', live, stored⟩ := kept name ⟨qos, c⟩ holds
    obtain ⟨old, live', own⟩ := sound.live (q, c) member
    change (v.clientHeap.alloc client).get? c = some client' at live
    rw [Heap.get?_alloc_of_live live'] at live
    rw [← Option.some.inj live, own] at stored
    exact stored
  · intro kept name sub holds
    obtain ⟨client', live, stored⟩ := all name sub holds
    exact ⟨client', Heap.get?_alloc_of_live live, kept _ stored ⟨name, sub.qos, holds⟩⟩

/-- A SUBSCRIBE keeps all subscribers registered exactly if its client is, or asks for nothing. -/
theorem subscribersRegistered_subscribe_iff {cb : ClosureRef} {closure : Closure}
    {pkt : MqttSubscribe} {results : List Int} {obj : ClientRef} {b₁ : Broker HashTable}
    {st : SubscribeState HashTable} (sound : ClientsSound b.view)
    (all : SubscribersRegistered b.view) (live : b.closureHeap.get? cb = some closure)
    (isObj : closure.obj = some obj) (same : b₁.view = b.view)
    (rounds : (pkt.tuples.take pkt.tuplesLen.toNat).foldlM (subscribeTuple obj) { broker := b₁ } =
      .ok st)
    (grown : b.view.Grows
      (fun sub => Subscribes b (.ready cb (.request (.subscribe pkt)) results) sub.client)
      st.broker.view) :
    SubscribersRegistered st.broker.view ↔
      (pkt.tuples.take pkt.tuplesLen.toNat ≠ [] → Registered b.view obj) := by
  obtain ⟨topics, topicHeap, after⟩ := subscribeTuples_view same rounds
  have registered (c : ClientRef) : Registered st.broker.view c ↔ Registered b.view c := by
    rw [after]
    exact registered_congr rfl rfl c
  constructor
  · intro kept some_
    obtain ⟨tuple, member⟩ := List.exists_mem_of_ne_nil _ some_
    obtain ⟨topic, _, _, _, holds⟩ := (subscribeTuples_grow rounds).2 tuple member
    have indexed : b₁.view.Indexed := same ▸ sound.indexed
    exact (registered obj).mp (kept topic _ (holds indexed))
  · intro keeps name sub holds
    refine (registered _).mpr ?_
    obtain subscribes | old := holds.of_grown sound.indexed grown
    · obtain ⟨cb', pkt', results', closure', event, live', _, obj', some_⟩ := subscribes
      cases event
      obtain rfl := Option.some.inj (live.symm.trans live')
      obtain rfl := Option.some.inj (isObj.symm.trans obj')
      exact keeps some_
    · exact all name sub old

theorem subscribersRegistered_createTopic (sound : ClientsSound v) (all : SubscribersRegistered v)
    (topic : CString) : SubscribersRegistered (v.createTopic topic) := by
  intro name sub holds
  obtain ⟨topics, topicHeap, after⟩ := v.createTopic_frame topic
  have registered : Registered (v.createTopic topic) sub.client ↔ Registered v sub.client := by
    rw [after]
    exact registered_congr rfl rfl _
  refine registered.mpr ?_
  obtain none_ | old := holds.of_grown sound.indexed (View.grows_createTopic _ _)
  · exact none_.elim
  · exact all name sub old

/-- An event that meets its condition keeps all subscribers registered, and only such an event
does, apart from a rebuild that may lose others. -/
theorem subscribersRegistered_effect (sound : ClientsSound b.view)
    (all : SubscribersRegistered b.view) (effect : Effect fuel b event v) :
    (KeepsSubscribers b event → SubscribersRegistered v) ∧
      (SubscribersRegistered v → KeepsSubscribers b event ∨ RebuildsWithOthers b event) := by
  suffices exact : (SubscribersRegistered v ↔ KeepsSubscribers b event) ∨
      (KeepsSubscribers b event → SubscribersRegistered v) ∧
        (SubscribersRegistered v → KeepsSubscribers b event ∨ RebuildsWithOthers b event) by
    obtain exact | both := exact
    · exact ⟨exact.mpr, fun kept => .inl (exact.mp kept)⟩
    · exact both
  have grown := effect.grows
  cases effect with
  | accepted => exact .inl (iff_of_true all trivial)
  | @quiet cb closure input results live silent =>
      refine .inl (iff_of_true all ?_)
      intro closure' live' reads
      obtain rfl := Option.some.inj (live.symm.trans live')
      obtain writes | rfl | ⟨pkt, rfl⟩ := silent
      · rw [reads] at writes
        cases writes
      · trivial
      · trivial
  | @left cb closure input results c client live reads leaves obj held =>
      exact .inl ((subscribersRegistered_drop_iff all).trans
        (keepsSubscribers_left_iff live reads leaves obj held).symm)
  | @refused cb closure pkt block results live reads given found =>
      have exists_ : hashtableExists b.clients (cstr block) = true := found
      rw [keepsSubscribers_connect_iff live reads given, if_pos exists_]
      exact .inl (subscribersRegistered_drop_iff all)
  | @connected cb closure pkt block results status clients live reads given free put =>
      have absent : ¬ hashtableExists b.clients (cstr block) = true := Bool.eq_false_iff.mp free
      have returns := putReturns_of_keyTable put
      rw [keepsSubscribers_connect_iff live reads given, if_neg absent,
        subscribersRegistered_connect_iff sound all]
      refine .inr ⟨fun none_ => none_.mem_contents sound free returns, fun kept => ?_⟩
      by_cases others : RebuildsWithOthers b (.ready cb (.request (.connect pkt)) results)
      · exact .inr others
      · refine .inl (overwritesNoSubscriber_of_mem sound free returns kept fun full e member => ?_)
        by_contra free
        exact others ⟨block, given, full, e, member, free⟩
  | @subscribed cb closure pkt results obj c b₁ st live reads isObj held same rounds =>
      rw [keepsSubscribers_subscribe_iff live reads isObj]
      exact .inl (subscribersRegistered_subscribe_iff sound all live isObj same rounds grown)
  | @published _ _ _ _ _ _ topic =>
      exact .inl (iff_of_true (subscribersRegistered_createTopic sound all topic)
        fun _ _ _ => trivial)

end Events

/-! ## Runs -/

theorem clientsSound_startServer : ClientsSound (startServer : Broker HashTable).view := by
  have indexed := indexed_startServer (T := HashTable)
  obtain ⟨topics, topicHeap, same⟩ := startServer_view (T := HashTable)
  rw [same] at indexed ⊢
  have empty : (hashtableCreate : HashTable ClientRef).contents = [] := by decide
  refine ⟨sound_zeroed (by decide), fun e member => ?_, ?_, ?_, Nat.zero_le _, indexed⟩
  · change e ∈ (hashtableCreate : HashTable ClientRef).contents at member
    rw [empty] at member
    cases member
  all_goals
    show ((hashtableCreate : HashTable ClientRef).contents.map _).Nodup
    rw [empty]
    exact List.nodup_nil

theorem clientsSound_step {b b' : Broker HashTable} {event : Event} (sound : ClientsSound b.view)
    (step : BrokerStep b event b') : ClientsSound b'.view := by
  obtain ⟨_, fuel, run⟩ := step
  exact sound.effect (dispatch_effect run)

/-- A run whose events all meet the condition visits only states with all subscribers registered,
and where it visits no other state, its events do, apart from rebuilds that may lose others. -/
theorem subscribersRegistered_throughout {tr : List (Broker HashTable × Event)}
    {b : Broker HashTable} (run : Run BrokerStep startServer tr b) :
    ((∀ visit ∈ tr, KeepsSubscribers visit.1 visit.2) →
        (∀ visit ∈ tr, SubscribersRegistered visit.1.view) ∧ SubscribersRegistered b.view) ∧
      ((∀ visit ∈ tr, SubscribersRegistered visit.1.view) ∧ SubscribersRegistered b.view →
        ∀ visit ∈ tr, KeepsSubscribers visit.1 visit.2 ∨ RebuildsWithOthers visit.1 visit.2) := by
  refine @Run.invariant_between _ _ BrokerStep startServer (fun b => ClientsSound b.view)
    (fun b => SubscribersRegistered b.view) KeepsSubscribers
    (fun b event => KeepsSubscribers b event ∨ RebuildsWithOthers b event) clientsSound_startServer
    (fun _ _ _ sound step => clientsSound_step sound step)
    (fun name sub holds => absurd holds (holds_startServer name sub)) ?_ ?_ tr b run
  · intro b event b' sound all step
    obtain ⟨_, fuel, run⟩ := step
    exact (subscribersRegistered_effect sound all (dispatch_effect run)).1
  · intro b event b' sound all step
    obtain ⟨_, fuel, run⟩ := step
    exact (subscribersRegistered_effect sound all (dispatch_effect run)).2

/-! ## A subscriber that leaves -/

def subscribeTo (c qos : UInt8) : MqttSubscribe where
  header := ⟨0x82⟩
  pktId := 1
  tuplesLen := 1
  tuples := [⟨1, [c], qos⟩]

/-- A client connects, subscribes to `t` and disconnects, each reply being written. -/
def subscribeAndLeave : List Event :=
  [.accept 5 (uuidOf 0), .ready 0 (.request (.connect (connectAs 97))) [], .ready 0 .dropped [],
    .ready 0 (.request (.subscribe (subscribeTo 116 0))) [], .ready 0 .dropped [],
    .ready 0 (.request .disconnect) []]

theorem replay_subscribeAndLeave :
    (replay brokerNext (startServer : Broker HashTable) subscribeAndLeave).map (fun r =>
      (((trieFind r.2.topics (literal "t/")).bind fun t => r.2.topicHeap[t]?).map fun topic =>
        topic.subscribers.nodes, r.2.clientHeap.get? 0)) = some (some [⟨0, 0⟩], none) := by
  decide +kernel

/-- The topic keeps its subscriber, whose client is gone. -/
theorem run_subscribeAndLeave : ∃ tr b, Run BrokerStep (startServer : Broker HashTable) tr b ∧
    tr.map Prod.snd = subscribeAndLeave ∧ ¬ SubscribersRegistered b.view := by
  obtain ⟨tr, b, run, labels, facts⟩ :=
    Run.of_replay_map (fun _ _ _ => brokerNext_step) replay_subscribeAndLeave
  refine ⟨tr, b, run, labels, fun all => ?_⟩
  simp only [Prod.mk.injEq, Option.map_eq_some_iff, Option.bind_eq_some_iff] at facts
  obtain ⟨⟨topic, ⟨t, found, held⟩, nodes⟩, gone⟩ := facts
  have member : (⟨0, 0⟩ : Subscriber) ∈ topic.subscribers.nodes := by
    rw [nodes]
    exact List.mem_singleton_self _
  obtain ⟨client, live, _⟩ := all (literal "t/") ⟨0, 0⟩ ⟨t, topic, found, held, member⟩
  change b.clientHeap.get? 0 = some client at live
  rw [gone] at live
  cases live

theorem subscribeAndLeave_not_registered :
    ¬ ∀ tr b, Run BrokerStep (startServer : Broker HashTable) tr b →
      SubscribersRegistered b.view := by
  intro always
  obtain ⟨tr, b, run, _, dangling⟩ := run_subscribeAndLeave
  exact dangling (always tr b run)

/-- The DISCONNECT deletes a client that is subscribed. -/
theorem subscribeAndLeave_drops_subscriber :
    ∃ tr b, Run BrokerStep (startServer : Broker HashTable) tr b ∧
      tr.map Prod.snd = subscribeAndLeave ∧ ¬ ∀ visit ∈ tr, KeepsSubscribers visit.1 visit.2 := by
  obtain ⟨tr, b, run, labels, dangling⟩ := run_subscribeAndLeave
  refine ⟨tr, b, run, labels, fun keeps => ?_⟩
  exact dangling ((subscribersRegistered_throughout run).1 keeps).2

end SolBroker
