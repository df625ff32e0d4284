import Mathlib
import SolBroker.Lib.Index
import SolBroker.Lib.Run
import SolBroker.Broker.Effect

/-!
# Closures and their clients

The broker over exact tables. Which closures and clients are registered, under which
id, and on which descriptor stays in order whatever happens. That the client of a
registered closure still exists does not: a CONNECT under an id that is registered
already destroys the client of that id, not its own, and a second connection keeps
the pointer. A run stays clear of this exactly if no CONNECT takes the client away
from another connection.
-/

namespace SolBroker

open Transition

/-- Every registered closure is there under its own id; the client it points to is
registered under its own id and has the descriptor of the closure; and no two
registered closures share a client. -/
structure Attached (b : Broker KeyMap) : Prop where
  client : ∀ id cb, b.closures.lookup id = some cb →
    ∃ closure, b.closureHeap.get? cb = some closure ∧ closure.closureId = id ∧
      ∀ c, closure.obj = some c → ∃ client, b.clientHeap.get? c = some client ∧
        b.clients.lookup client.clientId = some c ∧ client.fd = closure.fd
  unshared : ∀ id id' cb cb' closure closure' c, b.closures.lookup id = some cb →
    b.closures.lookup id' = some cb' → b.closureHeap.get? cb = some closure →
    b.closureHeap.get? cb' = some closure' → closure.obj = some c → closure'.obj = some c →
    cb = cb'

/-- A CONNECT whose id is registered is sent by the connection of that client, if by
any: no other registered closure points to it. -/
def NoTakeover (b : Broker KeyMap) : Event → Prop
  | .ready cb (.request (.connect pkt)) _ =>
      ∀ closure block c, b.closureHeap.get? cb = some closure → closure.call = .onRead →
        pkt.payload.clientId = some block → b.clients.lookup (cstr block) = some c →
        ∀ id cb' closure', b.closures.lookup id = some cb' →
          b.closureHeap.get? cb' = some closure' → closure'.obj = some c → cb' = cb
  | _ => True

/-! ## What always holds -/

/-- The tables index what exists, and the links agree with them. -/
structure Tied (v : View KeyMap) : Prop where
  closures : Indexes v.closures (Option.map Link.closureId ∘ v.links)
  clients : Indexes v.clients (Option.map SolClient.clientId ∘ v.clientHeap.get?)
  unused : ∀ cb, v.nextClosure ≤ cb → v.links cb = none
  known : ∀ cb link c, v.links cb = some link → link.obj = some c → c < v.clientHeap.next
  owner : ∀ cb link c client, v.links cb = some link → link.obj = some c →
    v.clientHeap.get? c = some client → client.fd = link.fd
  unshared : ∀ cb cb' link link' c, v.links cb = some link → v.links cb' = some link' →
    link.obj = some c → link'.obj = some c → cb = cb'

/-- The client a closure points to has not been destroyed. -/
def HasClient (v : View KeyMap) : Prop :=
  ∀ cb link c, v.links cb = some link → link.obj = some c →
    ∃ client, v.clientHeap.get? c = some client

namespace Tied

variable {v : View KeyMap} {cb : ClosureRef} {link : Link} {c : ClientRef} {client : SolClient}
  (tied : Tied v)
include tied

theorem closure_registered (linked : v.links cb = some link) :
    v.closures.lookup link.closureId = some cb := by
  apply (tied.closures _ _).mpr
  rw [Function.comp_apply, linked]
  rfl

theorem client_registered (held : v.clientHeap.get? c = some client) :
    v.clients.lookup client.clientId = some c := by
  apply (tied.clients _ _).mpr
  rw [Function.comp_apply, held]
  rfl

theorem closure_of_registered {id : CString} (registered : v.closures.lookup id = some cb) :
    ∃ link, v.links cb = some link ∧ link.closureId = id :=
  Option.map_eq_some_iff.mp ((tied.closures id cb).mp registered)

/-- The topics play no part. -/
theorem topics (topics : Trie TopicRef) (topicHeap : List Topic) :
    Tied { v with topics, topicHeap } :=
  ⟨tied.closures, tied.clients, tied.unused, tied.known, tied.owner, tied.unshared⟩

theorem accept (fd : Int) {uuid : CString}
    (fresh : ∀ cb link, v.links cb = some link → link.closureId ≠ uuid) :
    Tied (v.accept (v.closures.insert uuid v.nextClosure) fd uuid) := by
  have links : (v.accept (v.closures.insert uuid v.nextClosure) fd uuid).links =
      Function.update v.links v.nextClosure (some ⟨fd, none, uuid⟩) := rfl
  have old {cb : ClosureRef} {link : Link} {c : ClientRef}
      (linked : (v.accept (v.closures.insert uuid v.nextClosure) fd uuid).links cb = some link)
      (obj : link.obj = some c) : v.links cb = some link := by
    rw [links, Function.update_apply] at linked
    split at linked
    · cases linked
      cases obj
    · exact linked
  refine ⟨?_, tied.clients, fun cb beyond => ?_,
    fun cb link c linked obj => tied.known cb link c (old linked obj) obj,
    fun cb link c client linked obj => tied.owner cb link c client (old linked obj) obj,
    fun cb cb' link link' c linked linked' obj obj' =>
      tied.unshared cb cb' link link' c (old linked obj) (old linked' obj') obj obj'⟩
  · rw [links, Function.comp_update]
    refine tied.closures.insert (fun cb named => ?_) ?_
    · obtain ⟨link, linked, own⟩ := Option.map_eq_some_iff.mp named
      exact fresh cb link linked own
    · rw [Function.comp_apply, tied.unused _ (le_refl _)]
      rfl
  · have above : v.nextClosure < cb := beyond
    rw [links, Function.update_of_ne above.ne']
    exact tied.unused cb above.le

theorem connect (linked : v.links cb = some link) (own : client.fd = link.fd)
    (free : v.clients.lookup client.clientId = none) :
    Tied (v.connect (v.clients.insert client.clientId v.clientHeap.next) cb link client) := by
  have links :
      (v.connect (v.clients.insert client.clientId v.clientHeap.next) cb link client).links =
      Function.update v.links cb (some { link with obj := some v.clientHeap.next }) := rfl
  have heap : (v.connect (v.clients.insert client.clientId v.clientHeap.next) cb link
      client).clientHeap = v.clientHeap.alloc client := rfl
  have cases {cb' : ClosureRef} {link' : Link} {c : ClientRef}
      (linked' : Function.update v.links cb (some { link with obj := some v.clientHeap.next }) cb' =
        some link') (obj : link'.obj = some c) :
      (cb' = cb ∧ c = v.clientHeap.next ∧ link'.fd = link.fd) ∨
        (v.links cb' = some link' ∧ c < v.clientHeap.next) := by
    rw [Function.update_apply] at linked'
    split at linked'
    · rename_i here
      cases linked'
      exact .inl ⟨here, (Option.some.inj obj).symm, rfl⟩
    · exact .inr ⟨linked', tied.known _ _ _ linked' obj⟩
  refine ⟨?_, ?_, fun cb' beyond => ?_, fun cb' link' c linked' obj => ?_,
    fun cb' link' c client' linked' obj held => ?_,
    fun cb₁ cb₂ link₁ link₂ c linked₁ linked₂ obj₁ obj₂ => ?_⟩
  · rw [links, Function.comp_update]
    have same : (Option.map Link.closureId ∘ v.links) cb = some link.closureId := by
      rw [Function.comp_apply, linked]
      rfl
    rw [Option.map_some, ← same, Function.update_eq_self]
    exact tied.closures
  · rw [heap, Heap.get?_alloc_eq, Function.comp_update]
    refine tied.clients.insert (fun c named => ?_) ?_
    · rw [(tied.clients _ c).mpr named] at free
      cases free
    · rw [Function.comp_apply, Heap.get?_next]
      rfl
  · have elsewhere : cb' ≠ cb := by
      rintro rfl
      rw [tied.unused _ beyond] at linked
      cases linked
    rw [links, Function.update_of_ne elsewhere]
    exact tied.unused cb' beyond
  · rw [heap, Heap.next_alloc]
    obtain ⟨_, new, _⟩ | ⟨_, old⟩ := cases linked' obj
    · exact Nat.lt_succ_of_le new.le
    · exact Nat.lt_succ_of_lt old
  · rw [heap, Heap.get?_alloc] at held
    obtain ⟨_, new, fd⟩ | ⟨linked', old⟩ := cases linked' obj
    · rw [if_pos new] at held
      cases held
      exact own.trans fd.symm
    · rw [if_neg old.ne] at held
      exact tied.owner cb' link' c client' linked' obj held
  · obtain ⟨here₁, new₁, _⟩ | ⟨linked₁, old₁⟩ := cases linked₁ obj₁ <;>
      obtain ⟨here₂, new₂, _⟩ | ⟨linked₂, old₂⟩ := cases linked₂ obj₂
    · exact here₁.trans here₂.symm
    · exact absurd new₁ old₂.ne
    · exact absurd new₂ old₁.ne
    · exact tied.unshared cb₁ cb₂ link₁ link₂ c linked₁ linked₂ obj₁ obj₂

/-- Dropping a registered client and a closure. -/
theorem drop_eq {key : CString} (found : v.clients.lookup key = some c)
    (linked : v.links cb = some link) :
    (v.dropClient key).dropClosure link.closureId =
      { v.setLink cb none with
        clients := v.clients.erase key
        clientHeap := v.clientHeap.free c
        closures := v.closures.erase link.closureId } := by
  simp only [View.dropClient, View.dropClosure, KeyTable.del, found, tied.closure_registered linked]
  rfl

theorem drop {key : CString} (found : v.clients.lookup key = some c)
    (linked : v.links cb = some link) :
    Tied ((v.dropClient key).dropClosure link.closureId) := by
  rw [tied.drop_eq found linked]
  have still {cb' : ClosureRef} {link' : Link}
      (linked' : Function.update v.links cb none cb' = some link') : v.links cb' = some link' := by
    rw [Function.update_apply] at linked'
    split at linked'
    · cases linked'
    · exact linked'
  refine ⟨?_, ?_, fun cb' beyond => ?_, fun cb' link' c' linked' obj => ?_,
    fun cb' link' c' client' linked' obj held => ?_,
    fun cb₁ cb₂ link₁ link₂ c' linked₁ linked₂ =>
      tied.unshared cb₁ cb₂ link₁ link₂ c' (still linked₁) (still linked₂)⟩
  · show Indexes _ (_ ∘ Function.update v.links cb none)
    rw [Function.comp_update]
    apply tied.closures.erase
    rw [Function.comp_apply, linked]
    rfl
  · show Indexes _ (_ ∘ (v.clientHeap.free c).get?)
    rw [Heap.get?_free_eq, Function.comp_update]
    exact tied.clients.erase ((tied.clients key c).mp found)
  · show Function.update v.links cb none cb' = none
    rw [Function.update_apply, tied.unused cb' beyond, ite_self]
  · show c' < (v.clientHeap.free c).next
    rw [Heap.next_free]
    exact tied.known cb' link' c' (still linked') obj
  · change (v.clientHeap.free c).get? c' = some client' at held
    rw [Heap.get?_free] at held
    split at held
    · cases held
    · exact tied.owner cb' link' c' client' (still linked') obj held

/-- After a drop every closure still has its client, unless the client was another's. -/
theorem hasClient_drop_iff {key : CString} (found : v.clients.lookup key = some c)
    (linked : v.links cb = some link) (hasClient : HasClient v) :
    HasClient ((v.dropClient key).dropClosure link.closureId) ↔
      ∀ cb' link', v.links cb' = some link' → link'.obj = some c → cb' = cb := by
  rw [tied.drop_eq found linked]
  show (∀ cb' link' c', Function.update v.links cb none cb' = some link' → link'.obj = some c' →
    ∃ client, (v.clientHeap.free c).get? c' = some client) ↔ _
  constructor
  · intro kept cb' link' linked' obj
    by_contra other
    rw [← Function.update_of_ne other none v.links] at linked'
    obtain ⟨client, held⟩ := kept cb' link' c linked' obj
    rw [Heap.get?_free, if_pos rfl] at held
    cases held
  · intro alone cb' link' c' linked' obj
    rw [Function.update_apply] at linked'
    split at linked'
    · cases linked'
    · rename_i other
      obtain ⟨client, held⟩ := hasClient cb' link' c' linked' obj
      refine ⟨client, ?_⟩
      rw [Heap.get?_free, if_neg, held]
      rintro rfl
      exact other (alone cb' link' linked' obj)

end Tied

theorem HasClient.accept {v : View KeyMap} (hasClient : HasClient v) (closures : KeyMap ClosureRef)
    (fd : Int) (uuid : CString) : HasClient (v.accept closures fd uuid) := by
  intro cb link c linked obj
  change Function.update v.links v.nextClosure (some ⟨fd, none, uuid⟩) cb = some link at linked
  rw [Function.update_apply] at linked
  split at linked
  · cases linked
    cases obj
  · exact hasClient cb link c linked obj

theorem HasClient.connect {v : View KeyMap} (hasClient : HasClient v) (clients : KeyMap ClientRef)
    (cb : ClosureRef) (link : Link) (client : SolClient) :
    HasClient (v.connect clients cb link client) := by
  intro cb' link' c linked obj
  change Function.update v.links cb _ cb' = some link' at linked
  show ∃ client', (v.clientHeap.alloc client).get? c = some client'
  rw [Function.update_apply] at linked
  split at linked
  · cases linked
    cases obj
    exact ⟨client, by rw [Heap.get?_alloc, if_pos rfl]⟩
  · obtain ⟨client', held⟩ := hasClient cb' link' c linked obj
    exact ⟨client', Heap.get?_alloc_of_live held⟩

/-! ## Registered closures -/

section Registered

variable {b : Broker KeyMap} {cb : ClosureRef} {link : Link}

theorem links_eq_some : b.view.links cb = some link ↔
    ∃ closure, b.closureHeap.get? cb = some closure ∧ closure.link = link :=
  Option.map_eq_some_iff

/-- All that can go wrong is that a client is gone. -/
theorem attached_iff_hasClient (tied : Tied b.view) : Attached b ↔ HasClient b.view := by
  constructor
  · intro attached cb link c linked obj
    obtain ⟨closure, live, rfl⟩ := links_eq_some.mp linked
    obtain ⟨closure', live', _, clients⟩ := attached.client _ cb (tied.closure_registered linked)
    obtain rfl := Option.some.inj (live.symm.trans live')
    obtain ⟨client, held, _⟩ := clients c obj
    exact ⟨client, held⟩
  · intro hasClient
    refine ⟨fun id cb registered => ?_, fun id id' cb cb' closure closure' c _ _ live live' => ?_⟩
    · obtain ⟨link, linked, own⟩ := tied.closure_of_registered registered
      obtain ⟨closure, live, rfl⟩ := links_eq_some.mp linked
      refine ⟨closure, live, own, fun c obj => ?_⟩
      obtain ⟨client, held⟩ := hasClient cb _ c linked obj
      exact ⟨client, held, tied.client_registered held,
        tied.owner cb _ c client linked obj held⟩
    · exact tied.unshared cb cb' closure.link closure'.link c (view_links live) (view_links live')

end Registered

/-! ## Steps and runs -/

section Steps

variable {b : Broker KeyMap} {v : View KeyMap} {event : Event} {fuel : Nat}

theorem keyMap_lookup_of_contains {key : CString}
    (found : KeyTable.contains b.clients key = true) : ∃ c, b.view.clients.lookup key = some c :=
  Option.isSome_iff_exists.mp found

theorem keyMap_lookup_of_not_contains {key : CString}
    (free : KeyTable.contains b.clients key = false) : b.view.clients.lookup key = none :=
  Option.not_isSome_iff_eq_none.mp (Bool.eq_false_iff.mp free)

/-- What always holds is kept by every effect. -/
theorem Tied.effect (tied : Tied b.view) (fresh : FreshUuid b event)
    (effect : Effect fuel b event v) : Tied v := by
  cases effect with
  | accepted put =>
      cases put
      apply tied.accept _
      intro cb link linked
      obtain ⟨closure, live, rfl⟩ := links_eq_some.mp linked
      exact fresh.2 cb closure live
  | quiet => exact tied
  | left live _ _ obj held => exact tied.drop (tied.client_registered held) (view_links live)
  | refused live _ _ found =>
      obtain ⟨c, found⟩ := keyMap_lookup_of_contains found
      exact tied.drop found (view_links live)
  | @connected cb closure pkt block _ _ _ live _ _ free put =>
      cases put
      have own : (newClient (cstr block) closure.fd pkt.cleanSession).fd = closure.link.fd := rfl
      exact tied.connect (view_links live) own (keyMap_lookup_of_not_contains free)
  | subscribed _ _ _ _ same rounds =>
      obtain ⟨topics, topicHeap, after⟩ := subscribeTuples_view same rounds
      rw [after]
      exact tied.topics topics topicHeap
  | published =>
      obtain ⟨topics, topicHeap, after⟩ := b.view.createTopic_frame _
      rw [after]
      exact tied.topics topics topicHeap

/-- A step keeps the clients of the closures exactly if it is no takeover. -/
theorem hasClient_effect_iff (tied : Tied b.view) (hasClient : HasClient b.view)
    (effect : Effect fuel b event v) : HasClient v ↔ NoTakeover b event := by
  cases effect with
  | accepted => exact iff_of_true (hasClient.accept _ _ _) trivial
  | @quiet cb closure input results live silent =>
      refine iff_of_true hasClient ?_
      match input with
      | .packetErr | .dropped => trivial
      | .request request =>
          cases request with
          | connect =>
              intro closure' block c live' reads
              obtain rfl := Option.some.inj (live.symm.trans live')
              simp [reads] at silent
          | _ => trivial
  | @left cb closure input results c client live _ leaves obj held =>
      have alone := (tied.hasClient_drop_iff (tied.client_registered held) (view_links live)
        hasClient).mpr fun cb' link' linked' obj' =>
          tied.unshared cb' cb link' _ c linked' (view_links live) obj' obj
      refine iff_of_true alone ?_
      obtain rfl | rfl := leaves <;> trivial
  | @refused cb closure pkt block results live reads given found =>
      obtain ⟨c, found⟩ := keyMap_lookup_of_contains found
      refine (tied.hasClient_drop_iff found (view_links live) hasClient).trans ?_
      constructor
      · intro alone _ block' c' _ _ given' found' id cb' closure' _ live' obj
        obtain rfl := Option.some.inj (given.symm.trans given')
        obtain rfl := Option.some.inj (found.symm.trans found')
        exact alone cb' closure'.link (view_links live') obj
      · intro noTakeover cb' link' linked' obj
        obtain ⟨closure', live', rfl⟩ := links_eq_some.mp linked'
        exact noTakeover closure block c live reads given found closure'.closureId cb' closure'
          (tied.closure_registered linked') live' obj
  | @connected cb closure pkt block results status clients live reads given free put =>
      refine iff_of_true (hasClient.connect _ _ _ _) ?_
      intro _ block' c _ _ given' found
      obtain rfl := Option.some.inj (given.symm.trans given')
      have unregistered := keyMap_lookup_of_not_contains free
      rw [show b.view.clients = b.clients from rfl, found] at unregistered
      cases unregistered
  | subscribed _ _ _ _ same rounds =>
      refine iff_of_true ?_ trivial
      obtain ⟨topics, topicHeap, after⟩ := subscribeTuples_view same rounds
      rw [after]
      exact hasClient
  | published =>
      refine iff_of_true ?_ trivial
      obtain ⟨topics, topicHeap, after⟩ := b.view.createTopic_frame _
      rw [after]
      exact hasClient

end Steps

/-! ## The start -/

theorem tied_startServer : Tied (startServer : Broker KeyMap).view := by
  obtain ⟨topics, topicHeap, same⟩ := startServer_view (T := KeyMap)
  rw [same]
  exact ⟨.empty, .empty, fun _ _ => rfl, nofun, nofun, nofun⟩

theorem hasClient_startServer : HasClient (startServer : Broker KeyMap).view := by
  obtain ⟨topics, topicHeap, same⟩ := startServer_view (T := KeyMap)
  rw [same]
  exact nofun

theorem tied_step {b b' : Broker KeyMap} {event : Event} (tied : Tied b.view)
    (step : BrokerStep b event b') : Tied b'.view := by
  obtain ⟨fresh, fuel, run⟩ := step
  exact tied.effect fresh (dispatch_effect run)

theorem attached_step_iff {b b' : Broker KeyMap} {event : Event} (tied : Tied b.view)
    (attached : Attached b) (step : BrokerStep b event b') : Attached b' ↔ NoTakeover b event := by
  have tied' := tied_step tied step
  obtain ⟨fresh, fuel, run⟩ := step
  have hasClient := (attached_iff_hasClient tied).mp attached
  exact (attached_iff_hasClient tied').trans
    (hasClient_effect_iff tied hasClient (dispatch_effect run))

/-- A run visits attached states only exactly if no CONNECT of it takes the client of
another connection away. -/
theorem attached_throughout_iff {tr : List (Broker KeyMap × Event)} {b : Broker KeyMap}
    (run : Run BrokerStep startServer tr b) :
    ((∀ visit ∈ tr, Attached visit.1) ∧ Attached b) ↔
      ∀ visit ∈ tr, NoTakeover visit.1 visit.2 :=
  @Run.invariant_iff _ _ BrokerStep startServer (fun b => Tied b.view) Attached NoTakeover
    tied_startServer (fun _ _ _ tied step => tied_step tied step)
    ((attached_iff_hasClient tied_startServer).mpr hasClient_startServer)
    (fun _ _ _ tied attached step => attached_step_iff tied attached step) tr b run

/-! ## A takeover -/

/-- The id of the connection with a number of one digit. -/
def uuidOf (n : Nat) : CString :=
  literal ("00000000-0000-4000-8000-00000000000" ++ toString n)

/-- A CONNECT under an id of one letter. -/
def connectAs (c : UInt8) : MqttConnect where
  header := ⟨0x10⟩
  byte := 2
  payload := { clientId := some [c] }

/-- Two connections, and a CONNECT of client `x` on each. -/
def takeover : List Event :=
  [.accept 5 (uuidOf 0), .accept 6 (uuidOf 1), .ready 0 (.request (.connect (connectAs 120))) [],
    .ready 1 (.request (.connect (connectAs 120))) []]

theorem replay_takeover :
    (replay brokerNext (startServer : Broker KeyMap) takeover).map (fun r =>
      (r.2.closures.lookup (uuidOf 0), (r.2.closureHeap.get? 0).bind Closure.obj,
        r.2.clientHeap.get? 0)) = some (some 0, some 0, none) := by
  decide +kernel

/-- The first connection is left with a pointer to a client that is gone. -/
theorem run_takeover : ∃ tr b, Run BrokerStep (startServer : Broker KeyMap) tr b ∧
    tr.map Prod.snd = takeover ∧ ¬ Attached b := by
  obtain ⟨tr, b, run, labels, facts⟩ :=
    Run.of_replay_map (fun _ _ _ => brokerNext_step) replay_takeover
  refine ⟨tr, b, run, labels, fun attached => ?_⟩
  simp only [Prod.mk.injEq, Option.bind_eq_some_iff] at facts
  obtain ⟨registered, ⟨closure, live, obj⟩, gone⟩ := facts
  obtain ⟨closure', live', _, clients⟩ := attached.client _ 0 registered
  obtain rfl := Option.some.inj (live.symm.trans live')
  obtain ⟨client, held, _⟩ := clients 0 obj
  rw [gone] at held
  cases held

theorem takeover_not_attached :
    ¬ ∀ tr b, Run BrokerStep (startServer : Broker KeyMap) tr b → Attached b := by
  intro always
  obtain ⟨tr, b, run, _, detached⟩ := run_takeover
  exact detached (always tr b run)

/-- The last CONNECT is what goes wrong. -/
theorem takeover_takes_over : ∃ tr b, Run BrokerStep (startServer : Broker KeyMap) tr b ∧
    tr.map Prod.snd = takeover ∧ ¬ ∀ visit ∈ tr, NoTakeover visit.1 visit.2 := by
  obtain ⟨tr, b, run, labels, detached⟩ := run_takeover
  exact ⟨tr, b, run, labels, fun none_ => detached ((attached_throughout_iff run).mpr none_).2⟩

end SolBroker
