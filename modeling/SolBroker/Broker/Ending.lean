import Mathlib
import SolBroker.Broker.Objects
import SolBroker.Broker.Unsubscribe

/-!
# How a connection ends

A connection ends by a DISCONNECT, by its peer closing or resetting it, by a packet that is
too large, or by a malformed header. For two of these `on_read` leaves through its plain
exit and does nothing about the connection. The other two delete the client by its id and
follow the pointer to it for that, so they need a client, and they take the wrong one where
the table has another entry that the id stops at first.
-/

namespace SolBroker

open Transition

variable {T : Type → Type}

/-- The ways a connection ends: a DISCONNECT, or a code of `recv_packet`. -/
inductive Ending
  | disconnect
  | clientDC
  | maxReqSize
  | packetErr
deriving DecidableEq, Repr

/-- What `on_read` goes by. -/
def Ending.input : Ending → Input
  | .disconnect => .request .disconnect
  | .clientDC | .maxReqSize => .dropped
  | .packetErr => .packetErr

/-- The connection is gone, and nothing else is. -/
structure CleanedUp (b b' : Broker HashTable) (cb : ClosureRef) (closure : Closure) : Prop where
  closed : b'.closed = b.closed ++ [closure.fd]
  closureGone : ∀ id, (id, cb) ∉ b'.closures.contents
  clientGone : ∀ c, closure.obj = some c → ∀ id, (id, c) ∉ b'.clients.contents
  nclients : b'.info.nclients = b.info.nclients - 1
  closures : ∀ id cb', cb' ≠ cb →
    ((id, cb') ∈ b'.closures.contents ↔ (id, cb') ∈ b.closures.contents) ∧
      b'.closureHeap.get? cb' = b.closureHeap.get? cb'
  clients : ∀ id c, closure.obj ≠ some c →
    ((id, c) ∈ b'.clients.contents ↔ (id, c) ∈ b.clients.contents) ∧
      b'.clientHeap.get? c = b.clientHeap.get? c

/-- The closure has a client, and the id of the client finds no other. -/
def FindsOwn (b : Broker HashTable) (closure : Closure) : Prop :=
  ∃ c client, closure.obj = some c ∧ b.clientHeap.get? c = some client ∧
    ∀ c', hashtableGet b.clients client.clientId = some c' → c' = c

/-! ## Descriptors -/

/-- The client of a closure has the descriptor of the closure. -/
structure Owned (v : View T) : Prop where
  known : ∀ cb link c, v.links cb = some link → link.obj = some c → c < v.clientHeap.next
  fd : ∀ cb link c client, v.links cb = some link → link.obj = some c →
    v.clientHeap.get? c = some client → client.fd = link.fd

section Descriptors

variable {v v' : View T} {b b' : Broker T} {event : Event} {fuel : Nat}

/-- Closures and clients may go. -/
theorem Owned.of_fewer (owned : Owned v)
    (links : ∀ cb link, v'.links cb = some link → v.links cb = some link)
    (next : v'.clientHeap.next = v.clientHeap.next)
    (clients : ∀ c client, v'.clientHeap.get? c = some client → v.clientHeap.get? c = some client) :
    Owned v' where
  known cb link c linked obj := by
    rw [next]
    exact owned.known cb link c (links cb link linked) obj
  fd cb link c client linked obj held :=
    owned.fd cb link c client (links cb link linked) obj (clients c client held)

theorem Owned.accept (owned : Owned v) (closures : T ClosureRef) (fd : Int) (uuid : CString) :
    Owned (v.accept closures fd uuid) := by
  have old {cb : ClosureRef} {link : Link} {c : ClientRef}
      (linked : (v.accept closures fd uuid).links cb = some link) (obj : link.obj = some c) :
      v.links cb = some link := by
    change Function.update v.links v.nextClosure (some ⟨fd, none, uuid⟩) cb = some link at linked
    rw [Function.update_apply] at linked
    split at linked
    · cases linked
      cases obj
    · exact linked
  exact ⟨fun cb link c linked obj => owned.known cb link c (old linked obj) obj,
    fun cb link c client linked obj => owned.fd cb link c client (old linked obj) obj⟩

theorem Owned.connect (owned : Owned v) {clients : T ClientRef} {cb : ClosureRef} {link : Link}
    {client : SolClient} (own : client.fd = link.fd) :
    Owned (v.connect clients cb link client) := by
  have split {cb' : ClosureRef} {link' : Link} {c : ClientRef}
      (linked : (v.connect clients cb link client).links cb' = some link')
      (obj : link'.obj = some c) : (c = v.clientHeap.next ∧ link'.fd = link.fd) ∨
        (v.links cb' = some link' ∧ c < v.clientHeap.next) := by
    change Function.update v.links cb (some { link with obj := some v.clientHeap.next }) cb' =
      some link' at linked
    rw [Function.update_apply] at linked
    split at linked
    · cases linked
      exact .inl ⟨(Option.some.inj obj).symm, rfl⟩
    · exact .inr ⟨linked, owned.known cb' link' c linked obj⟩
  refine ⟨fun cb' link' c linked obj => ?_, fun cb' link' c client' linked obj held => ?_⟩
  · show c < (v.clientHeap.alloc client).next
    rw [Heap.next_alloc]
    obtain ⟨rfl, _⟩ | ⟨_, old⟩ := split linked obj
    · exact Nat.lt_succ_self _
    · exact old.trans (Nat.lt_succ_self _)
  · change (v.clientHeap.alloc client).get? c = some client' at held
    rw [Heap.get?_alloc] at held
    obtain ⟨new, fd⟩ | ⟨linked, old⟩ := split linked obj
    · rw [if_pos new] at held
      cases held
      exact own.trans fd.symm
    · rw [if_neg old.ne] at held
      exact owned.fd cb' link' c client' linked obj held

variable [KeyTable T]

theorem clientHeap_drop (v : View T) (key key' : CString) :
    ((v.dropClient key).dropClosure key').clientHeap = v.clientHeap ∨
      ∃ c, ((v.dropClient key).dropClosure key').clientHeap = v.clientHeap.free c := by
  obtain ⟨closures, links, after⟩ := (v.dropClient key).dropClosure_frame key'
  rw [after, View.dropClient]
  split
  · exact .inl rfl
  · exact .inr ⟨_, rfl⟩

theorem Owned.drop (owned : Owned v) (key key' : CString) :
    Owned ((v.dropClient key).dropClosure key') := by
  obtain same | ⟨c, freed⟩ := clientHeap_drop v key key'
  · refine owned.of_fewer (fun _ _ => links_drop key key') (by rw [same]) fun c client held => ?_
    rwa [same] at held
  · refine owned.of_fewer (fun _ _ => links_drop key key')
      (by rw [freed, Heap.next_free]) fun d client held => ?_
    rw [freed, Heap.get?_free] at held
    split at held
    · cases held
    · exact held

theorem Owned.effect (owned : Owned b.view) (effect : Effect fuel b event v) : Owned v := by
  cases effect with
  | accepted => exact owned.accept _ _ _
  | quiet => exact owned
  | left | refused => exact owned.drop _ _
  | connected => exact owned.connect rfl
  | subscribed _ _ _ _ same rounds =>
      obtain ⟨topics, topicHeap, after⟩ := subscribeTuples_view same rounds
      rw [after]
      exact owned.of_fewer (fun _ _ => id) rfl fun _ _ => id
  | published =>
      obtain ⟨topics, topicHeap, after⟩ := b.view.createTopic_frame _
      rw [after]
      exact owned.of_fewer (fun _ _ => id) rfl fun _ _ => id

theorem owned_startServer : Owned (startServer : Broker T).view := by
  obtain ⟨topics, topicHeap, same⟩ := startServer_view (T := T)
  rw [same]
  exact ⟨nofun, nofun⟩

end Descriptors

/-! ## Deleting a client and a closure -/

section Deleting

variable {b b' : Broker HashTable} {cb : ClosureRef} {closure : Closure} {key : CString}

/-- The tables and the closures of a broker that is reached. -/
structure TablesSound (v : View HashTable) : Prop where
  clients : ClientsSound v
  closures : ClosuresKept v
  owned : Owned v

theorem tablesSound_of_run {tr : List (Broker HashTable × Event)}
    (run : Run BrokerStep startServer tr b) : TablesSound b.view := by
  refine @Run.invariant _ _ BrokerStep startServer (fun b => TablesSound b.view) ?_ ?_ tr b run
  · exact ⟨clientsSound_startServer, closuresKept_startServer, owned_startServer⟩
  · intro b event b' sound step
    obtain ⟨fuel, run⟩ := step.2
    exact ⟨clientsSound_step sound.clients step, closuresKept_step sound.closures step,
      sound.owned.effect (dispatch_effect run)⟩

/-- What the id finds has an entry, and is there to be destroyed. -/
theorem delClient_ok (sound : ClientsSound b.view) (key : CString) :
    ∃ clients clientHeap, delClient b key = .ok { b with clients, clientHeap } := by
  rw [delClient]
  obtain ⟨located, _⟩ | ⟨i, q, c, located, held, _⟩ := b.view.dropClient_hashTable key
  · have del : KeyTable.del b.clients key = (-hashtableErr, b.clients, none) := by
      change hashtableLocate b.clients key = none at located
      show hashtableDel b.clients key = _
      rw [hashtableDel, located]
    rw [del]
    exact ⟨_, _, rfl⟩
  · have del : KeyTable.del b.clients key = (hashtableOk, b.clients.clear i, some (q, c)) := by
      change hashtableLocate b.clients key = some i at located
      change b.clients.at? i = some (q, c) at held
      show hashtableDel b.clients key = _
      simp only [hashtableDel, located, held]
    obtain ⟨client, live, _⟩ := sound.live (q, c) (HashTable.mem_contents.mpr ⟨i, held⟩)
    have found : deref b.clientHeap c = .ok client := deref_eq_ok.mpr live
    rw [del]
    exact ⟨b.clients.clear i, b.clientHeap.free c, bind_eq_ok.mpr ⟨client, found, rfl⟩⟩

theorem delClosure_ok (kept : ClosuresKept b.view) (live : b.closureHeap.get? cb = some closure) :
    ∃ closures, delClosure b closure.closureId =
      .ok { b with closures, closureHeap := b.closureHeap.free cb } := by
  obtain ⟨i, located, held⟩ := kept.located (view_links live)
  have del : KeyTable.del b.closures closure.closureId =
      (hashtableOk, b.closures.clear i, some (closure.closureId, cb)) := by
    change hashtableLocate b.closures closure.closureId = some i at located
    change b.closures.at? i = some (closure.closureId, cb) at held
    show hashtableDel b.closures closure.closureId = _
    simp only [hashtableDel, located, held]
  rw [delClosure, del]
  exact ⟨b.closures.clear i, bind_eq_ok.mpr ⟨closure, deref_eq_ok.mpr live, rfl⟩⟩

/-- A connection can be dropped. -/
theorem dropConnection_ok (sound : TablesSound b.view)
    (live : b.closureHeap.get? cb = some closure) (key : CString) :
    ∃ b', dropConnection b key closure.closureId = .ok b' ∧ b'.closed = b.closed ∧
      b'.info.nclients = b.info.nclients - 1 ∧ b'.closureHeap = b.closureHeap.free cb := by
  obtain ⟨clients, clientHeap, first⟩ := delClient_ok sound.clients key
  have kept : ClosuresKept ({ b with clients, clientHeap } : Broker HashTable).view :=
    sound.closures.of_same rfl rfl rfl
  obtain ⟨closures, second⟩ := delClosure_ok kept live
  exact ⟨_, bind_eq_ok.mpr ⟨_, first, bind_eq_ok.mpr ⟨_, second, rfl⟩⟩, rfl, rfl, rfl⟩

end Deleting

/-! ## The callback -/

section Endings

variable {b b' : Broker HashTable} {cb : ClosureRef} {closure : Closure} {c : ClientRef}
  {client : SolClient} {fuel : Nat} {results : List Int} {ending : Ending}

/-- A DISCONNECT and a malformed header close the descriptor, if it is the client's, and go
on to drop the connection. -/
theorem dispatch_drops (live : b.closureHeap.get? cb = some closure)
    (reads : closure.call = .onRead) (obj : closure.obj = some c)
    (held : b.clientHeap.get? c = some client) (own : client.fd = closure.fd)
    (drops : ending = .disconnect ∨ ending = .packetErr) (fuel : Nat) (results : List Int) :
    ∃ b₁, b₁.view = b.view ∧ b₁.closed = b.closed ++ [closure.fd] ∧
      b₁.info.nclients = b.info.nclients ∧
      b₁.closureHeap = b.closureHeap.write cb { closure with armed := none } ∧
      ∀ b', dropConnection b₁ client.clientId closure.closureId = .ok b' →
        dispatch fuel b (.ready cb ending.input results) = .ok b' := by
  let b₀ := setClosure b cb { closure with armed := none }
  have live₀ : b₀.closureHeap.get? cb = some { closure with armed := none } :=
    get?_setClosure live _
  have view₀ : b₀.view = b.view := view_setClosure_same live rfl
  have found : deref b₀.closureHeap cb = .ok { closure with armed := none } := deref_eq_ok.mpr live₀
  have owner : derefObj b₀.clientHeap closure.obj = .ok (c, client) :=
    derefObj_eq_ok.mpr ⟨obj, held⟩
  rw [dispatch_reading live reads]
  obtain rfl | rfl := drops
  · let counted := { b₀ with info := { b₀.info with bytesRecv := b₀.info.bytesRecv + 1 } }
    refine ⟨closeFd counted closure.fd, view₀, rfl, rfl, rfl, fun b' dropped => ?_⟩
    have handled : disconnectHandler counted cb = .ok (-rearmW, b') := by
      refine bind_eq_ok.mpr ⟨_, found, bind_eq_ok.mpr ⟨(c, client), owner, ?_⟩⟩
      refine bind_eq_ok.mpr ⟨b', ?_, rfl⟩
      rw [own]
      exact dropped
    exact bind_eq_ok.mpr ⟨(-rearmW, b'), handled, rfl⟩
  · refine ⟨closeFd b₀ closure.fd, view₀, rfl, rfl, rfl, fun b' dropped => ?_⟩
    exact bind_eq_ok.mpr ⟨_, found, bind_eq_ok.mpr ⟨(c, client), owner, dropped⟩⟩

/-- What else has an entry under a view's clients, once the client that is found is deleted. -/
theorem ClientsSound.dropClient_own {v : View HashTable} (sound : ClientsSound v)
    (held : v.clientHeap.get? c = some client)
    (own : ∀ c', hashtableGet v.clients client.clientId = some c' → c' = c) :
    (∀ id, (id, c) ∉ (v.dropClient client.clientId).clients.contents) ∧
      ∀ id d, d ≠ c →
        ((id, d) ∈ (v.dropClient client.clientId).clients.contents ↔ (id, d) ∈ v.clients.contents) ∧
          (v.dropClient client.clientId).clientHeap.get? d = v.clientHeap.get? d := by
  obtain ⟨located, same⟩ | ⟨i, q, d, located, held', after⟩ :=
    v.dropClient_hashTable client.clientId
  · rw [same]
    refine ⟨fun id member => ?_, fun _ _ _ => ⟨Iff.rfl, rfl⟩⟩
    obtain ⟨client', live, named⟩ := sound.live (id, c) member
    obtain rfl := Option.some.inj (held.symm.trans live)
    obtain ⟨j, stored⟩ := HashTable.mem_contents.mp member
    obtain rfl : client.clientId = id := named
    -- the entry lies on the path of its key, where the lookup would have stopped
    exact hashtableLocate_eq_none_iff.mp located j (sound.sound.home j _ c stored) _ c stored
      (.refl _)
  · obtain rfl := own d (hashtableGet_of_located located held')
    have perm := contents_clear_perm held'
    have apart := apart_clear sound.apart held'
    rw [after]
    refine ⟨fun id member => apart.1 (List.mem_map.mpr ⟨(id, d), member, rfl⟩),
      fun id e other => ⟨?_, ?_⟩⟩
    · constructor
      · intro member
        exact perm.mem_iff.mpr (List.mem_cons_of_mem _ member)
      · intro member
        obtain same | rest := List.mem_cons.mp (perm.mem_iff.mp member)
        · exact absurd (Prod.mk.inj same).2 other
        · exact rest
    · show (v.clientHeap.free d).get? e = v.clientHeap.get? e
      rw [Heap.get?_free, if_neg other]

/-- The entries of the closures, once one is dropped. -/
theorem ClosuresKept.dropConnection_contents {v : View HashTable} {link : Link}
    (kept : ClosuresKept v)
    (linked : v.links cb = some link) (key : CString) :
    (∀ id, (id, cb) ∉ ((v.dropClient key).dropClosure link.closureId).closures.contents) ∧
      ∀ id cb', cb' ≠ cb →
        ((id, cb') ∈ ((v.dropClient key).dropClosure link.closureId).closures.contents ↔
          (id, cb') ∈ v.closures.contents) := by
  have kept' := kept.dropConnection linked key
  have links := kept.links_dropConnection linked key
  refine ⟨fun id member => ?_, fun id cb' other => ?_⟩
  · obtain ⟨link', linked', _⟩ := kept'.mem_contents_iff.mp member
    rw [links, Function.update_self] at linked'
    cases linked'
  · rw [kept'.mem_contents_iff, kept.mem_contents_iff, links, Function.update_of_ne other]

/-- A connection that is dropped under an id that finds no other client is cleaned up. -/
theorem CleanedUp.of_drop (sound : TablesSound b.view)
    (live : b.closureHeap.get? cb = some closure) (reads : closure.call = .onRead)
    (obj : closure.obj = some c) (held : b.clientHeap.get? c = some client)
    (own : ∀ c', hashtableGet b.clients client.clientId = some c' → c' = c)
    (drops : ending = .disconnect ∨ ending = .packetErr) :
    ∃ b', dispatch fuel b (.ready cb ending.input results) = .ok b' ∧
      CleanedUp b b' cb closure := by
  have linked := view_links live
  obtain ⟨b₁, view₁, closed₁, nclients₁, heap₁, handled⟩ := dispatch_drops live reads obj held
    (sound.owned.fd cb _ c client linked obj held) drops fuel results
  have live₁ : b₁.closureHeap.get? cb = some { closure with armed := none } := by
    rw [heap₁, Heap.get?_write live, if_pos rfl]
  obtain ⟨b', dropped, closed, nclients, heap⟩ :=
    dropConnection_ok (view₁ ▸ sound) live₁ client.clientId
  have view := (dropConnection_view dropped).trans
    (congrArg (fun v => (v.dropClient client.clientId).dropClosure closure.closureId) view₁)
  obtain ⟨_, _, frame⟩ := (b.view.dropClient client.clientId).dropClosure_frame closure.closureId
  have clients : b'.clients = (b.view.dropClient client.clientId).clients :=
    congrArg View.clients (view.trans frame)
  have clientHeap : b'.clientHeap = (b.view.dropClient client.clientId).clientHeap :=
    congrArg View.clientHeap (view.trans frame)
  have closures : b'.closures =
      ((b.view.dropClient client.clientId).dropClosure closure.closureId).closures :=
    congrArg View.closures view
  obtain ⟨clientGone, otherClients⟩ := sound.clients.dropClient_own held own
  obtain ⟨closureGone, otherClosures⟩ :=
    sound.closures.dropConnection_contents linked client.clientId
  refine ⟨b', handled b' dropped, ?_⟩
  exact
    { closed := closed.trans closed₁
      closureGone := closures ▸ closureGone
      clientGone := fun d obj' id => by
        obtain rfl := Option.some.inj (obj.symm.trans obj')
        rw [clients]
        exact clientGone id
      nclients := by rw [nclients, nclients₁]
      closures := fun id cb' other => by
        refine ⟨closures ▸ otherClosures id cb' other, ?_⟩
        rw [heap, Heap.get?_free, if_neg other, heap₁, Heap.get?_write live, if_neg other]
      clients := fun id d other => by
        rw [clients, clientHeap]
        refine otherClients id d fun same => other ?_
        rw [same, obj] }

/-- What a DISCONNECT or a malformed header leaves, if it is handled. -/
theorem Effect.leaves {v : View HashTable} {input : Input}
    (effect : Effect fuel b (.ready cb input results) v)
    (live : b.closureHeap.get? cb = some closure) (reads : closure.call = .onRead)
    (leaves : input = .packetErr ∨ input = .request .disconnect) :
    ∃ c client, closure.obj = some c ∧ b.clientHeap.get? c = some client ∧
      v = (b.view.dropClient client.clientId).dropClosure closure.closureId := by
  cases effect with
  | quiet live' silent =>
      obtain rfl := Option.some.inj (live.symm.trans live')
      obtain writes | rfl | ⟨pkt, rfl⟩ := silent
      · rw [reads] at writes
        cases writes
      · simp at leaves
      · simp at leaves
  | left live' _ _ obj held =>
      obtain rfl := Option.some.inj (live.symm.trans live')
      exact ⟨_, _, obj, held, rfl⟩
  | refused | connected | subscribed | published => simp at leaves

/-- A drop that leaves the entries of others has found no other. -/
theorem finds_own {d : ClientRef} (sound : ClientsSound b.view) {key key' : CString}
    (view : b'.view = (b.view.dropClient key).dropClosure key')
    (others : ∀ id d, d ≠ c → ((id, d) ∈ b'.clients.contents ↔ (id, d) ∈ b.clients.contents))
    (found : hashtableGet b.clients key = some d) : d = c := by
  obtain ⟨_, _, frame⟩ := (b.view.dropClient key).dropClosure_frame key'
  have clients : b'.clients = (b.view.dropClient key).clients :=
    congrArg View.clients (view.trans frame)
  obtain ⟨located, _⟩ | ⟨i, q, e, located, held, after⟩ := b.view.dropClient_hashTable key
  · change hashtableLocate b.clients key = none at located
    rw [hashtableGet, located] at found
    cases found
  · obtain rfl : e = d := Option.some.inj ((hashtableGet_of_located located held).symm.trans found)
    by_contra other
    have apart := apart_clear sound.apart held
    have kept := (others q e other).mpr (HashTable.mem_contents.mpr ⟨i, held⟩)
    rw [clients, after] at kept
    exact apart.1 (List.mem_map.mpr ⟨(q, e), kept, rfl⟩)

/-- In any reachable state, a connection that ends is cleaned up exactly if it does not end
by a code that leaves through the plain exit, and the id of its client finds no other. -/
theorem cleanedUp_iff {tr : List (Broker HashTable × Event)} (run : Run BrokerStep startServer tr b)
    (live : b.closureHeap.get? cb = some closure) (reads : closure.call = .onRead)
    (ending : Ending) :
    (∃ b', dispatch fuel b (.ready cb ending.input results) = .ok b' ∧ CleanedUp b b' cb closure) ↔
      (ending = .disconnect ∨ ending = .packetErr) ∧ FindsOwn b closure := by
  have sound := tablesSound_of_run run
  constructor
  · rintro ⟨b', handled, clean⟩
    have drops : ending = .disconnect ∨ ending = .packetErr := by
      cases ending with
      | disconnect => exact .inl rfl
      | packetErr => exact .inr rfl
      | clientDC | maxReqSize =>
          rw [dispatch_reading live reads] at handled
          cases handled
          have unchanged : b.info.nclients = b.info.nclients - 1 := clean.nclients
          omega
    have leaves : ending.input = .packetErr ∨ ending.input = .request .disconnect := by
      obtain rfl | rfl := drops
      · exact .inr rfl
      · exact .inl rfl
    obtain ⟨c, client, obj, held, view⟩ := (dispatch_effect handled).leaves live reads leaves
    refine ⟨drops, c, client, obj, held, fun d found => ?_⟩
    refine finds_own sound.clients view (fun id d other => (clean.clients id d ?_).1) found
    rw [obj]
    exact fun same => other (Option.some.inj same).symm
  · rintro ⟨drops, c, client, obj, held, own⟩
    exact CleanedUp.of_drop sound live reads obj held own drops

end Endings

/-! ## A connection that is lost -/

/-- The client and its closure after a CONNECT, and what its id finds. -/
def connectedTable (b : Broker HashTable) :
    Option ((Callback × Option ClientRef) × SolClient × Option ClientRef) := do
  let closure ← b.closureHeap.get? 0
  let client ← b.clientHeap.get? 0
  return ((closure.call, closure.obj), client, hashtableGet b.clients client.clientId)

theorem replay_connectedTable :
    ((replay brokerNext (startServer : Broker HashTable) connectOnly).bind
      fun r => connectedTable r.2) =
      some ((.onRead, some 0), newClient (cstr [97]) 5 true, some 0) := by
  decide +kernel

/-- A client is connected, and its id finds it. -/
theorem run_connectOnly :
    ∃ tr b closure, Run BrokerStep (startServer : Broker HashTable) tr b ∧
      tr.map Prod.snd = connectOnly ∧ b.closureHeap.get? 0 = some closure ∧
      closure.call = .onRead ∧ FindsOwn b closure := by
  obtain ⟨tr, b, run, labels, table⟩ :=
    Run.of_replay_bind (fun _ _ _ => brokerNext_step) replay_connectedTable
  obtain ⟨closure, live, table⟩ := Option.bind_eq_some_iff.mp table
  obtain ⟨client, held, table⟩ := Option.bind_eq_some_iff.mp table
  simp only [Option.pure_def, Option.some.injEq, Prod.mk.injEq] at table
  obtain ⟨⟨reads, obj⟩, _, found⟩ := table
  refine ⟨tr, b, closure, run, labels, live, reads, 0, client, obj, held, fun c found' => ?_⟩
  exact Option.some.inj (found'.symm.trans found)

/-- When the peer closes, the client still counts as connected. -/
theorem peer_close_not_cleanedUp :
    ¬ ∀ tr b, Run BrokerStep (startServer : Broker HashTable) tr b → ∀ cb closure,
      b.closureHeap.get? cb = some closure → closure.call = .onRead → ∀ ending, ∃ b',
        dispatch 0 b (.ready cb (Ending.input ending) []) = .ok b' ∧ CleanedUp b b' cb closure := by
  intro always
  obtain ⟨tr, b, closure, run, _, live, reads, _⟩ := run_connectOnly
  obtain ⟨b', handled, clean⟩ := always tr b run 0 closure live reads .clientDC
  rw [dispatch_reading live reads] at handled
  cases handled
  have unchanged : b.info.nclients = b.info.nclients - 1 := clean.nclients
  omega

/-- A DISCONNECT cleans up. -/
theorem connectOnly_cleanedUp :
    ∃ tr b b' closure, Run BrokerStep (startServer : Broker HashTable) tr b ∧
      tr.map Prod.snd = connectOnly ∧
      dispatch 0 b (.ready 0 (.request .disconnect) []) = .ok b' ∧ CleanedUp b b' 0 closure := by
  obtain ⟨tr, b, closure, run, labels, live, reads, own⟩ := run_connectOnly
  obtain ⟨b', handled, clean⟩ := (cleanedUp_iff run live reads .disconnect).mpr ⟨.inl rfl, own⟩
  exact ⟨tr, b, b', closure, run, labels, handled, clean⟩

end SolBroker
