import Mathlib
import SolBroker.Broker.Descriptors

/-!
# Connections among each other

What happens on one connection leaves the others as they are. A closure changes only by
events of its own; no two closures have the same client, so nobody else adds a subscription
of that client or takes one away. The one thing another connection can take from a client
is the client itself, by an id that finds it in the table.
-/

namespace SolBroker

open Transition

/-- The event is one of the closure. -/
def ServerEvent.On (cb : ClosureRef) : ServerEvent → Prop
  | .socket (.ready cb' _ _) => cb' = cb
  | .socket (.accept ..) => False
  | .tick .. => False

/-- The id under which a client is deleted: that of a client that leaves or sends a malformed
header, or that of a CONNECT. -/
def Input.drops (b : Broker HashTable) (closure : Closure) : Input → Option CString
  | .packetErr | .request .disconnect =>
      (closure.obj.bind b.clientHeap.get?).map SolClient.clientId
  | .request (.connect pkt) => pkt.payload.clientId.map cstr
  | .dropped | .request (.subscribe _) | .request (.unsubscribe _) | .request (.publish _) => none

/-- The event has the client destroyed: the id under which it deletes finds the client. -/
def ServerEvent.Deletes (b : Broker HashTable) (event : ServerEvent) (c : ClientRef) : Prop :=
  ∃ cb input results closure key, event = .socket (.ready cb input results) ∧
    b.closureHeap.get? cb = some closure ∧ closure.call = .onRead ∧
    input.drops b closure = some key ∧ hashtableGet b.clients key = some c

/-- No two closures have the same client. -/
def Unshared {T : Type → Type} (v : View T) : Prop :=
  ∀ cb cb' link link' c, v.links cb = some link → v.links cb' = some link' →
    link.obj = some c → link'.obj = some c → cb = cb'

/-! ## Clients are not shared -/

section Sharing

variable {T : Type → Type} {v v' : View T}

theorem Unshared.of_fewer (unshared : Unshared v)
    (links : ∀ cb link, v'.links cb = some link → v.links cb = some link) : Unshared v' :=
  fun cb cb' link link' c linked linked' =>
    unshared cb cb' link link' c (links cb link linked) (links cb' link' linked')

theorem Unshared.accept (unshared : Unshared v) (closures : T ClosureRef) (fd : Int)
    (uuid : CString) : Unshared (v.accept closures fd uuid) := by
  have old {cb : ClosureRef} {link : Link} {c : ClientRef}
      (linked : (v.accept closures fd uuid).links cb = some link) (obj : link.obj = some c) :
      v.links cb = some link := by
    change Function.update v.links v.nextClosure (some ⟨fd, none, uuid⟩) cb = some link at linked
    rw [Function.update_apply] at linked
    split at linked
    · cases linked
      cases obj
    · exact linked
  intro cb cb' link link' c linked linked' obj obj'
  exact unshared cb cb' link link' c (old linked obj) (old linked' obj') obj obj'

theorem Unshared.connect (unshared : Unshared v) (owned : Owned v) {clients : T ClientRef}
    {cb : ClosureRef} {link : Link} {client : SolClient} :
    Unshared (v.connect clients cb link client) := by
  have split {cb' : ClosureRef} {link' : Link} {c : ClientRef}
      (linked : (v.connect clients cb link client).links cb' = some link')
      (obj : link'.obj = some c) : (cb' = cb ∧ c = v.clientHeap.next) ∨
        (v.links cb' = some link' ∧ c < v.clientHeap.next) := by
    change Function.update v.links cb (some { link with obj := some v.clientHeap.next }) cb' =
      some link' at linked
    rw [Function.update_apply] at linked
    split at linked
    · rename_i same
      cases linked
      exact .inl ⟨same, (Option.some.inj obj).symm⟩
    · exact .inr ⟨linked, owned.known cb' link' c linked obj⟩
  intro cb₁ cb₂ link₁ link₂ c linked₁ linked₂ obj₁ obj₂
  obtain ⟨rfl, rfl⟩ | ⟨linked₁, known₁⟩ := split linked₁ obj₁
  · obtain ⟨rfl, _⟩ | ⟨_, known₂⟩ := split linked₂ obj₂
    · rfl
    · exact absurd known₂ (lt_irrefl _)
  · obtain ⟨_, rfl⟩ | ⟨linked₂, _⟩ := split linked₂ obj₂
    · exact absurd known₁ (lt_irrefl _)
    · exact unshared cb₁ cb₂ link₁ link₂ c linked₁ linked₂ obj₁ obj₂

variable [KeyTable T] {b b' : Broker T} {event : Event} {fuel : Nat}

theorem Unshared.effect (unshared : Unshared b.view) (owned : Owned b.view)
    (effect : Effect fuel b event v) : Unshared v := by
  cases effect with
  | accepted => exact unshared.accept _ _ _
  | quiet => exact unshared
  | left | refused => exact unshared.of_fewer fun _ _ => links_drop _ _
  | connected => exact unshared.connect owned
  | subscribed _ _ _ _ same rounds =>
      obtain ⟨topics, topicHeap, after⟩ := subscribeTuples_view same rounds
      rw [after]
      exact unshared.of_fewer fun _ _ => id
  | published =>
      obtain ⟨topics, topicHeap, after⟩ := b.view.createTopic_frame _
      rw [after]
      exact unshared.of_fewer fun _ _ => id

theorem unshared_startServer : Unshared (startServer : Broker T).view := by
  obtain ⟨topics, topicHeap, same⟩ := startServer_view (T := T)
  rw [same]
  intro cb _ link _ _ linked
  cases linked

end Sharing

/-! ## What the events of the others leave -/

section Steps

variable {b b' : Broker HashTable} {event : Event} {fuel : Nat} {cb : ClosureRef}
  {closure : Closure} {c : ClientRef} {v : View HashTable}

/-- A closure is as it was after an event of another. -/
theorem dispatch_keeps_closure (sound : TablesSound b.view)
    (live : b.closureHeap.get? cb = some closure)
    (others : ¬ (ServerEvent.socket event).On cb) (run : dispatch fuel b event = .ok b') :
    b'.closureHeap.get? cb = some closure := by
  cases event with
  | accept fd uuid =>
      obtain ⟨_, _, done⟩ := bind_eq_ok.mp run
      cases done
      exact Heap.get?_alloc_of_live live
  | ready cb' input results =>
      have other : cb ≠ cb' := fun same => others same.symm
      obtain ⟨closure', live', _⟩ := bind_eq_ok.mp run
      have live' := deref_eq_ok.mp live'
      have kept {heap : Heap Closure} {new : Closure}
          (written : heap = b.closureHeap.write cb' new) : heap.get? cb = some closure := by
        rw [written, Heap.get?_write live', if_neg other, live]
      cases dispatch_turn live' run with
      | wrote _ heap | replied _ _ heap | silent _ _ heap => exact kept heap
      | @left key _ _ view before =>
          have links := sound.closures.links_dropConnection (view_links live') key
          have linked : b'.view.links cb = some closure.link := by
            rw [view]
            exact (congrFun links cb).trans
              ((Function.update_of_ne other ..).trans (view_links live))
          obtain ⟨closure'', live'', _⟩ := Option.map_eq_some_iff.mp linked
          have same := before cb closure'' live'' other
          rw [live'', ← same, live]

theorem deletes_ready_iff {input : Input} {results : List Int}
    (live : b.closureHeap.get? cb = some closure) :
    (ServerEvent.socket (.ready cb input results)).Deletes b c ↔ closure.call = .onRead ∧
      ∃ key, input.drops b closure = some key ∧ hashtableGet b.clients key = some c := by
  constructor
  · rintro ⟨_, _, _, closure', key, same, live', reads, drops, found⟩
    cases same
    obtain rfl := Option.some.inj (live.symm.trans live')
    exact ⟨reads, key, drops, found⟩
  · rintro ⟨reads, key, drops, found⟩
    exact ⟨cb, input, results, closure, key, rfl, live, reads, drops, found⟩

theorem deletes_iff_of_drops {input : Input} {results : List Int} {key : CString}
    (live : b.closureHeap.get? cb = some closure) (reads : closure.call = .onRead)
    (drops : input.drops b closure = some key) :
    (ServerEvent.socket (.ready cb input results)).Deletes b c ↔
      hashtableGet b.clients key = some c := by
  rw [deletes_ready_iff live, drops]
  constructor
  · rintro ⟨_, key', same, found⟩
    obtain rfl := Option.some.inj same
    exact found
  · intro found
    exact ⟨reads, key, rfl, found⟩

theorem not_deletes_of_drops {input : Input} {results : List Int}
    (live : b.closureHeap.get? cb = some closure) (drops : input.drops b closure = none) :
    ¬ (ServerEvent.socket (.ready cb input results)).Deletes b c := by
  rw [deletes_ready_iff live, drops]
  rintro ⟨_, _, same, _⟩
  cases same

/-- Deleting by an id destroys the client it finds and no other. -/
theorem get?_dropClient_iff {key key' : CString} {client : SolClient} :
    ((v.dropClient key).dropClosure key').clientHeap.get? c = some client ↔
      v.clientHeap.get? c = some client ∧ hashtableGet v.clients key ≠ some c := by
  obtain ⟨closures, links, after⟩ := (v.dropClient key).dropClosure_frame key'
  rw [after]
  show (v.dropClient key).clientHeap.get? c = some client ↔ _
  obtain ⟨located, same⟩ | ⟨i, q, c', located, held, freed⟩ := v.dropClient_hashTable key
  · have found : hashtableGet v.clients key = none := by
      rw [hashtableGet, located]
    rw [same, found]
    exact (and_iff_left (Option.some_ne_none c).symm).symm
  · have found : hashtableGet v.clients key = some c' := by
      simp only [hashtableGet, located, held, Option.map_some]
    rw [freed, found, Ne, Option.some.injEq]
    show (v.clientHeap.free c').get? c = some client ↔ _
    rw [Heap.get?_free]
    split
    · rename_i same
      exact iff_of_false (Option.some_ne_none client).symm fun both => both.2 same.symm
    · rename_i other
      exact (and_iff_left fun same => other same.symm).symm

/-- A client is as it was, unless the event has it destroyed. -/
theorem Effect.client_iff (effect : Effect fuel b event v) (known : c < b.clientHeap.next)
    {client : SolClient} : v.clientHeap.get? c = some client ↔
      b.clientHeap.get? c = some client ∧ ¬ (ServerEvent.socket event).Deletes b c := by
  have kept {heap : Heap SolClient} (same : heap.get? c = b.clientHeap.get? c)
      (spares : ¬ (ServerEvent.socket event).Deletes b c) : heap.get? c = some client ↔
        b.clientHeap.get? c = some client ∧ ¬ (ServerEvent.socket event).Deletes b c := by
    rw [same, and_iff_left spares]
  have connects {closure : Closure} {pkt : MqttConnect} {block : List UInt8}
      (given : pkt.payload.clientId = some block) :
      (Input.request (.connect pkt)).drops b closure = some (cstr block) :=
    congrArg (Option.map cstr) given
  cases effect with
  | accepted =>
      refine kept rfl ?_
      rintro ⟨_, _, _, _, _, same, _⟩
      cases same
  | quiet live silent =>
      refine kept rfl fun deletes => ?_
      obtain writes | rfl | ⟨pkt, rfl⟩ := silent
      · cases ((deletes_ready_iff live).mp deletes).1.symm.trans writes
      · exact not_deletes_of_drops live rfl deletes
      · exact not_deletes_of_drops live rfl deletes
  | @left cb closure input results c' client' live reads leaves obj held =>
      have own : (closure.obj.bind b.clientHeap.get?).map SolClient.clientId =
          some client'.clientId := by
        rw [obj, Option.bind_some, held]
        rfl
      have drops : input.drops b closure = some client'.clientId := by
        obtain rfl | rfl := leaves <;> exact own
      rw [get?_dropClient_iff, deletes_iff_of_drops live reads drops]
      rfl
  | @refused cb closure pkt block results live reads given =>
      rw [get?_dropClient_iff, deletes_iff_of_drops live reads (connects given)]
      rfl
  | @connected cb closure pkt block results status clients live reads given free =>
      refine kept ?_ ?_
      · show (b.clientHeap.alloc _).get? c = b.clientHeap.get? c
        rw [Heap.get?_alloc, if_neg known.ne]
      · rw [deletes_iff_of_drops live reads (connects given)]
        intro found
        have absent : hashtableExists b.clients (cstr block) = false := free
        rw [hashtableExists, found] at absent
        cases absent
  | subscribed live _ _ _ same rounds =>
      obtain ⟨topics, topicHeap, after⟩ := subscribeTuples_view same rounds
      rw [after]
      exact kept rfl (not_deletes_of_drops live rfl)
  | published live =>
      obtain ⟨topics, topicHeap, after⟩ := b.view.createTopic_frame _
      rw [after]
      exact kept rfl (not_deletes_of_drops live rfl)

/-- What is pushed to the lists does not show in a part of them that it is not of. -/
theorem View.Grows.filter_subscribers {T : Type → Type} {v v' : View T} {P : Subscriber → Prop}
    {q : Subscriber → Bool} (grows : v.Grows P v') (indexed : v.Indexed)
    (never : ∀ sub, P sub → q sub = false) (name : CString) :
    (v'.subscribers name).filter q = (v.subscribers name).filter q := by
  obtain ⟨indexed', extended⟩ := grows indexed
  have nothing {new : List Subscriber} (fine : ∀ sub ∈ new, P sub) : new.filter q = [] :=
    List.filter_eq_nil_iff.mpr fun sub member =>
      Bool.eq_false_iff.mp (never sub (fine sub member))
  cases found : trieFind v.topics name with
  | some t =>
      obtain ⟨topic, held, named⟩ := indexed.find_iff.mp found
      obtain ⟨topic', held', longer⟩ := extended.old t topic held
      obtain ⟨name', _, new, nodes, fine⟩ := longer (indexed.counted t topic held)
      have found' := indexed'.find_iff.mpr ⟨topic', held', name'.trans named⟩
      rw [View.subscribers_of_find found' held', View.subscribers_of_find found held, nodes,
        List.filter_append, nothing fine, List.nil_append]
  | none =>
      rw [View.subscribers_of_free found]
      cases found' : trieFind v'.topics name with
      | none => rw [View.subscribers_of_free found']
      | some t =>
          obtain ⟨topic', held', named⟩ := indexed'.find_iff.mp found'
          cases held : v.topicHeap[t]? with
          | some topic =>
              obtain ⟨topic₁, held₁, longer⟩ := extended.old t topic held
              obtain rfl := Option.some.inj (held₁.symm.trans held')
              have name' := (longer (indexed.counted t topic held)).1
              cases found.symm.trans (indexed.find_iff.mpr ⟨topic, held, name'.symm.trans named⟩)
          | none =>
              obtain ⟨_, _, new, nodes, fine⟩ := extended.new t topic' held held' counted_listCreate
              rw [View.subscribers_of_find found' held', nodes, List.filter_append, nothing fine]
              rfl

/-- Another connection adds no subscription of the client and takes none away. -/
theorem Effect.keeps_subscriptions (effect : Effect fuel b event v) (indexed : b.view.Indexed)
    (unshared : Unshared b.view) (live : b.closureHeap.get? cb = some closure)
    (obj : closure.obj = some c) (others : ¬ (ServerEvent.socket event).On cb) (name : CString) :
    (v.subscribers name).filter (fun sub => sub.client = c) =
      (b.view.subscribers name).filter (fun sub => sub.client = c) := by
  refine effect.grants.filter_subscribers indexed (fun sub granted => decide_eq_false ?_) name
  rintro rfl
  obtain ⟨cb', pkt, results, closure', tuple, rfl, live', _, obj', _⟩ := granted
  exact others (unshared cb' cb _ _ _ (view_links live') (view_links live) obj' obj)

end Steps

/-! ## Over a whole run -/

section Runs

variable {b b' : Broker HashTable} {tr tr' : List (Broker HashTable × ServerEvent)}
  {event : ServerEvent} {cb : ClosureRef} {closure : Closure}

theorem Unshared.serverStep (unshared : Unshared b.view) (owned : Owned b.view)
    (step : ServerStep b event b') : Unshared b'.view := by
  obtain ⟨e, rfl, _, fuel, run⟩ | ⟨_, _, _, info, sent, rfl, rfl⟩ := step.cases
  · exact unshared.effect owned (dispatch_effect run)
  · exact unshared

theorem unshared_serverRun (run : Run ServerStep (startServer : Broker HashTable) tr b) :
    Unshared b.view := by
  induction run with
  | nil => exact unshared_startServer
  | snoc before step ih => exact ih.serverStep (tablesSound_serverRun before).owned step

/-- What a connection has, as `b` has it, when the events of `tr` have happened on others. -/
structure LeftAlone (cb : ClosureRef) (closure : Closure) (b : Broker HashTable)
    (tr : List (Broker HashTable × ServerEvent)) (b' : Broker HashTable) : Prop where
  kept : b'.closureHeap.get? cb = some closure
  subscriptions : ∀ c, closure.obj = some c → ∀ name,
    (b'.view.subscribers name).filter (fun sub => sub.client = c) =
      (b.view.subscribers name).filter (fun sub => sub.client = c)
  client : ∀ c, closure.obj = some c → ∀ client, b'.clientHeap.get? c = some client ↔
    b.clientHeap.get? c = some client ∧ ∀ visit ∈ tr, ¬ visit.2.Deletes visit.1 c

theorem LeftAlone.step {b₀ : Broker HashTable} (alone : LeftAlone cb closure b₀ tr b)
    (sound : TablesSound b.view) (unshared : Unshared b.view) (others : ¬ event.On cb)
    (step : ServerStep b event b') : LeftAlone cb closure b₀ (tr ++ [(b, event)]) b' := by
  have spared (c : ClientRef) : (∀ visit ∈ tr ++ [(b, event)], ¬ visit.2.Deletes visit.1 c) ↔
      (∀ visit ∈ tr, ¬ visit.2.Deletes visit.1 c) ∧ ¬ event.Deletes b c := by
    rw [List.forall_mem_append, List.forall_mem_singleton]
  obtain ⟨e, rfl, _, fuel, run⟩ | ⟨uptime, solUptime, results, info, sent, rfl, rfl⟩ := step.cases
  · have effect := dispatch_effect run
    refine ⟨dispatch_keeps_closure sound alone.kept others run, fun c obj name => ?_,
      fun c obj client => ?_⟩
    · exact (effect.keeps_subscriptions sound.clients.indexed unshared alone.kept obj others
        name).trans (alone.subscriptions c obj name)
    · have known := sound.owned.known cb _ c (view_links alone.kept) obj
      rw [spared, ← and_assoc, ← alone.client c obj client]
      exact effect.client_iff known
  · refine ⟨alone.kept, alone.subscriptions, fun c obj client => ?_⟩
    have spares : ¬ (ServerEvent.tick uptime solUptime results).Deletes b c := by
      rintro ⟨_, _, _, _, _, same, _⟩
      cases same
    rw [spared, and_iff_left spares]
    exact alone.client c obj client

/-- Whatever happens on the other connections in between, a closure is left as it is, the
entries of its client in every list of subscribers are the same, and the client is as it was
exactly if none of these events deletes by an id that finds it. -/
theorem others_leave_alone (before : Run ServerStep startServer tr b)
    (later : Run ServerStep b tr' b') (live : b.closureHeap.get? cb = some closure)
    (others : ∀ visit ∈ tr', ¬ visit.2.On cb) : LeftAlone cb closure b tr' b' := by
  suffices all : TablesSound b'.view ∧ Unshared b'.view ∧ LeftAlone cb closure b tr' b' from
    all.2.2
  induction later with
  | nil =>
      refine ⟨tablesSound_serverRun before, unshared_serverRun before, live,
        fun _ _ _ => rfl, fun _ _ _ => ?_⟩
      exact (and_iff_left (List.forall_mem_nil _)).symm
  | snoc _ step ih =>
      obtain ⟨earlier, now⟩ := List.forall_mem_append.mp others
      obtain ⟨sound, unshared, alone⟩ := ih earlier
      exact ⟨sound.serverStep step, unshared.serverStep sound.owned step,
        alone.step sound unshared (now _ (List.mem_singleton_self _)) step⟩

/-- A client connects and subscribes to `t`. -/
def firstSubscribes : List ServerEvent :=
  connectOnly.map .socket ++ [.socket (.ready 0 (.request (.subscribe (subscribeTo 116 0))) [])]

/-- On another connection the same client connects. -/
def secondTakesOver : List ServerEvent :=
  [.socket (.accept 6 (uuidOf 1)), .socket (.ready 1 (.request (.connect (connectAs 97))) [])]

theorem replay_secondTakesOver :
    (replay serverNext (startServer : Broker HashTable) firstSubscribes).bind (fun r =>
      (replay serverNext r.2 secondTakesOver).map fun r' =>
        ((r.2.closureHeap.get? 0).map Closure.obj, r.2.view.subscribers (literal "t/"),
          (r.2.clientHeap.get? 0).isSome, (r'.2.clientHeap.get? 0).isSome)) =
      some (some (some 0), [⟨0, 0⟩], true, false) := by
  decide +kernel

/-- It has the client of the first destroyed, which keeps its closure and its subscription. -/
theorem secondTakesOver_leaves : ∃ tr b tr' b',
    Run ServerStep (startServer : Broker HashTable) tr b ∧ Run ServerStep b tr' b' ∧
      tr'.map Prod.snd = secondTakesOver ∧ b'.closureHeap.get? 0 = b.closureHeap.get? 0 ∧
      (b'.view.subscribers (literal "t/")).filter (fun sub => sub.client = 0) = [⟨0, 0⟩] ∧
      ∃ visit ∈ tr', visit.2.Deletes visit.1 0 := by
  obtain ⟨tr, b, run, _, found⟩ := Run.of_replay_bind serverNext_step replay_secondTakesOver
  obtain ⟨⟨tr', b'⟩, replayed, facts⟩ := Option.map_eq_some_iff.mp found
  obtain ⟨later, labels⟩ := Run.of_replay serverNext_step replayed
  simp only [Prod.mk.injEq, Option.map_eq_some_iff, Option.isSome_iff_exists] at facts
  obtain ⟨⟨closure, live, obj⟩, subscribed, ⟨client, held⟩, gone⟩ := facts
  have others : ∀ visit ∈ tr', ¬ visit.2.On 0 := by
    rw [← List.forall_mem_map (P := fun event => ¬ ServerEvent.On 0 event), labels]
    simp [secondTakesOver, ServerEvent.On]
  have alone := others_leave_alone run later live others
  refine ⟨tr, b, tr', b', run, later, labels, alone.kept.trans live.symm, ?_, ?_⟩
  · rw [alone.subscriptions 0 obj, subscribed]
    rfl
  · by_contra spared
    push Not at spared
    have kept := (alone.client 0 obj client).mpr ⟨held, spared⟩
    rw [kept] at gone
    cases gone

end Runs

end SolBroker
