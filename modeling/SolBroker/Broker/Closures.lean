import Mathlib
import SolBroker.Lib.Index
import SolBroker.Broker.Effect

/-!
# What one event does to the closures

An event on a closure takes the interest of its descriptor away, since the epoll set
is one-shot, and ends in one of four ways: a reply has been written, a reply is left
to be written, the connection is gone, or nothing more happens to the closure. The
last is what the callbacks do with a connection that is dropped by its peer, with a
packet that is too large, and with a PUBLISH that asks for no reply.
-/

namespace SolBroker

variable {T : Type → Type}

/-- What is read without any consequence for the closure. -/
def Input.Silent : Input → Prop
  | .dropped => True
  | .request (.publish pkt) => pkt.header.qos ≠ atLeastOnce ∧ pkt.header.qos ≠ exactlyOnce
  | _ => False

theorem get?_setClosure {b : Broker T} {cb : ClosureRef} {closure : Closure}
    (live : b.closureHeap.get? cb = some closure) (closure' : Closure) :
    (setClosure b cb closure').closureHeap.get? cb = some closure' := by
  show (b.closureHeap.write cb closure').get? cb = _
  rw [Heap.get?_write live, if_pos rfl]

/-! ## Handlers -/

/-- How a handler answers, by its return code. -/
inductive Answer [KeyTable T] (b : Broker T) (cb : ClosureRef) (closure : Closure) :
    Int → Broker T → Prop
  | reply {b' obj payload}
      (heap : b'.closureHeap = b.closureHeap.write cb { closure with obj, payload := some payload })
      (same : b'.closures = b.closures) : Answer b cb closure rearmW b'
  | leave {b₁ b' key} (heap : b₁.closureHeap = b.closureHeap) (view : b₁.view = b.view)
      (run : dropConnection b₁ key closure.closureId = .ok b') : Answer b cb closure (-rearmW) b'
  | nothing {b'} (heap : b'.closureHeap = b.closureHeap) (same : b'.closures = b.closures) :
      Answer b cb closure rearmR b'

/-- Only a PUBLISH without a reply is answered by nothing. -/
theorem handle_answer [KeyTable T] {fuel : Nat} {b b' : Broker T} {cb : ClosureRef}
    {closure : Closure} {results : List Int} {request : Request} {rc : Int}
    (live : b.closureHeap.get? cb = some closure)
    (run : handle fuel b cb results request = .ok (rc, b')) :
    Answer b cb closure rc b' ∧ (rc = rearmR ↔ (Input.request request).Silent) := by
  cases handle_eq_ok live run with
  | refused _ _ dropped =>
      exact ⟨@Answer.leave T _ b cb closure (closeFd b closure.fd) _ _ rfl rfl dropped,
        iff_of_false (by decide) id⟩
  | connected => exact ⟨.reply rfl rfl, iff_of_false (by decide) id⟩
  | @disconnected _ client _ _ _ dropped =>
      exact ⟨@Answer.leave T _ b cb closure (closeFd b client.fd) _ _ rfl rfl dropped,
        iff_of_false (by decide) id⟩
  | subscribed _ _ _ rounds =>
      obtain ⟨_, _, same⟩ := subscribeTuples_keep rounds
      have heap := congrArg Broker.closureHeap same
      have closures := congrArg Broker.closures same
      exact ⟨.reply (congrArg (Heap.write · cb _) heap) closures, iff_of_false (by decide) id⟩
  | unsubscribed => exact ⟨.reply rfl rfl, iff_of_false (by decide) id⟩
  | @published pkt _ _ topic b₁ _ _ _ _ _ loop replies =>
      obtain ⟨info, sent, rfl⟩ := publishLoop_keeps loop
      obtain ⟨_, _, _, same⟩ := b.published_keeps topic
      have heap : (b.published topic).2.closureHeap = b.closureHeap := by rw [same]
      have closures : (b.published topic).2.closures = b.closures := by rw [same]
      obtain ⟨rfl, rfl, notOnce, notExactly⟩ | ⟨byte, rfl, rfl, asked⟩ := publishReply_eq_ok replies
      · exact ⟨.nothing heap closures, iff_of_true rfl ⟨notOnce, notExactly⟩⟩
      · refine ⟨.reply (congrArg (Heap.write · cb _) heap) closures,
          iff_of_false (by decide) fun silent => ?_⟩
        obtain ⟨once, _⟩ | ⟨exactly, _⟩ := asked
        · exact silent.1 once
        · exact silent.2 exactly

/-! ## Events -/

/-- What an event on a closure does to it and to the others. -/
inductive Turn [KeyTable T] (b : Broker T) (cb : ClosureRef) (closure : Closure) (input : Input) :
    Broker T → Prop
  | wrote {b'} (writes : closure.call = .onWrite)
      (heap : b'.closureHeap = b.closureHeap.write cb
        { closure with payload := none, call := .onRead, armed := some .input })
      (same : b'.closures = b.closures) : Turn b cb closure input b'
  | replied {b' obj payload} (reads : closure.call = .onRead) (answered : ¬ input.Silent)
      (heap : b'.closureHeap = b.closureHeap.write cb
        { closure with obj, payload := some payload, call := .onWrite, armed := some .output })
      (same : b'.closures = b.closures) : Turn b cb closure input b'
  | left {b' key} (reads : closure.call = .onRead) (answered : ¬ input.Silent)
      (view : b'.view = (b.view.dropClient key).dropClosure closure.closureId)
      (others : ∀ cb' closure', b'.closureHeap.get? cb' = some closure' → cb' ≠ cb →
        b.closureHeap.get? cb' = some closure') : Turn b cb closure input b'
  | silent {b'} (reads : closure.call = .onRead) (silent : input.Silent)
      (heap : b'.closureHeap = b.closureHeap.write cb { closure with armed := none })
      (same : b'.closures = b.closures) : Turn b cb closure input b'

section Events

variable [KeyTable T] {fuel : Nat} {b b' : Broker T} {cb : ClosureRef} {closure : Closure}
  {results : List Int} {input : Input}

/-- Dropping a connection frees at most one closure. -/
theorem dropConnection_others {clientId closureId : CString}
    (run : dropConnection b clientId closureId = .ok b') {cb' : ClosureRef} {closure' : Closure}
    (live : b'.closureHeap.get? cb' = some closure') : b.closureHeap.get? cb' = some closure' := by
  obtain ⟨b₁, first, rest⟩ := bind_eq_ok.mp run
  obtain ⟨b₂, second, done⟩ := bind_eq_ok.mp rest
  cases done
  have heap₁ : b₁.closureHeap = b.closureHeap := by
    rw [delClient] at first
    split at first
    · cases first
      rfl
    · obtain ⟨_, _, done⟩ := bind_eq_ok.mp first
      cases done
      rfl
  rw [← heap₁]
  change b₂.closureHeap.get? cb' = some closure' at live
  rw [delClosure] at second
  split at second
  · cases second
    exact live
  · obtain ⟨_, _, done⟩ := bind_eq_ok.mp second
    cases done
    change (b₁.closureHeap.free _).get? cb' = some closure' at live
    rw [Heap.get?_free] at live
    split at live
    · cases live
    · exact live

/-- A connection that is dropped by a handler or for a malformed header. -/
theorem Turn.of_drop (b₁ : Broker T) {key : CString} (live : b.closureHeap.get? cb = some closure)
    (reads : closure.call = .onRead) (answered : ¬ input.Silent)
    (heap : b₁.closureHeap = b.closureHeap.write cb { closure with armed := none })
    (view : b₁.view = b.view) (run : dropConnection b₁ key closure.closureId = .ok b') :
    Turn b cb closure input b' := by
  refine @Turn.left T _ b cb closure input b' key reads answered ?_
    fun cb' closure' live' other => ?_
  · rw [dropConnection_view run, view]
  · have before := dropConnection_others run live'
    rwa [heap, Heap.get?_write live, if_neg other] at before

/-- A reply that is left to be written. -/
theorem Turn.of_reply {b₂ : Broker T} {obj : Option ClientRef} {payload : Packed}
    (live : b.closureHeap.get? cb = some closure) (reads : closure.call = .onRead)
    (answered : ¬ input.Silent)
    (heap : b₂.closureHeap = b.closureHeap.write cb
      { closure with obj, payload := some payload, armed := none })
    (same : b₂.closures = b.closures) (run : rearm b₂ cb rearmW = .ok b') :
    Turn b cb closure input b' := by
  obtain ⟨closure₂, live₂, done⟩ := bind_eq_ok.mp run
  have live₂ := deref_eq_ok.mp live₂
  rw [heap, Heap.get?_write live, if_pos rfl] at live₂
  cases live₂
  cases done
  refine @Turn.replied T _ b cb closure input _ obj payload reads answered ?_ same
  show b₂.closureHeap.write cb _ = _
  rw [heap, Heap.write_write]

/-- Every event on a closure is one of the four turns. -/
theorem dispatch_turn (live : b.closureHeap.get? cb = some closure)
    (run : dispatch fuel b (.ready cb input results) = .ok b') : Turn b cb closure input b' := by
  cases dispatch_eq_ok run with
  | wrote live' writes =>
      cases live.symm.trans live'
      exact .wrote writes rfl rfl
  | failed live' reads =>
      cases live.symm.trans live'
      exact .silent reads trivial rfl rfl
  | malformed live' reads _ _ dropped =>
      cases live.symm.trans live'
      have view : (setClosure b cb { closure with armed := none }).view = b.view :=
        view_setClosure_same live rfl
      exact .of_drop (closeFd (setClosure b cb _) closure.fd) live reads id rfl view dropped
  | handled live' reads live₁ returned rearmed =>
      cases live.symm.trans live'
      have view₁ : (readyToHandle b cb closure).view = b.view := view_setClosure_same live rfl
      obtain ⟨answer, silent_iff⟩ := handle_answer live₁ returned
      cases answer with
      | @reply _ obj payload heap same =>
          have heap' := heap.trans (Heap.write_write b.closureHeap cb _ _)
          exact .of_reply live reads (mt silent_iff.mpr (by decide)) heap' same rearmed
      | leave heap view dropped =>
          cases rearmed
          exact .of_drop _ live reads (mt silent_iff.mpr (by decide)) heap
            (view.trans view₁) dropped
      | nothing heap same =>
          cases rearmed
          exact .silent reads (silent_iff.mp rfl) heap same

end Events

/-! ## The table of closures -/

/-- The ids of connections. -/
def uuids : Set CString := { s | IsUuid s }

/-- All of the same length and in lower case, none can be taken for another. -/
theorem prefixFree_uuids : PrefixFree uuids := by
  rintro a ⟨lengthA, lowerA⟩ b ⟨lengthB, lowerB⟩ pre
  rw [CString.CasePrefix, lowerA, lowerB] at pre
  exact CString.ext (pre.eq_of_length (lengthA.trans lengthB.symm))

/-- The table has exactly the closures there are, each under its own id. -/
structure ClosuresKept (v : View HashTable) : Prop where
  named : ∃ m, Represented uuids v.closures m ∧ Indexes m (Option.map Link.closureId ∘ v.links)
  unused : ∀ cb, v.nextClosure ≤ cb → v.links cb = none

namespace ClosuresKept

variable {v : View HashTable} {cb : ClosureRef} {link : Link} (kept : ClosuresKept v)
include kept

/-- A closure has an entry exactly while it exists. -/
theorem mem_contents_iff {id : CString} :
    (id, cb) ∈ v.closures.contents ↔ ∃ link, v.links cb = some link ∧ link.closureId = id := by
  obtain ⟨m, represented, indexes⟩ := kept.named
  rw [← Option.map_eq_some_iff]
  refine Iff.trans ?_ (indexes id cb)
  rw [HashTable.mem_contents]
  constructor
  · rintro ⟨i, held⟩
    exact ((represented.single id (represented.known.within i id cb held)).held cb).mpr ⟨i, held⟩
  · intro found
    have inside := represented.within id (AList.lookup_isSome.mp (by simp [found]))
    exact ((represented.single id inside).held cb).mp found

theorem accept {closures : HashTable ClosureRef} {fd : Int} {uuid : CString} (isUuid : IsUuid uuid)
    (fresh : ∀ cb link, v.links cb = some link → link.closureId ≠ uuid)
    (returns : PutReturns v.closures uuid v.nextClosure closures) :
    ClosuresKept (v.accept closures fd uuid) := by
  obtain ⟨m, represented, indexes⟩ := kept.named
  have new (cb : ClosureRef) : (Option.map Link.closureId ∘ v.links) cb ≠ some uuid := by
    intro named
    obtain ⟨link, linked, own⟩ := Option.map_eq_some_iff.mp named
    exact fresh cb link linked own
  have absent : hashtableExists v.closures uuid = false := by
    rw [hashtableExists, represented.get prefixFree_uuids isUuid]
    cases found : m.lookup uuid with
    | none => rfl
    | some cb => exact absurd ((indexes uuid cb).mp found) (new cb)
  refine ⟨⟨_, represented.put prefixFree_uuids isUuid absent returns, ?_⟩, fun cb beyond => ?_⟩
  · show Indexes _ (_ ∘ Function.update v.links v.nextClosure (some ⟨fd, none, uuid⟩))
    rw [Function.comp_update]
    refine indexes.insert new ?_
    rw [Function.comp_apply, kept.unused _ (le_refl _)]
    rfl
  · have above : v.nextClosure < cb := beyond
    show Function.update v.links v.nextClosure (some ⟨fd, none, uuid⟩) cb = none
    rw [Function.update_of_ne above.ne']
    exact kept.unused cb above.le

/-- The id of a closure finds the closure. -/
theorem located (linked : v.links cb = some link) :
    ∃ i, hashtableLocate v.closures link.closureId = some i ∧
      v.closures.at? i = some (link.closureId, cb) := by
  obtain ⟨m, represented, indexes⟩ := kept.named
  have found : m.lookup link.closureId = some cb :=
    (indexes _ _).mpr (congrArg (Option.map Link.closureId) linked)
  have inside := represented.within link.closureId (AList.lookup_isSome.mp (by simp [found]))
  obtain ⟨_, none_⟩ | ⟨i, cb', located, held, some_⟩ :=
    hashtableLocate_single represented.known.sound (represented.single _ inside)
      (represented.known.unclashed prefixFree_uuids inside)
  · rw [found] at none_
    cases none_
  · obtain rfl := Option.some.inj (found.symm.trans some_)
    exact ⟨i, located, held⟩

/-- Deleting a closure by its id takes that closure and no other. -/
theorem dropClosure_eq (linked : v.links cb = some link) :
    v.dropClosure link.closureId =
      { v.setLink cb none with closures := (hashtableDel v.closures link.closureId).2.1 } := by
  obtain ⟨i, located, held⟩ := kept.located linked
  simp only [View.dropClosure, KeyTable.del, hashtableDel, located, held]

theorem dropClosure (linked : v.links cb = some link) :
    ClosuresKept (v.dropClosure link.closureId) := by
  rw [kept.dropClosure_eq linked]
  obtain ⟨m, represented, indexes⟩ := kept.named
  have found : m.lookup link.closureId = some cb :=
    (indexes _ _).mpr (congrArg (Option.map Link.closureId) linked)
  have inside := represented.within link.closureId (AList.lookup_isSome.mp (by simp [found]))
  refine ⟨⟨_, represented.del prefixFree_uuids inside, ?_⟩, fun cb' beyond => ?_⟩
  · show Indexes _ (_ ∘ Function.update v.links cb none)
    rw [Function.comp_update]
    exact indexes.erase (congrArg (Option.map Link.closureId) linked)
  · show Function.update v.links cb none cb' = none
    rw [Function.update_apply, kept.unused cb' beyond, ite_self]

/-- Only the closures, their links and the next address matter. -/
theorem of_same {v' : View HashTable} (same : v'.closures = v.closures) (links : v'.links = v.links)
    (next : v'.nextClosure = v.nextClosure) : ClosuresKept v' := by
  obtain ⟨named, unused⟩ := kept
  rw [← same, ← links] at named
  rw [← links, ← next] at unused
  exact ⟨named, unused⟩

/-- Dropping a connection takes its closure and no other. -/
theorem links_dropConnection (linked : v.links cb = some link) (key : CString) :
    ((v.dropClient key).dropClosure link.closureId).links = Function.update v.links cb none := by
  obtain ⟨clients, clientHeap, after⟩ := v.dropClient_frame key
  have kept' : ClosuresKept (v.dropClient key) := by
    rw [after]
    exact kept.of_same rfl rfl rfl
  have linked' : (v.dropClient key).links cb = some link := by
    rw [after]
    exact linked
  rw [kept'.dropClosure_eq linked', after]
  rfl

theorem dropConnection (linked : v.links cb = some link) (key : CString) :
    ClosuresKept ((v.dropClient key).dropClosure link.closureId) := by
  obtain ⟨clients, clientHeap, after⟩ := v.dropClient_frame key
  have kept' : ClosuresKept (v.dropClient key) := by
    rw [after]
    exact kept.of_same rfl rfl rfl
  apply kept'.dropClosure
  rw [after]
  exact linked

end ClosuresKept

section Steps

variable {b b' : Broker HashTable} {v : View HashTable} {event : Event} {fuel : Nat}

/-- Every event keeps the table of closures. -/
theorem ClosuresKept.effect (kept : ClosuresKept b.view) (fresh : FreshUuid b event)
    (effect : Effect fuel b event v) : ClosuresKept v := by
  cases effect with
  | accepted put =>
      refine kept.accept fresh.1 (fun cb link linked => ?_) (putReturns_of_keyTable put)
      obtain ⟨closure, live, rfl⟩ := Option.map_eq_some_iff.mp linked
      exact fresh.2 cb closure live
  | quiet => exact kept
  | left live | refused live => exact kept.dropConnection (view_links live) _
  | @connected cb closure _ _ _ _ _ live =>
      obtain ⟨⟨m, represented, indexes⟩, unused⟩ := kept
      have linked := view_links live
      refine ⟨⟨m, represented, ?_⟩, fun cb' beyond => ?_⟩
      · show Indexes m (_ ∘ Function.update b.view.links cb _)
        have same : (Option.map Link.closureId ∘ b.view.links) cb = some closure.closureId := by
          rw [Function.comp_apply, linked]
          rfl
        rw [Function.comp_update, Option.map_some]
        show Indexes m (Function.update _ cb (some closure.closureId))
        rw [← same, Function.update_eq_self]
        exact indexes
      · have elsewhere : cb' ≠ cb := by
          rintro rfl
          rw [unused cb' beyond] at linked
          cases linked
        show Function.update b.view.links cb _ cb' = none
        rw [Function.update_of_ne elsewhere]
        exact unused cb' beyond
  | subscribed _ _ _ _ same rounds =>
      obtain ⟨topics, topicHeap, after⟩ := subscribeTuples_view same rounds
      rw [after]
      exact kept.of_same rfl rfl rfl
  | @published _ _ _ _ _ _ topic =>
      obtain ⟨topics, topicHeap, after⟩ := b.view.createTopic_frame topic
      rw [after]
      exact kept.of_same rfl rfl rfl

theorem closuresKept_step (kept : ClosuresKept b.view) (step : BrokerStep b event b') :
    ClosuresKept b'.view := by
  obtain ⟨fresh, fuel, run⟩ := step
  exact kept.effect fresh (dispatch_effect run)

theorem closuresKept_startServer : ClosuresKept (startServer : Broker HashTable).view := by
  obtain ⟨topics, topicHeap, same⟩ := startServer_view (T := HashTable)
  rw [same]
  exact ⟨⟨∅, represented_hashtableCreate uuids, .empty⟩, fun _ _ => rfl⟩

end Steps

end SolBroker
