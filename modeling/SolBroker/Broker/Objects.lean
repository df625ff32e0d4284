import Mathlib
import SolBroker.Lib.Run
import SolBroker.Broker.Attachment
import SolBroker.Broker.Closures

/-!
# The client of a closure

A closure is made without a client and is given one by the first CONNECT that is
accepted on it; nothing takes it away again. All other handlers, and the exit of
`on_read` for a malformed header, follow the pointer without looking. They meet NULL
exactly on connections that have not had a CONNECT accepted yet.
-/

namespace SolBroker

open Transition

variable {T : Type → Type}

/-- What makes `on_read` follow the pointer to the client. -/
def Input.UsesObj : Input → Prop
  | .dropped | .request (.connect _) => False
  | _ => True

/-- The closure reads its next packet. -/
def Reading (b : Broker T) (cb : ClosureRef) : Prop :=
  ∃ closure, b.closureHeap.get? cb = some closure ∧ closure.call = .onRead

section Accepting

variable [KeyTable T]

/-- A CONNECT on this closure under an id that is not found. -/
def AcceptsConnect (b : Broker T) (event : Event) (cb : ClosureRef) : Prop :=
  ∃ pkt results block, event = .ready cb (.request (.connect pkt)) results ∧ Reading b cb ∧
    pkt.payload.clientId = some block ∧ KeyTable.contains b.clients (cstr block) = false

/-- A callback that reads from the closure follows its pointer to the client while it is
NULL. -/
def FollowsNull (b : Broker T) (cb : ClosureRef) (input : Input) : Prop :=
  ∃ closure fuel results, b.closureHeap.get? cb = some closure ∧ closure.call = .onRead ∧
    closure.obj = none ∧ dispatch fuel b (.ready cb input results) = .error .nullDeref

/-! ## Which closures have a client -/

/-- A CONNECT has been accepted on the closure. -/
def Connected (tr : List (Broker T × Event)) (cb : ClosureRef) : Prop :=
  ∃ visit ∈ tr, AcceptsConnect visit.1 visit.2 cb

/-- The closures with a client are those on which a CONNECT was accepted. -/
structure Tracked (tr : List (Broker T × Event)) (v : View T) : Prop where
  old : ∀ cb, Connected tr cb → cb < v.nextClosure
  obj : ∀ cb link, v.links cb = some link → (link.obj ≠ none ↔ Connected tr cb)

variable {tr : List (Broker T × Event)} {b : Broker T} {v : View T} {event : Event} {fuel : Nat}

theorem connected_snoc {cb : ClosureRef} :
    Connected (tr ++ [(b, event)]) cb ↔ Connected tr cb ∨ AcceptsConnect b event cb := by
  constructor
  · rintro ⟨visit, member, accepts⟩
    obtain earlier | now := List.mem_append.mp member
    · exact .inl ⟨visit, earlier, accepts⟩
    · rw [List.mem_singleton.mp now] at accepts
      exact .inr accepts
  · rintro (⟨visit, earlier, accepts⟩ | accepts)
    · exact ⟨visit, List.mem_append_left _ earlier, accepts⟩
    · exact ⟨(b, event), List.mem_append_right _ (List.mem_singleton_self _), accepts⟩

/-- An event that accepts no CONNECT and gives no closure a client. -/
theorem Tracked.of_quiet (tracked : Tracked tr b.view) (quiet : ∀ cb, ¬ AcceptsConnect b event cb)
    (next : b.view.nextClosure ≤ v.nextClosure)
    (links : ∀ cb link, v.links cb = some link → b.view.links cb = some link) :
    Tracked (tr ++ [(b, event)]) v := by
  have same (cb : ClosureRef) : Connected (tr ++ [(b, event)]) cb ↔ Connected tr cb := by
    rw [connected_snoc, or_iff_left (quiet cb)]
  refine ⟨fun cb connected => ?_, fun cb link linked => ?_⟩
  · exact (tracked.old cb ((same cb).mp connected)).trans_le next
  · rw [same]
    exact tracked.obj cb link (links cb link linked)

theorem links_drop (key key' : CString) {cb : ClosureRef} {link : Link}
    (linked : ((v.dropClient key).dropClosure key').links cb = some link) :
    v.links cb = some link := by
  obtain ⟨clients, clientHeap, after⟩ := v.dropClient_frame key
  rw [after, View.dropClosure] at linked
  split at linked
  · exact linked
  · change Function.update v.links _ none cb = some link at linked
    rw [Function.update_apply] at linked
    split at linked
    · cases linked
    · exact linked

theorem nextClosure_drop (key key' : CString) :
    ((v.dropClient key).dropClosure key').nextClosure = v.nextClosure := by
  obtain ⟨clients, clientHeap, first⟩ := v.dropClient_frame key
  obtain ⟨closures, links, second⟩ := (v.dropClient key).dropClosure_frame key'
  rw [second, first]

/-- A new closure has no client. -/
theorem Tracked.accept (tracked : Tracked tr b.view) (closures : T ClosureRef) (fd : Int)
    (uuid : CString) :
    Tracked (tr ++ [(b, .accept fd uuid)]) (b.view.accept closures fd uuid) := by
  have quiet (cb : ClosureRef) : ¬ AcceptsConnect b (.accept fd uuid) cb := by
    rintro ⟨_, _, _, same, _⟩
    cases same
  refine ⟨fun cb connected => ?_, fun cb link linked => ?_⟩
  · rw [connected_snoc, or_iff_left (quiet cb)] at connected
    exact (tracked.old cb connected).trans (Nat.lt_succ_self _)
  · rw [connected_snoc, or_iff_left (quiet cb)]
    change Function.update b.view.links b.view.nextClosure _ cb = some link at linked
    rw [Function.update_apply] at linked
    split at linked
    · rename_i new
      cases linked
      refine iff_of_false (fun some_ => some_ rfl) fun connected => ?_
      exact (tracked.old cb connected).ne new
    · exact tracked.obj cb link linked

/-- An accepted CONNECT gives its closure a client, and no other closure. -/
theorem Tracked.connect (tracked : Tracked tr b.view) {cb : ClosureRef} {closure : Closure}
    {pkt : MqttConnect} {results : List Int}
    (accepts : AcceptsConnect b (.ready cb (.request (.connect pkt)) results) cb)
    (live : b.closureHeap.get? cb = some closure) (clients : T ClientRef) (client : SolClient) :
    Tracked (tr ++ [(b, .ready cb (.request (.connect pkt)) results)])
      (b.view.connect clients cb closure.link client) := by
  refine ⟨fun cb' connected => ?_, fun cb' link linked => ?_⟩
  · obtain earlier | ⟨_, _, _, same, _⟩ := connected_snoc.mp connected
    · exact tracked.old cb' earlier
    · cases same
      exact Heap.lt_next live
  · rw [connected_snoc]
    change Function.update b.view.links cb _ cb' = some link at linked
    rw [Function.update_apply] at linked
    split at linked
    · rename_i here
      cases linked
      refine iff_of_true nofun (.inr ?_)
      rw [here]
      exact accepts
    · rename_i elsewhere
      have quiet : ¬ AcceptsConnect b (.ready cb (.request (.connect pkt)) results) cb' := by
        rintro ⟨_, _, _, same, _⟩
        cases same
        exact elsewhere rfl
      rw [or_iff_left quiet]
      exact tracked.obj cb' link linked

theorem Tracked.effect (tracked : Tracked tr b.view) (effect : Effect fuel b event v) :
    Tracked (tr ++ [(b, event)]) v := by
  cases effect with
  | accepted => exact tracked.accept _ _ _
  | quiet live silent =>
      refine tracked.of_quiet (fun cb => ?_) (le_refl _) fun _ _ linked => linked
      rintro ⟨_, _, _, same, ⟨_, live', reads⟩, _⟩
      cases same
      obtain rfl := Option.some.inj (live.symm.trans live')
      simp [reads] at silent
  | left live _ leaves =>
      refine tracked.of_quiet (fun cb => ?_) (nextClosure_drop _ _).ge fun _ _ => links_drop _ _
      rintro ⟨_, _, _, same, _⟩
      cases same
      simp at leaves
  | refused live _ given found =>
      refine tracked.of_quiet (fun cb => ?_) (nextClosure_drop _ _).ge fun _ _ => links_drop _ _
      rintro ⟨_, _, _, same, _, given', free⟩
      cases same
      obtain rfl := Option.some.inj (given.symm.trans given')
      rw [found] at free
      cases free
  | connected live reads given free =>
      exact tracked.connect ⟨_, _, _, rfl, ⟨_, live, reads⟩, given, free⟩ live _ _
  | subscribed _ _ _ _ same rounds =>
      obtain ⟨topics, topicHeap, after⟩ := subscribeTuples_view same rounds
      rw [after]
      refine tracked.of_quiet (fun cb => ?_) (le_refl _) fun _ _ linked => linked
      rintro ⟨_, _, _, same, _⟩
      cases same
  | @published _ _ _ _ _ _ topic =>
      obtain ⟨topics, topicHeap, after⟩ := b.view.createTopic_frame topic
      rw [after]
      refine tracked.of_quiet (fun cb => ?_) (le_refl _) fun _ _ linked => linked
      rintro ⟨_, _, _, same, _⟩
      cases same

theorem tracked_of_run (run : Run BrokerStep (startServer : Broker T) tr b) :
    Tracked tr b.view := by
  induction run with
  | nil =>
      obtain ⟨topics, topicHeap, same⟩ := startServer_view (T := T)
      rw [same]
      refine ⟨fun cb connected => ?_, nofun⟩
      obtain ⟨_, member, _⟩ := connected
      cases member
  | snoc _ last ih =>
      obtain ⟨_, fuel, run⟩ := last
      exact ih.effect (dispatch_effect run)

end Accepting

/-! ## Following the pointer -/

section Following

variable [KeyTable T] {b : Broker T} {cb : ClosureRef} {closure : Closure} {fuel : Nat}
  {results : List Int}

/-- A callback that starts by looking for the client of the closure. -/
theorem derefObj_null {α β : Type} {heap : Heap Closure} (clientHeap : Heap α)
    (live : heap.get? cb = some closure) (none_ : closure.obj = none)
    (rest : Closure → Nat × α → Except Fault β) :
    (deref heap cb >>= fun closure => derefObj clientHeap closure.obj >>= rest closure) =
      .error .nullDeref := by
  have found : deref heap cb = .ok closure := deref_eq_ok.mpr live
  have null : derefObj clientHeap closure.obj = .error .nullDeref := by
    rw [none_]
    rfl
  rw [found]
  show (derefObj clientHeap closure.obj >>= _) = _
  rw [null]
  rfl

/-- Whatever uses the client of a closure that has none follows NULL. -/
theorem dispatch_nullDeref {input : Input} (live : b.closureHeap.get? cb = some closure)
    (reads : closure.call = .onRead) (none_ : closure.obj = none) (uses : input.UsesObj) :
    dispatch fuel b (.ready cb input results) = .error .nullDeref := by
  rw [dispatch_reading live reads]
  have live₀ := get?_setClosure live { closure with armed := none }
  generalize setClosure b cb { closure with armed := none } = b₀ at live₀
  cases input with
  | dropped => exact uses.elim
  | packetErr => exact derefObj_null _ live₀ none_ _
  | request request =>
      let b₁ := { b₀ with info := { b₀.info with bytesRecv := b₀.info.bytesRecv + 1 } }
      have handled : handle fuel b₁ cb results request = .error .nullDeref := by
        cases request with
        | connect => exact uses.elim
        | disconnect | subscribe | unsubscribe | publish => exact derefObj_null _ live₀ none_ _
      show (handle fuel b₁ cb results request >>= _) = _
      rw [handled]
      rfl

theorem deref_error {α : Type} {heap : Heap α} {p : Nat} {e : Fault}
    (failed : deref heap p = .error e) : e = .useAfterFree := by
  rw [deref] at failed
  split at failed <;> cases failed
  rfl

theorem dropConnection_error {clientId closureId : CString} {e : Fault}
    (failed : dropConnection b clientId closureId = .error e) : e = .useAfterFree := by
  obtain first | ⟨b₁, _, rest⟩ := bind_eq_error.mp failed
  · rw [delClient] at first
    split at first
    · cases first
    · obtain freed | ⟨_, _, done⟩ := bind_eq_error.mp first
      · exact deref_error freed
      · cases done
  · obtain second | ⟨b₂, _, done⟩ := bind_eq_error.mp rest
    · rw [delClosure] at second
      split at second
      · cases second
      · obtain freed | ⟨_, _, done⟩ := bind_eq_error.mp second
        · exact deref_error freed
        · cases done
    · cases done

end Following

section Puts

variable {V : Type*} {P : Fault → Prop}

theorem rehashLoop_error {put : HashTable V → CString → V → List Bool → Except Fault (Put V)}
    (each : ∀ t k v as e, put t k v as = .error e → P e) {entries : List (Option (CString × V))}
    {table : HashTable V} {allocs : List Bool} {e : Fault}
    (failed : rehashLoop put entries table allocs = .error e) : P e := by
  induction entries generalizing table allocs with
  | nil => cases failed
  | cons entry entries ih =>
      cases entry with
      | none => exact ih failed
      | some entry =>
          obtain first | ⟨⟨status, t, as⟩, _, rest⟩ := bind_eq_error.mp failed
          · exact each _ _ _ _ _ first
          · dsimp only at rest
            split at rest
            · cases rest
            · exact ih rest

/-- A put fails by not returning or by an index beyond `int`. -/
theorem hashtablePut_error {fuel : Nat} {table : HashTable V} {key : CString} {val : V}
    {allocs : List Bool} {e : Fault} (failed : hashtablePut fuel table key val allocs = .error e) :
    e = .noReturn ∨ e = .intOverflow := by
  induction fuel generalizing table key val allocs e with
  | zero =>
      cases failed
      exact .inl rfl
  | succ fuel ih =>
      rw [hashtablePut] at failed
      split at failed
      · split at failed
        · cases failed
          exact .inr rfl
        · cases failed
      · obtain rebuild | ⟨⟨status, t, as⟩, _, rest⟩ := bind_eq_error.mp failed
        · have each (t : HashTable V) (k : CString) (v : V) (as : List Bool) (e : Fault)
              (put : hashtablePut fuel t k v as = .error e) : e = .noReturn ∨ e = .intOverflow :=
            ih put
          cases allocs with
          | nil => exact rehashLoop_error each rebuild
          | cons succeeds allocs =>
              cases succeeds with
              | false => cases rebuild
              | true => exact rehashLoop_error each rebuild
        · dsimp only at rest
          split at rest
          · cases rest
          · exact ih rest

end Puts

section Sequences

variable {b : Broker HashTable} {cb : ClosureRef} {closure : Closure} {fuel : Nat}
  {results : List Int} {input : Input}

/-- A CONNECT never follows NULL. -/
theorem connectHandler_not_nullDeref {pkt : MqttConnect} :
    connectHandler fuel b cb pkt ≠ .error .nullDeref := by
  intro failed
  obtain lost | ⟨closure, _, rest⟩ := bind_eq_error.mp failed
  · cases deref_error lost
  · cases given : pkt.payload.clientId with
    | none =>
        rw [given] at rest
        cases rest
    | some block =>
        simp only [given] at rest
        split at rest
        · obtain dropped | ⟨_, _, done⟩ := bind_eq_error.mp rest
          · cases dropConnection_error dropped
          · cases done
        · obtain put | ⟨⟨status, clients⟩, _, rest⟩ := bind_eq_error.mp rest
          · obtain put | ⟨_, _, done⟩ := bind_eq_error.mp put
            · obtain fault | fault := hashtablePut_error put <;> cases fault
            · cases done
          · have packs : packMqttPacket (.connack (mqttPacketConnack connackByte 0 0)) .connack =
                .ok ⟨4, [0x20, 2, 0, 0]⟩ := by decide
            dsimp only at rest
            rw [packs] at rest
            cases rest

/-- Nothing else follows NULL on a closure without a client. -/
theorem dispatch_not_nullDeref (live : b.closureHeap.get? cb = some closure)
    (reads : closure.call = .onRead) (unused : ¬ input.UsesObj) :
    dispatch fuel b (.ready cb input results) ≠ .error .nullDeref := by
  rw [dispatch_reading live reads]
  have live₀ := get?_setClosure live { closure with armed := none }
  generalize setClosure b cb { closure with armed := none } = b₀ at live₀
  intro failed
  cases input with
  | dropped => cases failed
  | packetErr => exact unused trivial
  | request request =>
      cases request with
      | connect pkt =>
          obtain handled | ⟨⟨rc, b₂⟩, handled, rest⟩ := bind_eq_error.mp failed
          · exact connectHandler_not_nullDeref handled
          · change rearm b₂ cb rc = .error .nullDeref at rest
            rw [rearm] at rest
            split at rest
            · obtain lost | ⟨_, _, done⟩ := bind_eq_error.mp rest
              · cases deref_error lost
              · cases done
            · cases rest
      | _ => exact unused trivial

/-- In any run, the next packet on a connection follows NULL exactly if it uses the
client and no CONNECT has been accepted on the connection before. -/
theorem not_followsNull_iff {tr : List (Broker HashTable × Event)}
    (run : Run BrokerStep startServer tr b) (cb : ClosureRef) (input : Input) :
    ¬ FollowsNull b cb input ↔ (Reading b cb → input.UsesObj → Connected tr cb) := by
  have tracked := tracked_of_run run
  constructor
  · rintro follows ⟨closure, live, reads⟩ uses
    apply (tracked.obj cb closure.link (view_links live)).mp
    intro none_
    exact follows ⟨closure, 0, [], live, reads, none_, dispatch_nullDeref live reads none_ uses⟩
  · rintro connected ⟨closure, fuel, results, live, reads, none_, failed⟩
    by_cases uses : input.UsesObj
    · have some_ := (tracked.obj cb closure.link (view_links live)).mpr
        (connected ⟨closure, live, reads⟩ uses)
      exact some_ none_
    · exact dispatch_not_nullDeref live reads uses failed

end Sequences

/-! ## A DISCONNECT as the first packet -/

theorem replay_accept :
    ((replay brokerNext (startServer : Broker HashTable) [.accept 5 (uuidOf 0)]).bind fun r =>
      r.2.closureHeap.get? 0).map (fun closure => (closure.call, closure.obj)) =
        some (.onRead, none) := by
  decide +kernel

/-- An accepted connection reads and has no client. -/
theorem run_accept : ∃ tr b, Run BrokerStep (startServer : Broker HashTable) tr b ∧
    tr.map Prod.snd = [.accept 5 (uuidOf 0)] ∧
    ∃ closure, b.closureHeap.get? 0 = some closure ∧ closure.call = .onRead ∧
      closure.obj = none := by
  obtain ⟨closure, found, facts⟩ := Option.map_eq_some_iff.mp replay_accept
  obtain ⟨tr, b, run, labels, live⟩ := Run.of_replay_bind (fun _ _ _ => brokerNext_step) found
  obtain ⟨reads, none_⟩ := Prod.mk.inj facts
  exact ⟨tr, b, run, labels, closure, live, reads, none_⟩

theorem accepted_disconnect_followsNull :
    ¬ ∀ tr b, Run BrokerStep (startServer : Broker HashTable) tr b →
      ∀ cb input, ¬ FollowsNull b cb input := by
  intro always
  obtain ⟨tr, b, run, _, closure, live, reads, none_⟩ := run_accept
  refine always tr b run 0 (.request .disconnect) ⟨closure, 0, [], live, reads, none_, ?_⟩
  exact dispatch_nullDeref live reads none_ trivial

/-- A CONNECT is read safely then. -/
theorem accepted_connect_safe :
    ∃ tr b, Run BrokerStep (startServer : Broker HashTable) tr b ∧
      tr.map Prod.snd = [.accept 5 (uuidOf 0)] ∧
      ¬ FollowsNull b 0 (.request (.connect (connectAs 97))) := by
  obtain ⟨tr, b, run, labels, _⟩ := run_accept
  exact ⟨tr, b, run, labels, (not_followsNull_iff run 0 _).mpr fun _ uses => uses.elim⟩

end SolBroker
