import Mathlib
import SolBroker.Hash.Release
import SolBroker.Broker.Maps

/-!
# The end of the server

When the event loop returns, `start_server` releases its two tables, and with them the
clients and the closures that are in them. Nothing else ever frees what is left at that
moment; so the release is complete exactly because the tables index all there is.
-/

namespace SolBroker

open Transition Simulation

/-- `client_destructor`. -/
def clientDestructor {T : Type → Type} (entry : CString × ClientRef) (b : Broker T) :
    Except Fault (Int × Broker T) := do
  let _ ← deref b.clientHeap entry.2
  return (0, { b with clientHeap := b.clientHeap.free entry.2 })

/-- `closure_destructor`. -/
def closureDestructor {T : Type → Type} (entry : CString × ClosureRef) (b : Broker T) :
    Except Fault (Int × Broker T) := do
  let _ ← deref b.closureHeap entry.2
  return (0, { b with closureHeap := b.closureHeap.free entry.2 })

/-- The end of `start_server`. The tables of the result are freed. -/
def stopServer (b : Broker HashTable) : Except Fault (Broker HashTable) := do
  let b ← hashtableRelease b.clients clientDestructor b
  hashtableRelease b.closures closureDestructor b

/-! ## Freeing what a table indexes -/

section Freeing

variable {α S : Type} {func : CString × Nat → S → Except Fault (Int × S)} (put : Heap α → S)

/-- A walk that frees the address of each entry, if the entries have all there is. -/
theorem walk_frees
    (frees : ∀ e h a, h.get? e.2 = some a → func e (put h) = .ok (hashtableOk, put (h.free e.2)))
    {es : List (CString × Nat)} {h : Heap α} (nodup : (es.map Prod.snd).Nodup)
    (live : ∀ p, p ∈ es.map Prod.snd ↔ (h.get? p).isSome) :
    ∃ h', walk func es (put h) = .ok (hashtableOk, put h') ∧ h'.objects = [] := by
  let inv (es : List (CString × Nat)) (s : S) : Prop := ∃ h, s = put h ∧
    (es.map Prod.snd).Nodup ∧ ∀ p, p ∈ es.map Prod.snd ↔ (h.get? p).isSome
  have round (e : CString × Nat) (es : List (CString × Nat)) (s : S) (kept : inv (e :: es) s) :
      ∃ s', func e s = .ok (hashtableOk, s') ∧ inv es s' := by
    obtain ⟨h, rfl, nodup, live⟩ := kept
    obtain ⟨apart, nodup⟩ := List.nodup_cons.mp nodup
    obtain ⟨a, held⟩ := Option.isSome_iff_exists.mp ((live e.2).mp List.mem_cons_self)
    refine ⟨_, frees e h a held, _, rfl, nodup, fun p => ?_⟩
    rw [Heap.get?_free]
    split
    · rename_i here
      rw [here]
      exact iff_of_false apart (by simp)
    · rename_i other
      rw [← live p]
      simp [other]
  have start : inv es (put h) := ⟨h, rfl, nodup, live⟩
  obtain ⟨_, run, h', rfl, _, none_⟩ := walk_of_ok round start
  refine ⟨h', run, List.eq_nil_iff_forall_not_mem.mpr fun a member => ?_⟩
  obtain ⟨p, held⟩ := Heap.mem_objects.mp member
  exact absurd ((none_ p).mpr (by simp [held])) List.not_mem_nil

/-- The addresses in a table that represents an index. -/
theorem Represented.refs {keys : Set CString} {table : HashTable Nat} {m : KeyMap Nat}
    {name : Nat → Option CString} (rep : Represented keys table m) (indexes : Indexes m name) :
    (table.contents.map Prod.snd).Nodup ∧
      ∀ p, p ∈ table.contents.map Prod.snd ↔ (name p).isSome := by
  have stored (k : CString) (p : Nat) : (k, p) ∈ table.contents ↔ name p = some k :=
    rep.mem_contents_iff.trans (indexes k p)
  refine ⟨?_, fun p => ?_⟩
  · refine List.Nodup.map_on ?_ rep.contents_nodup
    rintro ⟨k, p⟩ member ⟨k', p'⟩ member' rfl
    have same := ((stored k p).mp member).symm.trans ((stored k' p).mp member')
    rw [Option.some.inj same]
  · rw [Option.isSome_iff_exists, List.mem_map]
    constructor
    · rintro ⟨⟨k, p⟩, member, rfl⟩
      exact ⟨k, (stored k p).mp member⟩
    · rintro ⟨k, named⟩
      exact ⟨(k, p), (stored k p).mpr named, rfl⟩

/-- Releasing a table that indexes a heap frees the heap. -/
theorem hashtableRelease_frees {keys : Set CString} {table : HashTable Nat} {m : KeyMap Nat}
    {name : α → CString} {h : Heap α}
    (frees : ∀ e h a, h.get? e.2 = some a → func e (put h) = .ok (hashtableOk, put (h.free e.2)))
    (rep : Represented keys table m) (indexes : Indexes m (Option.map name ∘ h.get?)) :
    ∃ h', hashtableRelease table func (put h) = .ok (put h') ∧ h'.objects = [] := by
  obtain ⟨nodup, refs⟩ := rep.refs indexes
  have live (p : Nat) : p ∈ table.contents.map Prod.snd ↔ (h.get? p).isSome := by
    rw [refs p, Function.comp_apply, Option.isSome_map]
  obtain ⟨h', run, none_⟩ := walk_frees put frees nodup live
  rw [hashtableRelease, hashtableMap]
  split
  · rename_i empty
    refine ⟨h, rfl, ?_⟩
    have contents : table.contents = [] := by
      rw [← List.length_eq_zero_iff, ← rep.known.sound.counted]
      exact Nat.le_zero.mp empty
    refine List.eq_nil_iff_forall_not_mem.mpr fun a member => ?_
    obtain ⟨p, held⟩ := Heap.mem_objects.mp member
    have inside := (live p).mpr (by simp [held])
    rw [contents] at inside
    cases inside
  · refine ⟨h', ?_, none_⟩
    rw [mapLoop_eq_walk_contents, run]
    rfl

end Freeing

/-! ## The server at its end -/

section Runs

variable {keys : Set CString} {b : Broker HashTable} {a : Broker KeyMap}

theorem clientDestructor_eq {e : CString × ClientRef} {h : Heap SolClient} {client : SolClient}
    (held : h.get? e.2 = some client) : clientDestructor e { b with clientHeap := h } =
      .ok (hashtableOk, { b with clientHeap := h.free e.2 }) := by
  rw [clientDestructor, deref_eq_ok.mpr held]
  rfl

theorem closureDestructor_eq {e : CString × ClosureRef} {h : Heap Closure} {closure : Closure}
    (held : h.get? e.2 = some closure) : closureDestructor e { b with closureHeap := h } =
      .ok (hashtableOk, { b with closureHeap := h.free e.2 }) := by
  rw [closureDestructor, deref_eq_ok.mpr held]
  rfl

/-- When the server ends, after any run, it frees every client and every closure there is,
none of them twice, and changes nothing else. -/
theorem stopServer_freesAll (prefixFree : PrefixFree keys)
    {tr : List (Broker HashTable × ServerEvent)} (run : Run ServerStep startServer tr b)
    (within : ∀ visit ∈ tr, visit.2.ConnectsWithin keys) :
    ∃ clientHeap closureHeap, stopServer b = .ok { b with clientHeap, closureHeap } ∧
      clientHeap.objects = [] ∧ closureHeap.objects = [] := by
  obtain ⟨_, a, _, ⟨agrees, tied⟩, _⟩ := exists_maps_of_run prefixFree run within
  obtain ⟨m, n, rfl, clients, closures⟩ := agrees.exists_tables
  obtain ⟨clientHeap, first, noClient⟩ := hashtableRelease_frees
    (fun h => { b with clientHeap := h }) (fun e h client held => clientDestructor_eq held)
    clients tied.clients
  have ids : Option.map Link.closureId ∘ (b.withTables m n).view.links =
      Option.map Closure.closureId ∘ b.closureHeap.get? := by
    funext cb
    exact Option.map_map ..
  obtain ⟨closureHeap, second, noClosure⟩ := hashtableRelease_frees
    (fun h => { b with clientHeap, closureHeap := h })
    (fun e h closure held => @closureDestructor_eq { b with clientHeap } e h closure held)
    closures (ids ▸ tied.closures)
  refine ⟨clientHeap, closureHeap, ?_, noClient, noClosure⟩
  show (hashtableRelease b.clients clientDestructor b >>= _) = _
  rw [show hashtableRelease b.clients clientDestructor b = .ok { b with clientHeap } from first]
  exact second

theorem replay_connectAndTick_heaps :
    (replay serverNext (startServer : Broker HashTable) connectAndTick).map (fun r =>
      (r.2.clientHeap.objects.length, r.2.closureHeap.objects.length)) = some (2, 2) := by
  decide +kernel

/-- Two clients and two closures are there to be freed. -/
theorem connectAndTick_freed : ∃ tr b b', Run ServerStep (startServer : Broker HashTable) tr b ∧
    b.clientHeap.objects.length = 2 ∧ b.closureHeap.objects.length = 2 ∧ stopServer b = .ok b' ∧
    b'.clientHeap.objects = [] ∧ b'.closureHeap.objects = [] := by
  obtain ⟨tr, b, run, labels, facts⟩ :=
    Run.of_replay_map serverNext_step replay_connectAndTick_heaps
  have within : ∀ visit ∈ tr, visit.2.ConnectsWithin bothIds := by
    rw [← List.forall_mem_map, labels]
    exact connectAndTick_within
  obtain ⟨clientHeap, closureHeap, stopped, freed⟩ :=
    stopServer_freesAll prefixFree_bothIds run within
  obtain ⟨twoClients, twoClosures⟩ := Prod.mk.inj facts
  exact ⟨tr, b, _, run, twoClients, twoClosures, stopped, freed⟩

end Runs

end SolBroker
