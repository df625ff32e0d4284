import Mathlib
import SolBroker.Lib.Rebuild
import SolBroker.Hash.Contents
import SolBroker.Hash.Exact

/-!
# The table while it grows

`hashtable_put` and `hashtable_rehash` call each other, but what is still to be put is
one list at any moment: a rehash writes the old entries in front of it. The calls
return exactly if this list becomes empty in some round, and where an allocation fails
they leave what the round so far has made of the table.
-/

namespace SolBroker

open Rebuilding Transition

variable {V : Type*} {table table' : HashTable V} {key : CString} {val : V}
  {allocs allocs' : List Bool}

/-- The eight slots for a key in a table of `n`. -/
def slots (n : Nat) (key : CString) : List Nat :=
  Probing.path n maxChainLength (hashtableHashInt n key)

/-- The keys that a put which rebuilds the table puts: the stored ones in the order of their
slots, and the new one. -/
def HashTable.queue (table : HashTable V) (key : CString) : List CString :=
  table.contents.map Prod.fst ++ [key]

theorem HashTable.nodup_queue_iff : (table.queue key).Nodup ↔
    (table.contents.map Prod.fst).Nodup ∧ key ∉ table.contents.map Prod.fst := by
  rw [HashTable.queue, List.nodup_append]
  refine and_congr_right fun _ => ?_
  simp only [List.nodup_singleton, true_and, List.mem_singleton, forall_eq]
  exact ⟨fun apart member => apart key member rfl,
    fun absent a member same => absent (same ▸ member)⟩

/-- The table as a container that is rebuilt: `hashtable_hash` finds the places, and a
rehash starts with twice as many free ones. -/
def growing : Store (HashTable V) (CString × V) Fault where
  place table e :=
    match hashtableHash table e.1 with
    | none => .ok none
    | some index =>
        if intMax < index then .error .intOverflow else .ok (some (table.place index e.1 e.2))
  grown table := .zeroed (2 * table.tableSize)
  contents := HashTable.contents

/-- The two statuses of a put. -/
def putStatus (waiting : List (CString × V)) : Int :=
  if waiting = [] then hashtableOk else -hashtableErr

/-- What putting a list of entries returns, told from what is left waiting. -/
def Settles (table : HashTable V) (es : List (CString × V)) (allocs : List Bool) :
    Put V → Prop
  | (status, table', allocs') => ∃ waiting, growing.Drains table es allocs table' waiting allocs' ∧
      status = putStatus waiting

@[simp] theorem putStatus_nil : putStatus ([] : List (CString × V)) = hashtableOk := rfl

theorem putStatus_of_ne {waiting : List (CString × V)} (stuck : waiting ≠ []) :
    putStatus waiting = -hashtableErr :=
  if_neg stuck

theorem putStatus_eq_ok_iff {waiting : List (CString × V)} :
    putStatus waiting = hashtableOk ↔ waiting = [] := by
  by_cases all : waiting = []
  · simp [all]
  · rw [putStatus_of_ne all]
    exact iff_of_false (by decide) all

theorem growing_place_of_none (full : hashtableHash table key = none) :
    growing.place table (key, val) = .ok none := by
  simp only [growing, full]

theorem growing_place_of_some {i : Nat} (hash : hashtableHash table key = some i)
    (fits : i ≤ intMax) : growing.place table (key, val) = .ok (some (table.place i key val)) := by
  simp only [growing, hash, if_neg (not_lt.mpr fits)]

theorem growing_place_eq_some {e : CString × V}
    (placed : growing.place table e = .ok (some table')) :
    ∃ i, hashtableHash table e.1 = some i ∧ i ≤ intMax ∧ table' = table.place i e.1 e.2 := by
  simp only [growing] at placed
  cases hash : hashtableHash table e.1 with
  | none => simp [hash] at placed
  | some i =>
      simp only [hash] at placed
      split at placed
      · cases placed
      · rename_i fits
        cases placed
        exact ⟨i, rfl, not_lt.mp fits, rfl⟩

theorem growing_place_eq_none {e : CString × V} (placed : growing.place table e = .ok none) :
    hashtableHash table e.1 = none := by
  simp only [growing] at placed
  cases hash : hashtableHash table e.1 with
  | none => rfl
  | some i =>
      simp only [hash] at placed
      split at placed <;> cases placed

/-! ## The nested calls and the list -/

section Calls

variable {put : HashTable V → CString → V → List Bool → Except Fault (Put V)}

/-- The loop passes over the entries that are not taken. -/
theorem rehashLoop_reduceOption (entries : List (Option (CString × V))) :
    rehashLoop put entries table allocs =
      rehashLoop put (entries.reduceOption.map some) table allocs := by
  induction entries generalizing table allocs with
  | nil => rfl
  | cons entry entries ih =>
      cases entry with
      | none => exact ih
      | some e =>
          rw [List.reduceOption_cons_of_some, List.map_cons]
          simp only [rehashLoop, ih]

theorem rehashLoop_settles
    (settles : ∀ t k v as r, put t k v as = .ok r → Settles t [(k, v)] as r)
    {es : List (CString × V)} {r : Put V}
    (run : rehashLoop put (es.map some) table allocs = .ok r) : Settles table es allocs r := by
  induction es generalizing table allocs with
  | nil =>
      cases run
      exact ⟨[], .done, rfl⟩
  | cons e es ih =>
      obtain ⟨⟨status, t, as⟩, first, rest⟩ := bind_eq_ok.mp run
      obtain ⟨waiting, drains, rfl⟩ := settles _ _ _ _ _ first
      dsimp only at rest
      by_cases all : waiting = []
      · subst all
        rw [if_neg (not_not.mpr putStatus_nil)] at rest
        obtain ⟨status', t', as'⟩ := r
        obtain ⟨left, later, same⟩ := ih rest
        exact ⟨left, drains.append later, same⟩
      · rw [if_pos (mt putStatus_eq_ok_iff.mp all)] at rest
        cases rest
        refine ⟨waiting ++ es, drains.append_waiting all es, ?_⟩
        rw [putStatus_of_ne all, putStatus_of_ne (by simp [all])]

theorem rehashLoop_append (xs ys : List (Option (CString × V))) :
    rehashLoop put (xs ++ ys) table allocs = (do
      let (status, table, allocs) ← rehashLoop put xs table allocs
      if status ≠ hashtableOk then pure (status, table, allocs)
      else rehashLoop put ys table allocs) := by
  induction xs generalizing table allocs with
  | nil => rfl
  | cons entry xs ih =>
      cases entry with
      | none => exact ih
      | some e =>
          obtain ⟨k, w⟩ := e
          rw [List.cons_append, rehashLoop, rehashLoop]
          cases put table k w allocs with
          | error fault => rfl
          | ok result =>
              obtain ⟨status, t, as⟩ := result
              simp only [bind, Except.bind]
              by_cases failed : status ≠ hashtableOk
              · simp only [if_pos failed, pure, Except.pure]
              · simp only [if_neg failed]
                exact ih

end Calls

variable {fuel : Nat}

/-- A put that finds the table full and gets its allocation. -/
theorem hashtablePut_full (full : hashtableHash table key = none)
    (granted : allocs.head? ≠ some false) :
    hashtablePut (fuel + 1) table key val allocs =
      rehashLoop (hashtablePut fuel) (table.contents.map some) (.zeroed (2 * table.tableSize))
        allocs.tail >>= fun r =>
          if r.1 = -hashtableErr then .ok (-hashtableErr, r.2.1, r.2.2)
          else hashtablePut fuel r.2.1 key val r.2.2 := by
  rw [hashtablePut, full, HashTable.contents, ← rehashLoop_reduceOption]
  cases allocs with
  | nil => rfl
  | cons answer allocs =>
      cases answer with
      | true => rfl
      | false => exact absurd rfl granted

theorem hashtablePut_denied (full : hashtableHash table key = none) :
    hashtablePut (fuel + 1) table key val (false :: allocs) =
      .ok (-hashtableErr, table, allocs) := by
  rw [hashtablePut, full]
  rfl

theorem hashtablePut_placed {i : Nat} (hash : hashtableHash table key = some i)
    (fits : i ≤ intMax) :
    hashtablePut (fuel + 1) table key val allocs =
      .ok (hashtableOk, table.place i key val, allocs) := by
  rw [hashtablePut, hash]
  exact if_neg (not_lt.mpr fits)

/-- What a put that returns leaves. -/
theorem hashtablePut_settles {r : Put V}
    (run : hashtablePut fuel table key val allocs = .ok r) :
    Settles table [(key, val)] allocs r := by
  induction fuel generalizing table key val allocs r with
  | zero => cases run
  | succ fuel ih =>
      cases hash : hashtableHash table key with
      | some i =>
          rw [hashtablePut, hash] at run
          dsimp only at run
          split at run
          · cases run
          · rename_i fits
            cases run
            exact ⟨[], .placed (growing_place_of_some hash (not_lt.mp fits)) .done, rfl⟩
      | none =>
          have full : growing.place table (key, val) = .ok none := growing_place_of_none hash
          by_cases failed : allocs.head? = some false
          · obtain ⟨as', rfl⟩ : ∃ as', allocs = false :: as' := List.head?_eq_some_iff.mp failed
            rw [hashtablePut_denied hash] at run
            cases run
            exact ⟨_, .denied full, rfl⟩
          · rw [hashtablePut_full hash failed] at run
            obtain ⟨⟨status, t, as⟩, loop, rest⟩ := bind_eq_ok.mp run
            obtain ⟨waiting, moved, rfl⟩ := rehashLoop_settles (fun _ _ _ _ _ => ih) loop
            dsimp only at rest
            by_cases all : waiting = []
            · subst all
              rw [putStatus_nil, if_neg (by decide)] at rest
              obtain ⟨status', t', as'⟩ := r
              obtain ⟨left, later, same⟩ := ih rest
              exact ⟨left, .rebuilt full failed (moved.append later), same⟩
            · rw [if_pos (putStatus_of_ne all)] at rest
              cases rest
              have stuck := moved.append_waiting all [(key, val)]
              refine ⟨waiting ++ [(key, val)], .rebuilt full failed stuck, ?_⟩
              rw [putStatus_of_ne (by simp)]

/-- With enough fuel the nested calls get as far as the list does. -/
theorem exists_rehashLoop_of_drains {es waiting : List (CString × V)}
    (drains : growing.Drains table es allocs table' waiting allocs') :
    ∃ fuel, rehashLoop (hashtablePut fuel) (es.map some) table allocs =
      .ok (putStatus waiting, table', allocs') := by
  induction drains with
  | done => exact ⟨0, rfl⟩
  | @placed table e table₁ es allocs _ _ _ found _ ih =>
      obtain ⟨i, hash, fits, rfl⟩ := growing_place_eq_some found
      obtain ⟨fuel, rest⟩ := ih
      refine ⟨fuel + 1, bind_eq_ok.mpr ⟨_, hashtablePut_placed hash fits, ?_⟩⟩
      exact rehashLoop_mono (fun _ _ _ _ _ => hashtablePut_succ) rest
  | denied full =>
      refine ⟨1, bind_eq_ok.mpr ⟨_, hashtablePut_denied (growing_place_eq_none full), ?_⟩⟩
      rw [putStatus_of_ne (by simp)]
      rfl
  | @rebuilt table e es allocs table' waiting allocs' full succeeded _ ih =>
      obtain ⟨k, w⟩ := e
      have hash := growing_place_eq_none full
      obtain ⟨fuel, loop⟩ := ih
      rw [List.map_append, rehashLoop_append] at loop
      obtain ⟨⟨status, t, as⟩, moved, rest⟩ := bind_eq_ok.mp loop
      obtain ⟨left, _, rfl⟩ := rehashLoop_settles (fun _ _ _ _ _ => hashtablePut_settles) moved
      have first : hashtablePut (fuel + 1) table k w allocs = _ := hashtablePut_full hash succeeded
      change rehashLoop _ (table.contents.map some) (.zeroed (2 * table.tableSize)) _ = _ at moved
      rw [moved] at first
      dsimp only at rest
      refine ⟨fuel + 1, ?_⟩
      by_cases all : left = []
      · rw [if_neg (not_not.mpr (putStatus_eq_ok_iff.mpr all))] at rest
        obtain ⟨⟨status, t', as'⟩, last, others⟩ := bind_eq_ok.mp rest
        rw [all] at first
        refine bind_eq_ok.mpr ⟨(status, t', as'), first.trans last, ?_⟩
        dsimp only at others ⊢
        by_cases stopped : status ≠ hashtableOk
        · rw [if_pos stopped] at others ⊢
          exact others
        · rw [if_neg stopped] at others ⊢
          exact rehashLoop_mono (fun _ _ _ _ _ => hashtablePut_succ) others
      · rw [if_pos (mt putStatus_eq_ok_iff.mp all)] at rest
        refine bind_eq_ok.mpr ⟨(-hashtableErr, t, as), ?_, ?_⟩
        · rw [first, putStatus_of_ne all]
          rfl
        · rw [putStatus_of_ne all] at rest
          exact rest

/-- The calls return what the list settles to, and nothing if it does not. -/
theorem exists_hashtablePut_iff {r : Put V} :
    (∃ fuel, hashtablePut fuel table key val allocs = .ok r) ↔
      Settles table [(key, val)] allocs r := by
  constructor
  · rintro ⟨fuel, run⟩
    exact hashtablePut_settles run
  · obtain ⟨status', t', as'⟩ := r
    rintro ⟨waiting, drains, same⟩
    obtain ⟨fuel, loop⟩ := exists_rehashLoop_of_drains drains
    obtain ⟨⟨status, t, as⟩, run, rest⟩ := bind_eq_ok.mp loop
    have stopped : (Except.ok (status, t, as) : Except Fault (Put V)) =
        .ok (status', t', as') := by
      rw [same]
      dsimp only at rest
      split at rest
      · exact rest
      · rename_i fine
        rw [not_not.mp fine]
        exact rest
    exact ⟨fuel, run.trans stopped⟩

/-- With every allocation succeeding, a put returns exactly if the list becomes empty. -/
theorem putReturns_iff_drains :
    PutReturns table key val table' ↔ growing.Drains table [(key, val)] [] table' [] [] := by
  constructor
  · rintro ⟨fuel, status, run⟩
    obtain ⟨waiting, drains, _⟩ := hashtablePut_settles run
    by_cases all : waiting = []
    · rwa [all] at drains
    · exact absurd (drains.denied_of_waiting all) List.not_mem_nil
  · intro drains
    have settles : Settles table [(key, val)] [] (hashtableOk, table', []) := ⟨[], drains, rfl⟩
    obtain ⟨fuel, run⟩ := exists_hashtablePut_iff.mpr settles
    exact ⟨fuel, _, run⟩

/-! ## What the rounds keep -/

theorem growing_drains_sound {es waiting : List (CString × V)} (sound : Sound table)
    (drains : growing.Drains table es allocs table' waiting allocs') : Sound table' := by
  refine drains.invariant (R := fun t _ => Sound t) sound ?_ ?_
  · intro t e t₁ es sound placed
    obtain ⟨i, hash, _, rfl⟩ := growing_place_eq_some placed
    exact sound.place e.2 hash
  · intro t e es sound _
    have positive := sound.positive
    exact sound_zeroed (by omega)

@[simp] theorem HashTable.contents_zeroed (n : Nat) :
    (HashTable.zeroed n : HashTable V).contents = [] := by
  simp [HashTable.zeroed, HashTable.contents, List.reduceOption]

theorem HashTable.length_contents_place_le (t : HashTable V) (i : Nat) (e : CString × V) :
    (t.place i e.1 e.2).contents.length ≤ t.contents.length + 1 :=
  (Probing.reduceOption_set_some_subperm t.entries i e).length_le

/-- Nothing is stored or waiting that was not, and nothing twice. -/
theorem growing_drains_subperm {es waiting : List (CString × V)}
    (drains : growing.Drains table es allocs table' waiting allocs') :
    (table'.contents ++ waiting).Subperm (table.contents ++ es) := by
  refine drains.invariant (R := fun t w => (t.contents ++ w).Subperm (table.contents ++ es))
    (.refl _) ?_ ?_
  · intro t e t₁ w sub placed
    obtain ⟨i, _, _, rfl⟩ := growing_place_eq_some placed
    have one : (t.place i e.1 e.2).contents.Subperm (e :: t.contents) :=
      Probing.reduceOption_set_some_subperm t.entries i e
    have more : ((t.place i e.1 e.2).contents ++ w).Subperm (e :: t.contents ++ w) :=
      (List.subperm_append_right w).mpr one
    exact (more.trans List.perm_middle.symm.subperm).trans sub
  · intro t e w sub _
    rw [show (growing.grown t).contents = [] from HashTable.contents_zeroed _]
    exact sub

/-! ## The table between calls -/

/-- A put stops at half the slots. -/
theorem PutReturns.load (returns : PutReturns table key val table') :
    table'.size ≤ table'.tableSize / 2 := by
  refine returns.rule (R := fun _ _ t' => t'.size ≤ t'.tableSize / 2) ?_ ?_
  · intro t k i w hash
    have room := (hashtableHash_eq_some_iff.mp hash).1
    rw [HashTable.tableSize_place, HashTable.place]
    dsimp only
    split <;> omega
  · intro t t₁ t' e _ _ last
    exact last

theorem TableStep.load (table : HashTable V) (op : TableOp V) (table' : HashTable V)
    (load : table.size ≤ table.tableSize / 2) (step : TableStep table op table') :
    table'.size ≤ table'.tableSize / 2 := by
  cases op with
  | put key val => exact PutReturns.load step
  | get key =>
      cases step
      exact load
  | del key =>
      cases step
      unfold hashtableDel
      cases hashtableLocate table key with
      | none => exact load
      | some i =>
          rw [HashTable.tableSize_clear]
          exact (Nat.sub_le _ _).trans load

theorem keys_of_reachable (reachable : Reachable TableStep hashtableCreate table) :
    Keys Set.univ initialSize table := by
  obtain ⟨tr, run⟩ := reachable
  exact run.invariant (keys_hashtableCreate Set.univ) fun _ _ _ known step =>
    Keys.step known (Set.mem_univ _) step

theorem load_of_reachable (reachable : Reachable TableStep hashtableCreate table) :
    table.size ≤ table.tableSize / 2 := by
  obtain ⟨tr, run⟩ := reachable
  exact @Run.invariant _ _ TableStep hashtableCreate (fun t => t.size ≤ t.tableSize / 2)
    (Nat.zero_le _) TableStep.load tr table run

/-- Wherever calls that return have brought a fresh table: its slots are four times a power
of two, `size` counts the taken ones and is at most half of all, and each of them is one
of the eight slots from the hash position of its key. -/
theorem table_representation {tr : List (HashTable V × TableOp V)}
    (run : Run TableStep hashtableCreate tr table) :
    (∃ e, table.tableSize = 4 * 2 ^ e) ∧
      table.size = (table.entries.filter Option.isSome).length ∧
      table.size ≤ table.tableSize / 2 ∧
      ∀ i k v, table.at? i = some (k, v) →
        ∃ j < 8, i = (hashtableHashInt table.tableSize k + j) % table.tableSize := by
  have known := keys_of_reachable run.reachable
  refine ⟨known.grown, ?_, load_of_reachable run.reachable, ?_⟩
  · rw [known.sound.counted, HashTable.contents, List.reduceOption_length_eq]
  · intro i k v held
    have home := known.sound.home i k v held
    exact (Probing.mem_path_iff (hashtableHashInt_lt known.sound.positive k)).mp home

/-- With a third client the table of four slots is doubled. -/
theorem threeClients_representation :
    (∃ e, threeClients.tableSize = 4 * 2 ^ e) ∧
      threeClients.size = (threeClients.entries.filter Option.isSome).length ∧
      threeClients.size ≤ threeClients.tableSize / 2 ∧
      ∀ i k v, threeClients.at? i = some (k, v) →
        ∃ j < 8, i = (hashtableHashInt threeClients.tableSize k + j) % threeClients.tableSize := by
  have first : TableStep hashtableCreate (.put clientA 1) (hashtableCreate.place 2 clientA 1) :=
    ⟨1, 0, by decide⟩
  have second : TableStep (hashtableCreate.place 2 clientA 1) (.put clientB 2) twoClients :=
    ⟨1, 0, by decide⟩
  have third : TableStep twoClients (.put clientC 3) threeClients := ⟨2, 0, by decide⟩
  exact table_representation (.snoc (.snoc (.snoc .nil first) second) third)

/-! ## Calls in order -/

/-- A call that returns with so much fuel, every allocation succeeding. -/
def tableNext (fuel : Nat) (table : HashTable V) : TableOp V → Option (HashTable V)
  | .put key val =>
      match hashtablePut fuel table key val [] with
      | .ok (_, table', []) => some table'
      | _ => none
  | .get _ => some table
  | .del key => some (hashtableDel table key).2.1

theorem tableNext_step (fuel : Nat) (table : HashTable V) (op : TableOp V) (table' : HashTable V)
    (next : tableNext fuel table op = some table') : TableStep table op table' := by
  cases op with
  | put key val =>
      simp only [tableNext] at next
      split at next
      · rename_i status after run
        cases next
        exact ⟨fuel, status, run⟩
      · cases next
  | get key => exact (Option.some.inj next).symm
  | del key => exact (Option.some.inj next).symm

end SolBroker
