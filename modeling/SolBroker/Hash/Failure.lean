import Mathlib
import SolBroker.Hash.Room
import SolBroker.Hash.Seating

/-!
# A put whose allocation fails

The rounds that had their allocation have replaced the table by then, and what was still
waiting is in none. So a failure leaves the table as it was found if the first
allocation fails, and otherwise only if the new entry alone is waiting and no key was taken
for another. Both can be told from the stored keys, their order and their hash positions.
-/

namespace SolBroker

open Probing Rebuilding Transition

variable {V : Type*} {table table' t : HashTable V} {key : CString} {val : V}
  {allocs allocs' : List Bool} {waiting : List (CString × V)}

/-- What was found for the stored keys is found, and as many entries are counted. -/
def Atomic (table table' : HashTable V) : Prop :=
  (∀ e ∈ table.contents, hashtableGet table' e.1 = hashtableGet table e.1) ∧
    hashtableSize table' = hashtableSize table

/-- Each key is there once and the new one is not, no key comes past one it begins with in the
rounds up to `c`, and in that round only the new key finds no seat; at the seats of this round
the lookup of every stored key stops at one with the value that is found for it now. -/
structure Spared (table : HashTable V) (key : CString) (c : Nat) : Prop where
  once : (table.queue key).Nodup
  told : ∀ b ≤ c, TellsApartIn table key b
  alone : (seated table.slotsIn (table.queue key) c).2 = [key]
  answers : ∀ e ∈ table.contents, ∀ s ∈ (seated table.slotsIn (table.queue key) c).1,
    stop (table.slotsIn c e.1) (seated table.slotsIn (table.queue key) c).1 e.1 = some s.2 →
      hashtableGet table e.1 = lastValue table.contents s.1

/-! ## What a failure leaves -/

/-- The round in which an allocation fails is known from the number of those that did not. -/
theorem tableSize_of_waiting
    (drains : growing.Drains (.zeroed (2 * table.tableSize)) (table.contents ++ [(key, val)])
      allocs t waiting allocs') (stuck : waiting ≠ []) :
    t.tableSize = 2 * table.tableSize * 2 ^ granted allocs := by
  have placing (t : HashTable V) (e : CString × V) (t₁ : HashTable V)
      (placed : growing.place t e = .ok (some t₁)) : t₁.tableSize = t.tableSize := by
    obtain ⟨i, _, _, rfl⟩ := growing_place_eq_some placed
    exact HashTable.tableSize_place ..
  have size := drains.size_of_waiting placing (fun t => HashTable.tableSize_zeroed _) stuck
  rw [size, HashTable.tableSize_zeroed]

/-- A put fails at its first allocation, or in the round for which none was left. -/
theorem drains_of_failed {fuel : Nat} {status : Int}
    (run : hashtablePut fuel table key val allocs = .ok (status, table', allocs'))
    (failed : status ≠ hashtableOk) :
    (allocs.head? = some false ∧ table' = table) ∨
      ∃ c waiting, granted allocs = c + 1 ∧ waiting ≠ [] ∧
        growing.Drains (.zeroed (2 * table.tableSize)) (table.contents ++ [(key, val)])
          allocs.tail table' waiting allocs' ∧
        table'.tableSize = 2 * table.tableSize * 2 ^ c := by
  obtain ⟨waiting, drains, rfl⟩ := hashtablePut_settles run
  have stuck : waiting ≠ [] := mt putStatus_eq_ok_iff.mpr failed
  cases drains with
  | placed _ rest =>
      cases rest
      exact absurd rfl stuck
  | denied => exact .inl ⟨rfl, rfl⟩
  | rebuilt _ succeeded rest =>
      match allocs with
      | true :: allocs =>
          exact .inr ⟨_, waiting, rfl, stuck, rest, tableSize_of_waiting rest stuck⟩
      | false :: _ => exact absurd rfl succeeded
      | [] => exact absurd (rest.denied_of_waiting stuck) List.not_mem_nil

theorem Midway.round_eq {e : CString × V} {d c : Nat} {seats : List (CString × Nat)}
    (mid : Midway table e t waiting d seats) (positive : 0 < table.tableSize)
    (size : t.tableSize = 2 * table.tableSize * 2 ^ c) : d = c := by
  have same := mid.size.symm.trans size
  exact Nat.pow_right_injective le_rfl (Nat.eq_of_mul_eq_mul_left (by omega) same)

/-- Where the new entry alone is left, the others have the values they had. -/
theorem Midway.lastValue_seat {d i : Nat} {seats : List (CString × Nat)} {q : CString}
    (mid : Midway table (key, val) t [(key, val)] d seats)
    (full : seat (t.path key) seats key = none) (member : (q, i) ∈ seats) :
    lastValue t.contents q = lastValue table.contents q := by
  have other : key ≠ q := by
    rintro rfl
    have own := mid.laid.steady _ member
    rw [full] at own
    cases own
  have values := mid.values q
  rwa [lastValue_concat_of_ne other, lastValue_concat_of_ne other] at values

/-- If the counter is as before, the new entry alone is waiting. -/
theorem waiting_eq_of_size (sound : Sound table)
    (drains : growing.Drains (.zeroed (2 * table.tableSize)) (table.contents ++ [(key, val)])
      allocs t waiting allocs') (stuck : waiting ≠ []) (size : t.size = table.size) :
    waiting = [(key, val)] := by
  have last := drains.getLast? List.getLast?_concat stuck
  have zeroed := sound_zeroed (V := V) (n := 2 * table.tableSize) (by have := sound.positive; omega)
  have few := (growing_drains_subperm drains).length_le
  rw [HashTable.contents_zeroed, List.nil_append, List.length_append, List.length_append,
    ← sound.counted, ← (growing_drains_sound zeroed drains).counted, size,
    List.length_singleton] at few
  match waiting with
  | [] => exact absurd rfl stuck
  | [e] => simpa using last
  | _ :: _ :: _ =>
      simp only [List.length_cons] at few
      omega

theorem contents_perm_of_length
    (drains : growing.Drains (.zeroed (2 * table.tableSize)) (table.contents ++ [(key, val)])
      allocs t [(key, val)] allocs') (kept : table.contents.length ≤ t.contents.length) :
    t.contents.Perm table.contents := by
  have sub := growing_drains_subperm drains
  rw [HashTable.contents_zeroed, List.nil_append, List.subperm_append_right] at sub
  exact sub.perm_of_length_le kept

/-- A failure in this round leaves the table as it was found. -/
theorem Spared.atomic {c : Nat} (spared : Spared table key c) (sound : Sound table)
    (load : table.size ≤ table.tableSize / 2)
    (drains : growing.Drains (.zeroed (2 * table.tableSize)) (table.contents ++ [(key, val)])
      allocs t waiting allocs') (stuck : waiting ≠ [])
    (size : t.tableSize = 2 * table.tableSize * 2 ^ c) : Atomic table t := by
  have positive := sound.positive
  have earlier (d : Nat) (small : 2 * table.tableSize * 2 ^ d ≤ t.tableSize) : d ≤ c := by
    rw [size] at small
    exact (Nat.pow_le_pow_iff_right (by decide)).mp (Nat.le_of_mul_le_mul_left small (by omega))
  obtain ⟨d, seats, mid⟩ := midway_of_tellsApart sound load drains fun d _ small =>
    spared.told d (earlier d small)
  obtain rfl := mid.round_eq positive size
  -- the new entry alone is waiting
  obtain ⟨e, ws, rfl⟩ := List.exists_cons_of_ne_nil stuck
  have refused := growing_place_eq_none drains.refused_of_waiting
  have full := (mid.laid.seat_of_full refused (mid.room sound load)).1
  have round := mid.left_of_full full
  have alone := spared.alone
  rw [round, List.cons.injEq, List.map_eq_nil_iff] at alone
  obtain ⟨_, rfl⟩ := alone
  obtain rfl : e = (key, val) := by
    simpa using drains.getLast? List.getLast?_concat stuck
  obtain ⟨once, absent⟩ := HashTable.nodup_queue_iff.mp spared.once
  have kept : table.contents.map Prod.fst ⊆ t.contents.map Prod.fst := by
    intro q stored
    have other : key ≠ q := by
      rintro rfl
      exact absent stored
    have same := mid.values q
    rw [lastValue_concat_of_ne other, lastValue_concat_of_ne other] at same
    exact mem_keys_of_lastValue same stored
  have many := (once.subperm kept).length_le
  rw [List.length_map, List.length_map] at many
  have same := contents_perm_of_length drains many
  refine ⟨fun e member => ?_, ?_⟩
  · -- each stored key has a seat, so the lookup stops somewhere
    obtain ⟨i, held⟩ := HashTable.mem_contents.mp (same.mem_iff.mpr member)
    have seat := (mid.laid.holds e.1 i).mpr ⟨e.2, held⟩
    obtain ⟨⟨q, j⟩, here, stops⟩ := mid.laid.exists_stop seat
    have answer := spared.answers e member (q, j)
    rw [round, ← mid.path_eq] at answer
    rw [mid.laid.hashtableGet_of_stop here stops, answer here stops, mid.lastValue_seat full here]
  · have counted := (growing_drains_sound (sound_zeroed (by omega)) drains).counted
    rw [hashtableSize, hashtableSize, counted, same.length_eq, sound.counted]

/-- Only such a failure does. -/
theorem spared_of_atomic {c : Nat} (sound : Sound table)
    (load : table.size ≤ table.tableSize / 2)
    (drains : growing.Drains (.zeroed (2 * table.tableSize)) (table.contents ++ [(key, val)])
      allocs t waiting allocs') (stuck : waiting ≠ [])
    (size : t.tableSize = 2 * table.tableSize * 2 ^ c) (atomic : Atomic table t) :
    Spared table key c := by
  have positive := sound.positive
  obtain rfl := waiting_eq_of_size sound drains stuck atomic.2
  have counted := (growing_drains_sound (sound_zeroed (by omega)) drains).counted
  have many : table.contents.length ≤ t.contents.length := by
    rw [← counted, ← sound.counted]
    exact atomic.2.ge
  have same := contents_perm_of_length drains many
  obtain ⟨d, seats, mid, told⟩ := unmistaken_of_kept sound load drains
    (Nat.add_le_add_right many 1)
  obtain rfl := mid.round_eq positive size
  have refused := growing_place_eq_none drains.refused_of_waiting
  obtain ⟨full, here⟩ := mid.laid.seat_of_full refused (mid.room sound load)
  have round := mid.left_of_full full
  refine ⟨?_, fun b within => ?_, by rw [round]; rfl, ?_⟩
  · have keys := same.map Prod.fst
    refine HashTable.nodup_queue_iff.mpr ⟨keys.nodup_iff.mp mid.laid.keys_nodup, fun stored => ?_⟩
    obtain ⟨e, member, same⟩ := List.mem_map.mp (keys.mem_iff.mpr stored)
    obtain ⟨i, held⟩ := HashTable.mem_contents.mp member
    have own := mid.laid.steady (key, i) ((mid.laid.holds _ _).mpr ⟨e.2, by rw [held, ← same]⟩)
    rw [full] at own
    cases own
  · obtain lt | rfl := Nat.lt_or_eq_of_le within
    · exact told.1 b lt
    · exact told.round mid full here
  · intro e member s here stops
    rw [round] at here stops
    rw [← mid.path_eq] at stops
    rw [← atomic.1 e member, mid.laid.hashtableGet_of_stop here stops,
      mid.lastValue_seat full here]

/-- In every reachable table a put that fails changes nothing exactly if its first allocation
fails, or the new key alone finds no seat in the round of the last that succeeds and no key was
taken for another. -/
theorem put_failure_atomic_iff (reachable : Reachable TableStep hashtableCreate table)
    {fuel : Nat} {status : Int}
    (run : hashtablePut fuel table key val allocs = .ok (status, table', allocs'))
    (failed : status ≠ hashtableOk) :
    Atomic table table' ↔
      allocs.head? = some false ∨ ∃ c, granted allocs = c + 1 ∧ Spared table key c := by
  have sound := (keys_of_reachable reachable).sound
  have load := load_of_reachable reachable
  obtain ⟨denied, rfl⟩ | ⟨c, waiting, rounds, stuck, drains, size⟩ := drains_of_failed run failed
  · exact ⟨fun _ => .inl denied, fun _ => ⟨fun _ _ => rfl, rfl⟩⟩
  · constructor
    · exact fun atomic => .inr ⟨c, rounds, spared_of_atomic sound load drains stuck size atomic⟩
    · rintro (denied | ⟨c', rounds', spared⟩)
      · obtain ⟨_, rfl⟩ := List.head?_eq_some_iff.mp denied
        cases rounds
      · obtain rfl := Nat.succ.inj (rounds.symm.trans rounds')
        exact spared.atomic sound load drains stuck size

/-- The table of the eight ids of one CRC, rebuilt. -/
def eightClientsMoved : HashTable Nat where
  entries := [3, 1, 4, 5, 6, 7, 0].map (fun i => eightIds[i]?.map (·, 0)) ++
    List.replicate 24 none ++ [eightIds[2]?.map (·, 0)]
  size := 8

/-- The ninth gets one allocation and no second: the eight are moved, and all are found. -/
theorem ninthId_leaves_eight : Atomic eightClients eightClientsMoved := by
  have run : hashtablePut 3 eightClients ninthId 0 [true, false] =
      .ok (-hashtableErr, eightClientsMoved, []) := by
    decide +kernel
  have spared : Spared eightClients ninthId 0 := by
    refine ⟨by decide +kernel, fun b within => ?_, by decide +kernel, by decide +kernel⟩
    obtain rfl := Nat.le_zero.mp within
    rw [TellsApartIn]
    decide +kernel
  exact (put_failure_atomic_iff eightClients_reachable run (by decide)).mpr (.inr ⟨0, rfl, spared⟩)

/-! ## A nested rehash that fails

Eight ids start at slot 24 of 32 and at slot 56 of 64, a ninth at the slot after it. In the
table of 32 the ninth comes to slot 0, so it is the first to be put again. -/

def crowdIds : List CString :=
  [cstr [98, 108], cstr [100, 109], cstr [101, 119], cstr [106, 98], cstr [106, 110],
   cstr [108, 111], cstr [111, 100], cstr [114, 117]]

/-- The ninth id, at slot 57 of 64. -/
def wrappedId : CString := cstr [97, 98]

/-- The tenth starts at slot 24 of 32 too. -/
def lateId : CString := cstr [101, 121]

def crowded : HashTable Nat where
  entries := some (wrappedId, 1) :: List.replicate 23 none ++ crowdIds.map fun k => some (k, 0)
  size := 9

theorem crowded_replay :
    (replay (tableNext 4) hashtableCreate
      (crowdIds.map (.put · 0) ++ [.put wrappedId 1])).map Prod.snd = some crowded := by
  decide +kernel

theorem crowded_reachable : Reachable TableStep hashtableCreate crowded := by
  obtain ⟨⟨tr, last⟩, replayed, rfl⟩ := Option.map_eq_some_iff.mp crowded_replay
  exact (Run.of_replay (tableNext_step 4) replayed).1.reachable

def statusOf : Except Fault (Put Nat) → Option (Int × Nat)
  | .ok (status, table, _) => some (status, table.size)
  | .error _ => none

theorem lateId_fails :
    statusOf (hashtablePut 4 crowded lateId 2 [true, false]) = some (-hashtableErr, 8) := by
  decide +kernel

/-- Then one entry is gone. -/
theorem nestedRehash_not_atomic : ¬ ∀ (table table' : HashTable Nat) (key : CString) (val : Nat)
    (fuel : Nat) (allocs allocs' : List Bool) (status : Int),
    Reachable TableStep hashtableCreate table →
    hashtablePut fuel table key val allocs = .ok (status, table', allocs') →
    status ≠ hashtableOk → Atomic table table' := by
  intro always
  have fails := lateId_fails
  cases run : hashtablePut 4 crowded lateId 2 [true, false] with
  | error fault =>
      rw [run] at fails
      cases fails
  | ok result =>
      obtain ⟨status, table', allocs'⟩ := result
      rw [run] at fails
      obtain ⟨rfl, size⟩ := Prod.mk.inj (Option.some.inj fails)
      have same := (always crowded table' lateId 2 4 _ _ _ crowded_reachable run (by decide)).2
      rw [hashtableSize, size] at same
      cases same

end SolBroker
