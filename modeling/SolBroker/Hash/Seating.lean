import Mathlib
import SolBroker.Lib.Seating
import SolBroker.Hash.Growth

/-!
# Rebuilds that take no key for another

When a put rebuilds the table, the stored keys in the order of their slots and then the new
one go to the first of their slots that is free, unless they come past a key they begin
with, whose place they take. Whether one does can be told from the stored keys, their order
and their hash positions: up to the first mistake everyone is where the first slot without
another key is. Without a mistake no entry is lost, and a rebuild that loses none has made
none.
-/

namespace SolBroker

open Probing Rebuilding

variable {V : Type*}

namespace HashTable

/-- The slots for a key in the rounds of a rebuild: the table has twice the size in the
first, and twice that of the round before in every other. -/
def slotsIn (table : HashTable V) (d : Nat) : CString → List Nat :=
  slots (2 * table.tableSize * 2 ^ d)

end HashTable

/-- In one round of the rebuild for a put of `key` no key comes past a key it begins with. -/
def TellsApartIn (table : HashTable V) (key : CString) (d : Nat) : Prop :=
  Unmistaken (table.slotsIn d) CString.CasePrefix [] (turn table.slotsIn (table.queue key) d)

/-- Nor in any other round of it. -/
def TellsApart (table : HashTable V) (key : CString) : Prop :=
  ∀ d, Comes table.slotsIn (table.queue key) d → TellsApartIn table key d

/-! ## Tables and seats -/

/-- The keys of a table are at these seats. -/
structure Laid (t : HashTable V) (seats : List (CString × Nat)) : Prop where
  nodup : seats.Nodup
  steady : Steady t.path seats
  holds : ∀ q i, (q, i) ∈ seats ↔ ∃ v, t.at? i = some (q, v)

namespace Laid

variable {t : HashTable V} {seats : List (CString × Nat)} {q : CString} {i : Nat}

theorem zeroed (n : Nat) : Laid (.zeroed n : HashTable V) [] where
  nodup := List.nodup_nil
  steady := by simp [Steady]
  holds := by simp

theorem open_iff (laid : Laid t seats) :
    Open seats q i ↔ ∀ p v, t.at? i = some (p, v) → p = q := by
  constructor
  · intro open_ p v held
    exact open_ (p, i) ((laid.holds p i).mpr ⟨v, held⟩) rfl
  · rintro free ⟨p, _⟩ member rfl
    obtain ⟨v, held⟩ := (laid.holds _ _).mp member
    exact free p v held

/-- A slot taken by a key that `q` does not begin with is not open to `q`. -/
theorem not_open (laid : Laid t seats)
    (taken : ∃ p v, t.at? i = some (p, v) ∧ ¬ p.CasePrefix q) : ¬ Open seats q i := by
  obtain ⟨p, v, held, apart⟩ := taken
  intro open_
  obtain rfl := laid.open_iff.mp open_ p v held
  exact apart (CString.CasePrefix.refl p)

/-- If `q` comes past no key it begins with, its place is its seat. -/
theorem seat_of_hash (laid : Laid t seats) (hash : hashtableHash t q = some i)
    (told : ∀ e ∈ seats, e.2 ∈ passed (t.path q) seats q → ¬ e.1.CasePrefix q) :
    seat (t.path q) seats q = some i := by
  obtain ⟨_, onto, before, after, path, taken⟩ := hashtableHash_eq_some_iff.mp hash
  have closed : ∀ j ∈ before, ¬ Open seats q j := fun j member => laid.not_open (taken j member)
  refine seat_eq_some_iff.mpr ⟨?_, before, after, path, closed⟩
  by_contra taken
  have past := mem_passed path closed taken
  rw [laid.open_iff] at taken
  push Not at taken
  obtain ⟨p, v, held, _⟩ := taken
  exact told (p, i) ((laid.holds p i).mpr ⟨v, held⟩) past (onto p v held)

/-- If its place is free, it has come past none. -/
theorem seat_of_free (laid : Laid t seats) (hash : hashtableHash t q = some i)
    (free : t.at? i = none) : seat (t.path q) seats q = some i ∧
      ∀ e ∈ seats, e.2 ∈ passed (t.path q) seats q → ¬ e.1.CasePrefix q := by
  obtain ⟨_, _, before, after, path, taken⟩ := hashtableHash_eq_some_iff.mp hash
  have closed : ∀ j ∈ before, ¬ Open seats q j := fun j member => laid.not_open (taken j member)
  have here : Open seats q i := laid.open_iff.mpr (by simp [free])
  refine ⟨seat_eq_some_iff.mpr ⟨here, before, after, path, closed⟩, ?_⟩
  rintro ⟨p, j⟩ member past begins
  rw [passed_of_seat path closed here] at past
  obtain ⟨v, held⟩ := (laid.holds p j).mp member
  obtain ⟨p', v', held', apart⟩ := taken j past
  cases held.symm.trans held'
  exact apart begins

/-- Where `hashtable_hash` finds no place though the table is not at its load limit, there is
no seat, and no key that `q` begins with. -/
theorem seat_of_full (laid : Laid t seats) (full : hashtableHash t q = none)
    (room : t.size < t.tableSize / 2) : seat (t.path q) seats q = none ∧
      ∀ e ∈ seats, e.2 ∈ passed (t.path q) seats q → ¬ e.1.CasePrefix q := by
  have taken := (hashtableHash_eq_none_iff.mp full).resolve_left (not_le.mpr room)
  refine ⟨seat_eq_none_iff.mpr fun i member => laid.not_open (taken i member), ?_⟩
  rintro ⟨p, j⟩ member past begins
  obtain ⟨v, held⟩ := (laid.holds p j).mp member
  obtain ⟨p', v', held', apart⟩ := taken j (List.takeWhile_prefix _ |>.subset past)
  cases held.symm.trans held'
  exact apart begins

theorem place (laid : Laid t seats) (within : i < t.tableSize)
    (found : seat (t.path q) seats q = some i) (v : V) :
    Laid (t.place i q v) (seats.insert (q, i)) where
  nodup := laid.nodup.insert
  steady := by
    have steady := laid.steady.insert found
    intro e member
    rw [HashTable.path_place]
    exact steady e member
  holds := by
    intro p j
    have open_ := laid.open_iff.mp (seat_eq_some_iff.mp found).1
    rw [List.mem_insert_iff, HashTable.at?_place within, Prod.mk.injEq, laid.holds]
    by_cases here : j = i
    · subst here
      simp only [and_true, if_true, Option.some.injEq, Prod.mk.injEq]
      constructor
      · rintro (rfl | ⟨w, held⟩)
        · exact ⟨v, rfl, rfl⟩
        · exact ⟨v, (open_ p w held).symm, rfl⟩
      · rintro ⟨_, rfl, _⟩
        exact .inl rfl
    · simp [here]

/-- The order of the seats is that of the entries. -/
theorem inOrder_eq (laid : Laid t seats) : inOrder seats = t.contents.map Prod.fst := by
  let listed := (List.range t.tableSize).filterMap fun i =>
    (t.at? i).map fun e => (e.1, i)
  have sorted : listed.Pairwise fun a b => a.2 < b.2 := by
    refine List.Pairwise.filterMap _ ?_ List.pairwise_lt_range
    intro i j before a atI b atJ
    obtain ⟨_, _, rfl⟩ := Option.map_eq_some_iff.mp atI
    obtain ⟨_, _, rfl⟩ := Option.map_eq_some_iff.mp atJ
    exact before
  have member (e : CString × Nat) : e ∈ listed ↔ e ∈ seats := by
    obtain ⟨p, i⟩ := e
    rw [laid.holds, List.mem_filterMap]
    constructor
    · rintro ⟨j, _, found⟩
      obtain ⟨⟨p', v⟩, held, same⟩ := Option.map_eq_some_iff.mp found
      cases same
      exact ⟨v, held⟩
    · rintro ⟨v, held⟩
      exact ⟨i, List.mem_range.mpr (HashTable.lt_of_at? held), by rw [held]; rfl⟩
  have apart : listed.Nodup := sorted.imp fun before same => before.ne (congrArg Prod.snd same)
  have perm : listed.Perm seats := (List.perm_ext_iff_of_nodup apart laid.nodup).mpr member
  rw [inOrder_of_pairwise perm sorted, HashTable.contents, Probing.reduceOption_eq_filterMap,
    List.map_filterMap, List.map_filterMap]
  refine List.filterMap_congr fun i _ => ?_
  show ((t.at? i).map _).map _ = (t.at? i).map _
  rw [Option.map_map]
  rfl

/-- No key is there twice. -/
theorem keys_nodup (laid : Laid t seats) : (t.contents.map Prod.fst).Nodup := by
  have apart : (seats.map Prod.fst).Nodup := by
    refine List.Nodup.map_on ?_ laid.nodup
    rintro ⟨q, i⟩ inside ⟨_, j⟩ inside' rfl
    rw [laid.steady.unique inside inside']
  rw [← laid.inOrder_eq, inOrder]
  exact ((List.perm_insertionSort _ seats).map Prod.fst).nodup_iff.mpr apart

end Laid

/-! ## The value of a key -/

/-- The value the list has last for a key. -/
def lastValue (es : List (CString × V)) (q : CString) : Option V :=
  (es.reverse.find? fun e => e.1 = q).map Prod.snd

theorem lastValue_append (es es' : List (CString × V)) (q : CString) :
    lastValue (es ++ es') q = (lastValue es' q).or (lastValue es q) := by
  rw [lastValue, lastValue, lastValue, List.reverse_append, List.find?_append]
  cases es'.reverse.find? fun e => e.1 = q <;> rfl

theorem lastValue_cons (e : CString × V) (es : List (CString × V)) (q : CString) :
    lastValue (e :: es) q = (lastValue es q).or (if e.1 = q then some e.2 else none) := by
  rw [← List.singleton_append, lastValue_append]
  congr 1
  by_cases same : e.1 = q <;> simp [lastValue, same]

theorem mem_of_lastValue {es : List (CString × V)} {q : CString} {v : V}
    (last : lastValue es q = some v) : (q, v) ∈ es := by
  obtain ⟨e, found, rfl⟩ := Option.map_eq_some_iff.mp last
  have same : e.1 = q := by simpa using List.find?_some found
  rw [← same]
  exact List.mem_reverse.mp (List.mem_of_find?_eq_some found)

theorem lastValue_eq_none_iff {es : List (CString × V)} {q : CString} :
    lastValue es q = none ↔ ∀ e ∈ es, e.1 ≠ q := by
  simp [lastValue]

theorem lastValue_concat_of_ne {key q : CString} (other : key ≠ q) (es : List (CString × V))
    (v : V) : lastValue (es ++ [(key, v)]) q = lastValue es q := by
  rw [lastValue_append]
  simp [lastValue, other]

theorem mem_keys_of_lastValue {es es' : List (CString × V)} {q : CString}
    (same : lastValue es' q = lastValue es q) (member : q ∈ es.map Prod.fst) :
    q ∈ es'.map Prod.fst := by
  cases last : lastValue es' q with
  | some v => exact List.mem_map_of_mem (mem_of_lastValue last)
  | none =>
      obtain ⟨e, inside, rfl⟩ := List.mem_map.mp member
      exact absurd rfl (lastValue_eq_none_iff.mp (same.symm.trans last) e inside)

theorem lastValue_of_mem {es : List (CString × V)} (once : (es.map Prod.fst).Nodup) {q : CString}
    {v : V} (member : (q, v) ∈ es) : lastValue es q = some v := by
  cases last : lastValue es q with
  | none => exact absurd rfl (lastValue_eq_none_iff.mp last _ member)
  | some w =>
      have same := List.inj_on_of_nodup_map once (mem_of_lastValue last) member rfl
      rw [(Prod.mk.inj same).2]

/-- In a table that has each key once, the last value is the one there is. -/
theorem Laid.lastValue_iff {t : HashTable V} {seats : List (CString × Nat)} (laid : Laid t seats)
    {q : CString} {v : V} : lastValue t.contents q = some v ↔ ∃ i, t.at? i = some (q, v) := by
  have found : (q, v) ∈ t.contents ↔ _ := HashTable.mem_contents
  rw [← found]
  exact ⟨mem_of_lastValue, lastValue_of_mem laid.keys_nodup⟩

theorem Laid.lastValue_place {t : HashTable V} {seats : List (CString × Nat)} {q : CString}
    {i : Nat} (laid : Laid t seats) (within : i < t.tableSize)
    (found : seat (t.path q) seats q = some i) (v : V) (p : CString) :
    lastValue (t.place i q v).contents p =
      if q = p then some v else lastValue t.contents p := by
  have open_ := laid.open_iff.mp (seat_eq_some_iff.mp found).1
  refine Option.ext fun w => ?_
  rw [(laid.place within found v).lastValue_iff]
  simp only [HashTable.at?_place within]
  by_cases self : q = p
  · subst self
    rw [if_pos rfl]
    constructor
    · rintro ⟨j, held⟩
      split at held
      · cases held
        rfl
      · rename_i elsewhere
        have here := (laid.holds q j).mpr ⟨w, held⟩
        exact absurd (Option.some.inj ((laid.steady _ here).symm.trans found)) elsewhere
    · rintro ⟨⟩
      exact ⟨i, if_pos rfl⟩
  · rw [if_neg self, laid.lastValue_iff]
    refine exists_congr fun j => ?_
    by_cases here : j = i
    · subst here
      simp only [if_true, Option.some.injEq, Prod.mk.injEq, self, false_and, false_iff]
      exact fun held => self (open_ p w held).symm
    · rw [if_neg here]

/-- A key that the list has once is at one slot. -/
theorem once_of_nodup {t : HashTable V} (once : (t.contents.map Prod.fst).Nodup) (k : CString) :
    Once t k := by
  intro i j v w atI atJ
  by_contra apart
  have gone := (apart_clear once atI).1
  refine gone (List.mem_map_of_mem (f := Prod.fst) (a := (k, w)) ?_)
  refine HashTable.mem_contents.mpr ⟨j, ?_⟩
  rw [HashTable.at?_clear (HashTable.lt_of_at? atI), if_neg (Ne.symm apart), atJ]

/-! ## Through the rounds -/

/-- In a round of a rebuild: the table so far and the entries that are still to be put. -/
structure Midway (table : HashTable V) (e : CString × V) (t : HashTable V)
    (waiting : List (CString × V)) (d : Nat) (seats : List (CString × Nat)) : Prop where
  size : t.tableSize = 2 * table.tableSize * 2 ^ d
  sound : Sound t
  laid : Laid t seats
  rest : seated table.slotsIn (table.queue e.1) d =
    seating (table.slotsIn d) seats (waiting.map Prod.fst)
  comes : Comes table.slotsIn (table.queue e.1) d
  count : t.contents.length + waiting.length ≤ table.contents.length + 1
  values : ∀ q, lastValue (t.contents ++ waiting) q = lastValue (table.contents ++ [e]) q

namespace Midway

variable {table t : HashTable V} {e e' : CString × V} {waiting : List (CString × V)} {d i : Nat}
  {seats : List (CString × Nat)}

theorem start (sound : Sound table) (e : CString × V) :
    Midway table e (.zeroed (2 * table.tableSize)) (table.contents ++ [e]) 0 [] where
  size := by simp
  sound := sound_zeroed (by have := sound.positive; omega)
  laid := .zeroed _
  rest := by rw [seated, turn, HashTable.queue, List.map_append]; rfl
  comes := comes_zero
  count := by simp
  values := by simp

theorem path_eq (mid : Midway table e t waiting d seats) (q : CString) :
    t.path q = table.slotsIn d q := by
  rw [HashTable.path, mid.size]
  rfl

theorem place (mid : Midway table e t (e' :: waiting) d seats)
    (hash : hashtableHash t e'.1 = some i) (found : seat (t.path e'.1) seats e'.1 = some i) :
    Midway table e (t.place i e'.1 e'.2) waiting d (seats.insert (e'.1, i)) where
  size := by rw [HashTable.tableSize_place, mid.size]
  sound := mid.sound.place e'.2 hash
  laid := mid.laid.place (mid.sound.hash_lt hash) found e'.2
  rest := by
    rw [mid.path_eq] at found
    rw [mid.rest, List.map_cons, seating_found found]
  comes := mid.comes
  count := by
    have more := t.length_contents_place_le i e'
    have count := mid.count
    rw [List.length_cons] at count
    omega
  values := by
    intro q
    rw [← mid.values q, lastValue_append, lastValue_append, lastValue_cons,
      mid.laid.lastValue_place (mid.sound.hash_lt hash) found]
    by_cases same : e'.1 = q <;> cases lastValue waiting q <;> simp [same]

/-- While an entry is to be put, fewer than half the slots are taken. -/
theorem room (mid : Midway table e t (e' :: waiting) d seats) (sound : Sound table)
    (load : table.size ≤ table.tableSize / 2) : t.size < t.tableSize / 2 := by
  have count := mid.count
  rw [List.length_cons, ← mid.sound.counted, ← sound.counted] at count
  have positive := sound.positive
  have larger : table.tableSize ≤ table.tableSize * 2 ^ d :=
    Nat.le_mul_of_pos_right _ (Nat.two_pow_pos d)
  rw [mid.size, Nat.mul_assoc, Nat.mul_div_cancel_left _ (by decide)]
  omega

theorem left_of_full (mid : Midway table e t (e' :: waiting) d seats)
    (full : seat (t.path e'.1) seats e'.1 = none) :
    seated table.slotsIn (table.queue e.1) d = (seats, e'.1 :: waiting.map Prod.fst) := by
  rw [mid.path_eq] at full
  rw [mid.rest, List.map_cons, seating_refused full]

theorem turn_of_full (mid : Midway table e t (e' :: waiting) d seats)
    (full : seat (t.path e'.1) seats e'.1 = none) :
    turn table.slotsIn (table.queue e.1) (d + 1) =
      (t.contents ++ e' :: waiting).map Prod.fst := by
  rw [turn_succ (mid.left_of_full full), mid.laid.inOrder_eq, List.map_append, List.map_cons]

theorem rebuild (mid : Midway table e t (e' :: waiting) d seats)
    (full : seat (t.path e'.1) seats e'.1 = none) :
    Midway table e (.zeroed (2 * t.tableSize)) (t.contents ++ e' :: waiting) (d + 1) [] where
  size := by rw [HashTable.tableSize_zeroed, mid.size, pow_succ]; ring
  sound := sound_zeroed (by have := mid.sound.positive; omega)
  laid := .zeroed _
  rest := by rw [seated, mid.turn_of_full full]
  comes := mid.comes.succ (by rw [mid.left_of_full full]; exact List.cons_ne_nil _ _)
  count := by
    rw [HashTable.contents_zeroed, List.length_nil, Nat.zero_add, List.length_append]
    exact mid.count
  values := by
    intro q
    rw [HashTable.contents_zeroed, List.nil_append]
    exact mid.values q

end Midway

section Drains

variable {table t : HashTable V} {e : CString × V} {waiting : List (CString × V)}
  {allocs allocs' : List Bool}

/-- Where no key is taken for another, all are on their seats. -/
theorem midway_of_tellsApart (sound : Sound table) (load : table.size ≤ table.tableSize / 2)
    (drains : growing.Drains (.zeroed (2 * table.tableSize)) (table.contents ++ [e]) allocs t
      waiting allocs')
    (told : ∀ d, Comes table.slotsIn (table.queue e.1) d →
      2 * table.tableSize * 2 ^ d ≤ t.tableSize → TellsApartIn table e.1 d) :
    ∃ d seats, Midway table e t waiting d seats := by
  let Told (t' : HashTable V) (w : List (CString × V)) : Prop :=
    t'.tableSize ≤ t.tableSize → ∃ d seats, Midway table e t' w d seats ∧
      Unmistaken (table.slotsIn d) CString.CasePrefix seats (w.map Prod.fst)
  have last : Told t waiting := by
    refine drains.invariant (R := Told) ?_ ?_ ?_
    · intro small
      refine ⟨0, [], .start sound e, ?_⟩
      have first := told 0 comes_zero (by simpa using small)
      rwa [TellsApartIn, turn, HashTable.queue, ← List.map_singleton, ← List.map_append] at first
    · intro t e' t₁ w before placed small
      obtain ⟨i, hash, _, rfl⟩ := growing_place_eq_some placed
      rw [HashTable.tableSize_place] at small
      obtain ⟨d, seats, mid, here, later⟩ := before small
      rw [← mid.path_eq] at here
      have found := mid.laid.seat_of_hash hash here
      exact ⟨d, _, mid.place hash found, later i (by rwa [← mid.path_eq])⟩
    · intro t e' w before refused small
      have doubled : (growing.grown t).tableSize = 2 * t.tableSize := HashTable.tableSize_zeroed _
      obtain ⟨d, seats, mid, _⟩ := before (by omega)
      have full :=
        (mid.laid.seat_of_full (growing_place_eq_none refused) (mid.room sound load)).1
      have next := mid.rebuild full
      refine ⟨d + 1, [], next, ?_⟩
      have again := told (d + 1) next.comes (next.size ▸ small)
      rwa [TellsApartIn, mid.turn_of_full full] at again
  obtain ⟨d, seats, mid, _⟩ := last le_rfl
  exact ⟨d, seats, mid⟩

/-- Up to here no key has been taken for another, nor in the whole of this round if none of those
still to be put is. -/
def ToldSoFar (table : HashTable V) (e : CString × V) (waiting : List (CString × V)) (d : Nat)
    (seats : List (CString × Nat)) : Prop :=
  (∀ c < d, TellsApartIn table e.1 c) ∧
    (Unmistaken (table.slotsIn d) CString.CasePrefix seats (waiting.map Prod.fst) →
      TellsApartIn table e.1 d)

theorem ToldSoFar.place {e' : CString × V} {d i : Nat} {seats : List (CString × Nat)}
    (told : ToldSoFar table e (e' :: waiting) d seats)
    (found : seat (table.slotsIn d e'.1) seats e'.1 = some i)
    (here : ∀ s ∈ seats, s.2 ∈ passed (table.slotsIn d e'.1) seats e'.1 → ¬ s.1.CasePrefix e'.1) :
    ToldSoFar table e waiting d (seats.insert (e'.1, i)) := by
  refine ⟨told.1, fun later => told.2 ⟨here, fun j same => ?_⟩⟩
  obtain rfl := Option.some.inj (found.symm.trans same)
  exact later

section Refused

variable {e' : CString × V} {d : Nat} {seats : List (CString × Nat)}
  (told : ToldSoFar table e (e' :: waiting) d seats)
  (mid : Midway table e t (e' :: waiting) d seats)
  (full : seat (t.path e'.1) seats e'.1 = none)
  (here : ∀ s ∈ seats, s.2 ∈ passed (t.path e'.1) seats e'.1 → ¬ s.1.CasePrefix e'.1)
include told mid full here

/-- A round ends with the first key that finds no seat. -/
theorem ToldSoFar.round : TellsApartIn table e.1 d := by
  rw [mid.path_eq] at full here
  refine told.2 ⟨here, fun i found => ?_⟩
  rw [full] at found
  cases found

theorem ToldSoFar.rebuild : ToldSoFar table e (t.contents ++ e' :: waiting) (d + 1) [] := by
  refine ⟨fun c earlier => ?_, fun rest => ?_⟩
  · obtain before | rfl := Nat.lt_succ_iff_lt_or_eq.mp earlier
    · exact told.1 c before
    · exact told.round mid full here
  · rwa [TellsApartIn, mid.turn_of_full full]

end Refused

/-- Where no entry has been lost, none has been put over, so no key was taken for another. -/
theorem unmistaken_of_kept (sound : Sound table) (load : table.size ≤ table.tableSize / 2)
    (drains : growing.Drains (.zeroed (2 * table.tableSize)) (table.contents ++ [e]) allocs t
      waiting allocs')
    (kept : table.contents.length + 1 ≤ t.contents.length + waiting.length) :
    ∃ d seats, Midway table e t waiting d seats ∧ ToldSoFar table e waiting d seats := by
  let Unlost (t : HashTable V) (w : List (CString × V)) : Prop :=
    table.contents.length + 1 ≤ t.contents.length + w.length →
      ∃ d seats, Midway table e t w d seats ∧ ToldSoFar table e w d seats
  refine drains.invariant (R := Unlost) ?_ ?_ ?_ kept
  · refine fun _ => ⟨0, [], .start sound e, fun c before => absurd before (Nat.not_lt_zero _), ?_⟩
    intro told
    rwa [List.map_append] at told
  · intro t e' t₁ w unlost placed kept
    obtain ⟨i, hash, _, rfl⟩ := growing_place_eq_some placed
    have more := t.length_contents_place_le i e'
    obtain ⟨d, seats, mid, told⟩ := unlost (by rw [List.length_cons]; omega)
    cases held : t.at? i with
    | none =>
        obtain ⟨found, here⟩ := mid.laid.seat_of_free hash held
        refine ⟨d, _, mid.place hash found, ?_⟩
        rw [mid.path_eq] at found here
        exact told.place found here
    | some _ =>
        -- an entry that is put over is lost
        have after := (mid.sound.place e'.2 hash).counted
        have same : (t.place i e'.1 e'.2).size = t.size := by simp [HashTable.place, held]
        have own := mid.sound.counted
        have count := mid.count
        rw [List.length_cons] at count
        omega
  · intro t e' w unlost refused kept
    obtain ⟨d, seats, mid, told⟩ := unlost (by
      rwa [show (growing.grown t).contents = [] from HashTable.contents_zeroed _,
        List.length_nil, Nat.zero_add, List.length_append] at kept)
    obtain ⟨full, here⟩ :=
      mid.laid.seat_of_full (growing_place_eq_none refused) (mid.room sound load)
    exact ⟨d + 1, [], mid.rebuild full, told.rebuild mid full here⟩

end Drains

/-! ## A put that rebuilds -/

section Puts

variable {table table' : HashTable V} {key k : CString} {v : V}

theorem PutReturns.drains_of_full (returns : PutReturns table key v table')
    (full : hashtableHash table key = none) :
    growing.Drains (.zeroed (2 * table.tableSize)) (table.contents ++ [(key, v)]) [] table' []
      [] := by
  cases putReturns_iff_drains.mp returns with
  | placed found =>
      rw [growing_place_of_none full] at found
      cases found
  | rebuilt _ _ rest => exact rest

/-- The seats when the last round is over. -/
theorem TellsApart.seats (told : TellsApart table key) (sound : Sound table)
    (load : table.size ≤ table.tableSize / 2) (full : hashtableHash table key = none)
    (returns : PutReturns table key v table') :
    ∃ d seats, Midway table (key, v) table' [] d seats :=
  midway_of_tellsApart sound load (returns.drains_of_full full) fun d comes _ => told d comes

/-- A put that takes no key for another keeps the entry of every other key. -/
theorem TellsApart.lastValue_eq (told : TellsApart table key) (sound : Sound table)
    (load : table.size ≤ table.tableSize / 2) (full : hashtableHash table key = none)
    (returns : PutReturns table key v table') (other : key ≠ k) :
    lastValue table'.contents k = lastValue table.contents k := by
  obtain ⟨d, seats, mid⟩ := told.seats sound load full returns
  have same := mid.values k
  rwa [List.append_nil, lastValue_concat_of_ne other] at same

/-- With each key there once, a rebuild takes no key for another exactly if it loses none. -/
theorem PutReturns.tellsApart_iff (returns : PutReturns table key v table') (sound : Sound table)
    (load : table.size ≤ table.tableSize / 2) (full : hashtableHash table key = none)
    (once : (table.queue key).Nodup) :
    TellsApart table key ↔ ∀ q ∈ table.queue key, q ∈ table'.contents.map Prod.fst := by
  constructor
  · intro told q member
    obtain ⟨d, seats, mid⟩ := told.seats sound load full returns
    have same := mid.values q
    rw [List.append_nil] at same
    rw [HashTable.queue, ← List.map_singleton (f := Prod.fst) (a := (key, v)),
      ← List.map_append] at member
    exact mem_keys_of_lastValue same member
  · intro kept d comes
    have enough := (once.subperm kept).length_le
    rw [HashTable.queue, List.length_append, List.length_map, List.length_map,
      List.length_singleton] at enough
    obtain ⟨c, seats, mid, before, back⟩ := unmistaken_of_kept sound load
      (returns.drains_of_full full) (by simpa using enough)
    have all : (seated table.slotsIn (table.queue key) c).2 = [] := by rw [mid.rest]; rfl
    obtain earlier | rfl | later := Nat.lt_trichotomy d c
    · exact before d earlier
    · exact back trivial
    · exact absurd all (comes c later)

end Puts

/-! ## Lookups at the seats -/

/-- Where the lookup of a key stops: at the first seat on its path of a key that begins with it. -/
def stop (path : List Nat) (seats : List (CString × Nat)) (k : CString) : Option Nat :=
  path.find? fun i => ∃ e ∈ seats, e.2 = i ∧ k.CasePrefix e.1

theorem exists_of_stop {path : List Nat} {seats : List (CString × Nat)} {k : CString} {i : Nat}
    (stops : stop path seats k = some i) : ∃ q, (q, i) ∈ seats := by
  have here := List.find?_some (p := fun i => ∃ e ∈ seats, e.2 = i ∧ k.CasePrefix e.1) stops
  obtain ⟨⟨q, _⟩, member, rfl, _⟩ := of_decide_eq_true here
  exact ⟨q, member⟩

/-- The lookup stops at no other key. -/
def ComesFirst (path : List Nat) (seats : List (CString × Nat)) (k : CString) : Prop :=
  ∀ e ∈ seats, stop path seats k = some e.2 → e.1 = k

instance (path : List Nat) (seats : List (CString × Nat)) (k : CString) :
    Decidable (ComesFirst path seats k) :=
  inferInstanceAs (Decidable (∀ e ∈ seats, _ → e.1 = k))

namespace Laid

variable {t : HashTable V} {seats : List (CString × Nat)} {k q : CString} {i : Nat}

theorem locate_eq (laid : Laid t seats) : hashtableLocate t k = stop (t.path k) seats k := by
  have accepts : (fun i => answersAt k (t.at? i)) =
      fun i => decide (∃ e ∈ seats, e.2 = i ∧ k.CasePrefix e.1) := by
    funext i
    rw [Bool.eq_iff_iff, answersAt_iff, decide_eq_true_iff]
    constructor
    · rintro ⟨q, v, held, begins⟩
      exact ⟨(q, i), (laid.holds q i).mpr ⟨v, held⟩, rfl, begins⟩
    · rintro ⟨⟨q, _⟩, member, rfl, begins⟩
      obtain ⟨v, held⟩ := (laid.holds _ _).mp member
      exact ⟨q, v, held, begins⟩
  exact (Probing.search_eq_find? ..).trans (congrArg (fun p => (t.path k).find? p) accepts)

/-- What is found is the value of the key at which the lookup stops. -/
theorem hashtableGet_of_stop (laid : Laid t seats) (member : (q, i) ∈ seats)
    (stops : stop (t.path k) seats k = some i) : hashtableGet t k = lastValue t.contents q := by
  obtain ⟨v, held⟩ := (laid.holds q i).mp member
  rw [hashtableGet_of_located (laid.locate_eq.trans stops) held, laid.lastValue_iff.mpr ⟨i, held⟩]

theorem exists_stop (laid : Laid t seats) (member : (k, i) ∈ seats) :
    ∃ e ∈ seats, stop (t.path k) seats k = some e.2 := by
  have own := laid.steady _ member
  have onPath : i ∈ t.path k := List.mem_of_find?_eq_some own
  have some_ : (stop (t.path k) seats k).isSome := by
    rw [stop, List.find?_isSome]
    exact ⟨i, onPath, decide_eq_true ⟨(k, i), member, rfl, CString.CasePrefix.refl k⟩⟩
  obtain ⟨j, stops⟩ := Option.isSome_iff_exists.mp some_
  obtain ⟨q, here⟩ := exists_of_stop stops
  exact ⟨(q, j), here, stops⟩

/-- A lookup that stops at no other key finds the entry of the key itself. -/
theorem hashtableGet_eq (laid : Laid t seats) (first : ComesFirst (t.path k) seats k) :
    hashtableGet t k = lastValue t.contents k := by
  cases stops : stop (t.path k) seats k with
  | some i =>
      obtain ⟨q, member⟩ := exists_of_stop stops
      obtain rfl : q = k := first (q, i) member stops
      exact laid.hashtableGet_of_stop member stops
  | none =>
      have nowhere : lastValue t.contents k = none := by
        rw [Option.eq_none_iff_forall_ne_some]
        intro v last
        obtain ⟨i, held⟩ := laid.lastValue_iff.mp last
        obtain ⟨e, _, stops'⟩ := laid.exists_stop ((laid.holds k i).mpr ⟨v, held⟩)
        rw [stops] at stops'
        cases stops'
      rw [nowhere, hashtableGet, laid.locate_eq, stops]

end Laid

/-- Once the table is rebuilt for a put of `key`, the lookup of `k` meets no other key that
begins with `k` before `k` itself. -/
def FoundAfter (table : HashTable V) (key k : CString) : Prop :=
  ∀ d, Comes table.slotsIn (table.queue key) d → (seated table.slotsIn (table.queue key) d).2 = [] →
    ComesFirst (table.slotsIn d k) (seated table.slotsIn (table.queue key) d).1 k

/-- What is found of another key after a rebuild without mistakes is its last entry before. -/
theorem hashtableGet_of_tellsApart {table table' : HashTable V} {key k : CString} {v : V}
    (sound : Sound table) (load : table.size ≤ table.tableSize / 2)
    (full : hashtableHash table key = none) (returns : PutReturns table key v table')
    (told : TellsApart table key) (found : FoundAfter table key k) (other : key ≠ k) :
    hashtableGet table' k = lastValue table.contents k := by
  obtain ⟨d, seats, mid⟩ := told.seats sound load full returns
  have here : seated table.slotsIn (table.queue key) d = (seats, []) := mid.rest
  have first := found d mid.comes (by rw [here])
  rw [here, ← mid.path_eq] at first
  rw [mid.laid.hashtableGet_eq first, told.lastValue_eq sound load full returns other]

end SolBroker
