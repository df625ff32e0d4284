import Mathlib
import SolBroker.Hash.Seating

/-!
# When one key disturbs another

A comparison bounded by one side takes a key for any key it begins with, letter case
aside, so a call on one key can change what is found for another. Without a rebuild
this is stated exactly: a put disturbs a key precisely if the put key begins with it
and is placed where its lookup arrives first, a deletion precisely if both lookups
stop at the same entry. A rebuild leaves a key alone if no key is taken for another on
the way to the new slots, nor for this one when it is looked up there; or if this one has
one entry and clashes with no key that is stored or put.
-/

namespace SolBroker

open Transition Probing

variable {V : Type*} {table table' : HashTable V} {k k' : CString} {i : Nat}

/-- The lookup of `k` passes nothing that begins with `k` before position `i`. -/
def ArrivesAt (table : HashTable V) (k : CString) (i : Nat) : Prop :=
  ∃ before after, table.path k = before ++ i :: after ∧
    ∀ j ∈ before, ∀ q v, table.at? j = some (q, v) → ¬ k.CasePrefix q

/-- The entry a lookup of `k` stops at. -/
def Answers (table : HashTable V) (k : CString) (i : Nat) : Prop :=
  (∃ q v, table.at? i = some (q, v) ∧ k.CasePrefix q) ∧ ArrivesAt table k i

theorem answers_iff : Answers table k i ↔ hashtableLocate table k = some i :=
  hashtableLocate_eq_some_iff.symm

/-- The first position on the path of `k` that is free or holds a key `k` begins with. -/
def Lands (table : HashTable V) (k : CString) (i : Nat) : Prop :=
  (∀ q v, table.at? i = some (q, v) → q.CasePrefix k) ∧
    ∃ before after, table.path k = before ++ i :: after ∧
      ∀ j ∈ before, ∃ q v, table.at? j = some (q, v) ∧ ¬ q.CasePrefix k

/-- A put of `k` finds the table at its load limit, or no position on its path. -/
def Rebuilds (table : HashTable V) (k : CString) : Prop :=
  table.tableSize / 2 ≤ table.size ∨
    ∀ i ∈ table.path k, ∃ q v, table.at? i = some (q, v) ∧ ¬ q.CasePrefix k

/-- The entry of a new `k` is what a lookup of `k'` comes to first. -/
def Captures (table : HashTable V) (k k' : CString) : Prop :=
  k'.CasePrefix k ∧ ∃ i, Lands table k i ∧ ArrivesAt table k' i

/-- Position `i` aside, a lookup of `k` comes to the value `v` first. -/
def AnswersBeside (table : HashTable V) (k : CString) (i : Nat) (v : V) : Prop :=
  ∃ j q before after, table.path k = before ++ j :: after ∧ j ≠ i ∧
    table.at? j = some (q, v) ∧ k.CasePrefix q ∧
    ∀ m ∈ before, m ≠ i → ∀ q w, table.at? m = some (q, w) → ¬ k.CasePrefix q

/-- The condition under which a call does not disturb `k'`. -/
def Undisturbed (table : HashTable V) (k' : CString) : TableOp V → Prop
  | .put k v =>
      (¬ Rebuilds table k ∧ (Captures table k k' → hashtableGet table k' = some v)) ∨
      (Rebuilds table k ∧ (Once table k' ∧ Aloof table k k' ∨
        TellsApart table k ∧ FoundAfter table k k' ∧
          hashtableGet table k' = lastValue table.contents k'))
  | .get _ => True
  | .del k => ∀ i, Answers table k i → Answers table k' i →
      ∃ v, hashtableGet table k' = some v ∧ AnswersBeside table k' i v

theorem rebuilds_iff : Rebuilds table k ↔ hashtableHash table k = none :=
  hashtableHash_eq_none_iff.symm

theorem Lands.of_hash (hash : hashtableHash table k = some i) : Lands table k i :=
  (hashtableHash_eq_some_iff.mp hash).2

theorem Lands.unique {j : Nat} (hash : hashtableHash table k = some i) (lands : Lands table k j) :
    j = i := by
  have room := (hashtableHash_eq_some_iff.mp hash).1
  have hash' : hashtableHash table k = some j := hashtableHash_eq_some_iff.mpr ⟨room, lands⟩
  rw [hash] at hash'
  exact (Option.some.inj hash').symm

theorem hashtableGet_eq_find? :
    hashtableGet table k = ((table.path k).find? fun j => answersAt k (table.at? j)).bind
      fun j => (table.at? j).map Prod.snd := by
  have located :
      hashtableLocate table k = (table.path k).find? fun j => answersAt k (table.at? j) :=
    Probing.search_eq_find? ..
  rw [hashtableGet, ← located]
  cases hashtableLocate table k <;> rfl

theorem arrivesAt_of_find? (found : ((table.path k).find? fun j => answersAt k (table.at? j)) =
    some i) : ArrivesAt table k i := by
  obtain ⟨_, before, after, path, passed⟩ := List.find?_eq_some_iff_append.mp found
  refine ⟨before, after, path, fun j member q v held begins => ?_⟩
  have rejected := passed j member
  rw [answersAt_iff.mpr ⟨q, v, held, begins⟩] at rejected
  cases rejected

/-! ## A put that does not rebuild -/

/-- A placement that captures a key answers for it. -/
theorem hashtableGet_place_of_captures (sound : Sound table)
    (hash : hashtableHash table k = some i) (v : V) (captured : Captures table k k') :
    hashtableGet (table.place i k v) k' = some v := by
  have inside := sound.hash_lt hash
  obtain ⟨pre, j, lands, before, after, path, passed⟩ := captured
  obtain rfl := Lands.unique hash lands
  have accepts : (fun m => answersAt k' ((table.place j k v).at? m)) =
      fun m => decide (m = j) || answersAt k' (table.at? m) := by
    funext m
    rw [HashTable.at?_place inside]
    by_cases here : m = j
    · simp [here, answersAt, streq_right_iff, pre]
    · simp [here]
  rw [hashtableGet_eq_find?, HashTable.path_place, accepts, Probing.find?_or_self path]
  · simp [HashTable.at?_place inside]
  · intro m member
    rw [← Bool.not_eq_true, answersAt_iff]
    rintro ⟨q, w, held, begins⟩
    exact passed m member q w held begins

/-- A placement that does not capture a key changes nothing for it. -/
theorem hashtableGet_place_of_not_captures (sound : Sound table)
    (hash : hashtableHash table k = some i) (v : V) (free : ¬ Captures table k k') :
    hashtableGet (table.place i k v) k' = hashtableGet table k' := by
  have inside := sound.hash_lt hash
  have lands := Lands.of_hash hash
  have sameFind : ((table.path k').find? fun m => answersAt k' ((table.place i k v).at? m)) =
      (table.path k').find? fun m => answersAt k' (table.at? m) := by
    by_cases pre : k'.CasePrefix k
    · have accepts : (fun m => answersAt k' ((table.place i k v).at? m)) =
          fun m => decide (m = i) || answersAt k' (table.at? m) := by
        funext m
        rw [HashTable.at?_place inside]
        by_cases here : m = i
        · simp [here, answersAt, streq_right_iff, pre]
        · simp [here]
      rw [accepts]
      refine Probing.find?_or_of_passed fun before after path => ?_
      by_contra nothing
      push Not at nothing
      refine free ⟨pre, i, lands, before, after, path, fun m member q w held begins => ?_⟩
      exact nothing m member (answersAt_iff.mpr ⟨q, w, held, begins⟩)
    · refine congrArg (fun p => (table.path k').find? p) (funext fun m => ?_)
      rw [HashTable.at?_place inside]
      by_cases here : m = i
      · rw [if_pos here, Bool.eq_iff_iff, answersAt_iff, answersAt_iff]
        constructor
        · rintro ⟨q, w, held, begins⟩
          cases held
          exact absurd begins pre
        · rintro ⟨q, w, held, begins⟩
          exact absurd (begins.trans (lands.1 q w (here ▸ held))) pre
      · rw [if_neg here]
  rw [hashtableGet_eq_find?, hashtableGet_eq_find?, HashTable.path_place, sameFind]
  cases found : (table.path k').find? fun m => answersAt k' (table.at? m) with
  | none => rfl
  | some m =>
      have elsewhere : m ≠ i := by
        rintro rfl
        have accepted := List.find?_some found
        obtain ⟨q, w, held, begins⟩ := answersAt_iff.mp accepted
        exact free ⟨begins.trans (lands.1 q w held), m, lands, arrivesAt_of_find? found⟩
      simp [HashTable.at?_place inside, elsewhere]

/-! ## A deletion -/

theorem answersAt_clear {e : CString × V} (held : table.at? i = some e) (m : Nat) :
    answersAt k ((table.clear i).at? m) = (!decide (m = i) && answersAt k (table.at? m)) := by
  rw [HashTable.at?_clear (HashTable.lt_of_at? held)]
  by_cases here : m = i <;> simp [here, answersAt]

theorem hashtableGet_clear_of_not_answers {e : CString × V} (held : table.at? i = some e)
    (elsewhere : ¬ Answers table k i) : hashtableGet (table.clear i) k = hashtableGet table k := by
  have other : ((table.path k).find? fun m => answersAt k (table.at? m)) ≠ some i := by
    intro found
    have accepted := List.find?_some found
    exact elsewhere ⟨answersAt_iff.mp accepted, arrivesAt_of_find? found⟩
  simp only [hashtableGet_eq_find?, HashTable.path_clear, answersAt_clear held,
    Probing.find?_and_of_ne other]
  cases found : (table.path k).find? fun m => answersAt k (table.at? m) with
  | none => rfl
  | some m =>
      have apart : m ≠ i := fun same => other (same ▸ found)
      simp [HashTable.at?_clear (HashTable.lt_of_at? held), apart]

/-- What is left for a key when an entry is deleted. -/
theorem hashtableGet_clear_eq_some_iff {e : CString × V} (held : table.at? i = some e) (v : V) :
    hashtableGet (table.clear i) k = some v ↔ AnswersBeside table k i v := by
  have inside := HashTable.lt_of_at? held
  rw [hashtableGet_eq_find?]
  simp only [HashTable.path_clear, answersAt_clear held, Option.bind_eq_some_iff,
    List.find?_eq_some_iff_append]
  simp only [HashTable.at?_clear inside]
  constructor
  · rintro ⟨j, ⟨accepted, before, after, path, passed⟩, value⟩
    simp only [Bool.and_eq_true, Bool.not_eq_true', decide_eq_false_iff_not] at accepted
    obtain ⟨apart, accepted⟩ := accepted
    obtain ⟨q, w, stored, begins⟩ := answersAt_iff.mp accepted
    rw [if_neg apart, stored] at value
    cases value
    refine ⟨j, q, before, after, path, apart, stored, begins, fun m member other q w met => ?_⟩
    intro begins
    have rejected := passed m member
    simp [other, answersAt_iff.mpr ⟨q, w, met, begins⟩] at rejected
  · rintro ⟨j, q, before, after, path, apart, stored, begins, passed⟩
    refine ⟨j, ⟨?_, before, after, path, fun m member => ?_⟩, by simp [apart, stored]⟩
    · simp [apart, answersAt_iff.mpr ⟨q, v, stored, begins⟩]
    · by_cases other : m = i
      · simp [other]
      · have rejected : ¬ answersAt k (table.at? m) = true := by
          rw [answersAt_iff]
          rintro ⟨q, w, met, begins⟩
          exact passed m member other q w met begins
        simp [other, rejected]

/-- A deletion of `k`, seen from any key. -/
theorem hashtableGet_del_iff :
    hashtableGet (hashtableDel table k).2.1 k' = hashtableGet table k' ↔
      Undisturbed table k' (.del k) := by
  cases located : hashtableLocate table k with
  | none =>
      simp only [hashtableDel, located, Undisturbed, true_iff]
      intro i answers
      rw [answers_iff, located] at answers
      cases answers
  | some i =>
      obtain ⟨⟨q, w, held, _⟩, _⟩ := answers_iff.mpr located
      simp only [hashtableDel, located]
      by_cases both : Answers table k' i
      · have value : hashtableGet table k' = some w := by
          simp [hashtableGet, answers_iff.mp both, held]
        constructor
        · intro same j answers _
          obtain rfl : i = j := by simpa [answers_iff, located] using answers
          rw [value, hashtableGet_clear_eq_some_iff held] at same
          exact ⟨w, value, same⟩
        · intro undisturbed
          obtain ⟨v, found, beside⟩ := undisturbed i (answers_iff.mpr located) both
          rw [found]
          exact (hashtableGet_clear_eq_some_iff held v).mpr beside
      · simp only [hashtableGet_clear_of_not_answers held both, true_iff]
        intro j answers answers'
        obtain rfl : i = j := by simpa [answers_iff, located] using answers
        exact absurd answers' both

/-! ## A put that rebuilds -/

/-- A rebuild moves the one entry of an unclashed key along. -/
theorem hashtableGet_put_of_aloof {v : V} (sound : Sound table)
    (returns : PutReturns table k v table') (other : k ≠ k') (once : Once table k')
    (aloof : Aloof table k k') : hashtableGet table' k' = hashtableGet table k' := by
  obtain ⟨entry, single⟩ := exists_single once
  obtain ⟨single', unclashed'⟩ := single.put_of_aloof sound returns other aloof
  rw [hashtableGet_eq sound single aloof.1, hashtableGet_eq (sound.put returns) single' unclashed']

/-- A put that places its entry, seen from any other key. -/
theorem hashtableGet_put_iff {v : V} (sound : Sound table) (hash : hashtableHash table k = some i) :
    hashtableGet (table.place i k v) k' = hashtableGet table k' ↔
      (Captures table k k' → hashtableGet table k' = some v) := by
  by_cases captured : Captures table k k'
  · rw [hashtableGet_place_of_captures sound hash v captured]
    exact ⟨fun same _ => same.symm, fun same => (same captured).symm⟩
  · rw [hashtableGet_place_of_not_captures sound hash v captured]
    exact iff_of_true rfl fun captures => absurd captures captured

/-- In every reachable table, a call that returns leaves what is found for another key
unchanged if it does not disturb it; and only then, unless it rebuilds the table and takes
one key for another in that. -/
theorem get_unchanged_of_undisturbed (reachable : Reachable TableStep hashtableCreate table)
    {op : TableOp V} (step : TableStep table op table') (other : op.key ≠ k') :
    (Undisturbed table k' op → hashtableGet table' k' = hashtableGet table k' ∧
      hashtableExists table' k' = hashtableExists table k') ∧
    ((∀ k v, op = .put k v → Rebuilds table k → TellsApart table k ∧ FoundAfter table k k') →
      hashtableGet table' k' = hashtableGet table k' → Undisturbed table k' op) := by
  have sound : Sound table := (keys_of_reachable reachable).sound
  have load := load_of_reachable reachable
  suffices unchanged : (Undisturbed table k' op → hashtableGet table' k' = hashtableGet table k') ∧
      ((∀ k v, op = .put k v → Rebuilds table k → TellsApart table k ∧ FoundAfter table k k') →
        hashtableGet table' k' = hashtableGet table k' → Undisturbed table k' op) from
    ⟨fun undisturbed => ⟨unchanged.1 undisturbed, by
      rw [hashtableExists, unchanged.1 undisturbed, hashtableExists]⟩, unchanged.2⟩
  cases op with
  | get key =>
      cases step
      exact ⟨fun _ => rfl, fun _ _ => trivial⟩
  | del key =>
      cases step
      exact ⟨hashtableGet_del_iff.mpr, fun _ => hashtableGet_del_iff.mp⟩
  | put k v =>
      rcases PutReturns.cases step with ⟨i, hash, rfl⟩ | ⟨full, _⟩
      · have room : ¬ Rebuilds table k := by simp [rebuilds_iff, hash]
        rw [hashtableGet_put_iff sound hash]
        exact ⟨fun undisturbed => (undisturbed.resolve_right fun h => room h.1).2,
          fun _ same => .inl ⟨room, same⟩⟩
      · have rebuilds : Rebuilds table k := rebuilds_iff.mpr full
        constructor
        · rintro (⟨room, _⟩ | ⟨_, ⟨once, aloof⟩ | ⟨told, found, own⟩⟩)
          · exact absurd rebuilds room
          · exact hashtableGet_put_of_aloof sound step other once aloof
          · rw [hashtableGet_of_tellsApart sound load full step told found other, own]
        · intro mistakesNone same
          obtain ⟨told, found⟩ := mistakesNone k v rfl rebuilds
          refine .inr ⟨rebuilds, .inr ⟨told, found, ?_⟩⟩
          rw [← same, hashtableGet_of_tellsApart sound load full step told found other]

def clientAB : CString := cstr [97, 98]
def clientE : CString := cstr [101]

def prefixClients : HashTable Nat := (hashtableCreate.place 2 clientA 1).place 1 clientAB 2

/-- The table after `e` came as the third client: the slots of eight are all different. -/
def prefixClientsGrown : HashTable Nat :=
  (((HashTable.zeroed 8).place 1 clientAB 2).place 2 clientA 1).place 0 clientE 3

/-- `a` stays where its lookup finds it when the table with `ab` grows. -/
theorem putE_leaves_a : hashtableGet prefixClientsGrown clientA = some 1 ∧
    hashtableExists prefixClientsGrown clientA = true := by
  have first : TableStep hashtableCreate (.put clientA 1) (hashtableCreate.place 2 clientA 1) :=
    ⟨1, 0, by decide⟩
  have second : TableStep (hashtableCreate.place 2 clientA 1) (.put clientAB 2) prefixClients :=
    ⟨1, 0, by decide⟩
  have reachable : Reachable TableStep hashtableCreate prefixClients :=
    ⟨_, .snoc (.snoc .nil first) second⟩
  have third : TableStep prefixClients (.put clientE 3) prefixClientsGrown := ⟨2, 0, by decide⟩
  -- everyone has a seat in the first round
  have settled : (seated prefixClients.slotsIn (prefixClients.queue clientE) 0).2 = [] := by
    decide
  have only {d : Nat}
      (comes : Comes prefixClients.slotsIn (prefixClients.queue clientE) d) : d = 0 := by
    by_contra later
    exact comes 0 (Nat.pos_of_ne_zero later) settled
  have undisturbed : Undisturbed prefixClients clientA (.put clientE 3) := by
    refine .inr ⟨rebuilds_iff.mpr (by decide), .inr ⟨fun d comes => ?_, fun d comes _ => ?_, ?_⟩⟩
    · obtain rfl := only comes
      rw [TellsApartIn]
      decide
    · obtain rfl := only comes
      decide
    · decide
  have other : clientE ≠ clientA := by decide
  obtain ⟨got, exists_⟩ := (get_unchanged_of_undisturbed reachable third other).1 undisturbed
  exact ⟨got.trans (by decide), exists_.trans (by decide)⟩

def NeverInterferes (V : Type*) : Prop :=
  ∀ (table table' : HashTable V) (op : TableOp V), Reachable TableStep hashtableCreate table →
    TableStep table op table' → ∀ k', op.key ≠ k' →
      hashtableGet table' k' = hashtableGet table k' ∧
        hashtableExists table' k' = hashtableExists table k'

/-- A put of `A` makes the lookup of `a` succeed. -/
theorem putA_answers_a : ¬ NeverInterferes Nat := by
  intro never
  have step : TableStep hashtableCreate (.put (.letter 65 (by decide)) 1)
      (hashtableCreate.place 3 (.letter 65 (by decide)) 1) := ⟨1, 0, by decide⟩
  have same := never hashtableCreate _ _ ⟨[], .nil⟩ step (.letter 97 (by decide)) (by decide)
  exact absurd same.1 (by decide)

end SolBroker
