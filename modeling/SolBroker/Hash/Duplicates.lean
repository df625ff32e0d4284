import Mathlib
import SolBroker.Hash.Exact

/-!
# When a key gets a second entry

A put stops at the first free position of its path and does not look for the key
further along. Among keys that are no prefixes of one another a second entry arises
in exactly one way: the key has an entry, the table is not about to be rebuilt, and a
deletion has left a free position before that entry. Without such a put every key
has at most one entry, and a deleted key stays deleted until it is put again.
-/

namespace SolBroker

open Transition

variable {V : Type*} {keys : Set CString} {n : Nat} {table table' : HashTable V} {k : CString}

/-- Each key has at most one entry. -/
def Unique (table : HashTable V) : Prop :=
  ∀ k i j v w, table.at? i = some (k, v) → table.at? j = some (k, w) → i = j

/-- A put of a key is to find the entry it has, if any: the table is rebuilt first, or
nothing free comes before that entry. -/
def PutsInPlace (table : HashTable V) : TableOp V → Prop
  | .put k _ => table.tableSize / 2 ≤ table.size ∨ Tight table k
  | .get _ | .del _ => True

/-- A call that returns, on one of the given keys. -/
def KeyedStep (keys : Set CString) (table : HashTable V) (op : TableOp V)
    (table' : HashTable V) : Prop :=
  op.key ∈ keys ∧ TableStep table op table'

theorem Unique.single (unique : Unique table) (k : CString) : ∃ entry, Single table k entry :=
  exists_single (unique k)

theorem unique_of_single (known : Keys keys n table)
    (single : ∀ k ∈ keys, ∃ entry, Single table k entry) : Unique table := by
  intro k i j v w atI atJ
  obtain ⟨entry, single⟩ := single k (known.within i k v atI)
  exact single.unique i j v w atI atJ

/-- A put that misses the entry its key has leaves it a second one. -/
theorem not_unique_of_missed (sound : Sound table) {v : V} (returns : PutReturns table k v table')
    (room : table.size < table.tableSize / 2) (loose : ¬ Tight table k) : ¬ Unique table' := by
  unfold Tight at loose
  push Not at loose
  obtain ⟨i, w, held, hidden⟩ := loose
  rcases returns.cases with ⟨j, hash, rfl⟩ | ⟨full, _⟩
  · obtain ⟨_, _, before, after, path, passed⟩ := hashtableHash_eq_some_iff.mp hash
    have apart : i ≠ j := by
      rintro rfl
      refine hidden ⟨before, after, path, fun m member => ?_⟩
      obtain ⟨q, x, taken, _⟩ := passed m member
      simp [taken]
    have inside := sound.hash_lt hash
    intro unique
    refine apart (unique k i j w v ?_ ?_)
    · rw [HashTable.at?_place inside, if_neg apart, held]
    · rw [HashTable.at?_place inside, if_pos rfl]
  · rcases hashtableHash_eq_none_iff.mp full with limit | blocked
    · omega
    · obtain ⟨q, x, taken, differs⟩ := blocked i (sound.home i k w held)
      rw [held] at taken
      cases taken
      exact absurd (CString.CasePrefix.refl k) differs

/-- A put that is in place keeps every entry single. -/
theorem unique_of_inPlace (prefixFree : PrefixFree keys) (known : Keys keys n table)
    (unique : Unique table) {q : CString} {v : V} (member : q ∈ keys)
    (returns : PutReturns table q v table')
    (inPlace : table.tableSize / 2 ≤ table.size ∨ Tight table q) : Unique table' := by
  apply unique_of_single (known.put member returns)
  intro k inside
  obtain ⟨entry, single⟩ := unique.single k
  have clear : ∀ s ∈ keys, Clear n k s := fun s known => prefixFree.clear inside known n
  by_cases self : q = k
  · subst self
    have standIn : ∀ s ∈ keys, Clear n s q := fun s known => prefixFree.clear known inside n
    rcases inPlace with limit | tight
    · rcases returns.cases with ⟨i, hash, _⟩ | ⟨_, table₁, moves, again⟩
      · have := (hashtableHash_eq_some_iff.mp hash).1
        omega
      · have rebuilt := Follows.of_moves clear known single moves
        exact ⟨_, (rebuilt.put clear again member fun _ => .inr standIn).single⟩
    · have follows : Follows keys n q entry table := ⟨known, single, tight⟩
      exact ⟨_, (follows.put clear returns member fun _ => .inr standIn).single⟩
  · exact ⟨_, single.put clear known returns member fun same => absurd same self⟩

/-- One step keeps the entries single exactly when it puts in place. -/
theorem unique_step_iff (prefixFree : PrefixFree keys) (known : Keys keys n table)
    (unique : Unique table) {op : TableOp V} (step : KeyedStep keys table op table') :
    Unique table' ↔ PutsInPlace table op := by
  obtain ⟨member, step⟩ := step
  cases op with
  | put q v =>
      constructor
      · intro unique'
        by_contra missed
        simp only [PutsInPlace, not_or, not_le] at missed
        exact not_unique_of_missed known.sound step missed.1 missed.2 unique'
      · exact unique_of_inPlace prefixFree known unique member step
  | get q =>
      cases step
      simp [PutsInPlace, unique]
  | del q =>
      cases step
      simp only [PutsInPlace, iff_true]
      unfold hashtableDel
      cases located : hashtableLocate table q with
      | none => exact unique
      | some m =>
          obtain ⟨⟨s, x, held, _⟩, _⟩ := hashtableLocate_eq_some_iff.mp located
          intro k i j v w atI atJ
          simp only [HashTable.at?_clear (HashTable.lt_of_at? held)] at atI atJ
          split at atI
          · cases atI
          · split at atJ
            · cases atJ
            · exact unique k i j v w atI atJ

/-! ## Deleted keys -/

/-- A key without an entry has none after a call that does not put it. -/
theorem Single.step_none (prefixFree : PrefixFree keys) (known : Keys keys n table)
    (unique : Unique table) (inside : k ∈ keys) (absent : Single table k none) {op : TableOp V}
    (step : KeyedStep keys table op table') (other : ∀ v, op ≠ .put k v) :
    Single table' k none := by
  obtain ⟨member, step⟩ := step
  cases op with
  | put q v =>
      have apart : q ≠ k := fun self => other v (by rw [self])
      have single := absent.put (fun s known => prefixFree.clear inside known n) known step member
        fun _ => rfl
      rwa [if_neg apart] at single
  | get q =>
      cases step
      exact absent
  | del q =>
      cases step
      obtain ⟨entry, single⟩ := unique.single q
      have unclashed := Keys.unclashed known prefixFree member
      rcases hashtableLocate_single known.sound single unclashed with
        ⟨located, _⟩ | ⟨i, v, located, held, _⟩
      · simpa only [hashtableDel, located] using absent
      · have apart : q ≠ k := by
          rintro rfl
          have := (absent.held v).mpr ⟨i, held⟩
          cases this
        simpa only [hashtableDel, located] using absent.clear_other held apart

/-- A deletion that reports success removes the single entry of its key. -/
theorem Single.del_self (prefixFree : PrefixFree keys) (known : Keys keys n table)
    (unique : Unique table) (inside : k ∈ keys) : Single (hashtableDel table k).2.1 k none := by
  obtain ⟨entry, single⟩ := unique.single k
  rcases hashtableLocate_single known.sound single (known.unclashed prefixFree inside) with
    ⟨located, rfl⟩ | ⟨i, v, located, held, _⟩
  · simpa only [hashtableDel, located] using single
  · simpa only [hashtableDel, located] using single.clear_self held

/-- A key whose deletion succeeded is not found until it is put again. -/
def StaysDeleted (tr : List (HashTable V × TableOp V)) (table : HashTable V) : Prop :=
  ∀ before s k after, tr = before ++ (s, .del k) :: after → (hashtableDel s k).1 = hashtableOk →
    (∀ visit ∈ after, ∀ v, visit.2 ≠ .put k v) → hashtableGet table k = none

/-- While entries are single, nothing brings a deleted key back. -/
theorem single_none_of_deleted (prefixFree : PrefixFree keys)
    {tr : List (HashTable V × TableOp V)} (run : Run (KeyedStep keys) hashtableCreate tr table)
    (unique : ∀ visit ∈ tr, Unique visit.1) {before after : List (HashTable V × TableOp V)}
    {s : HashTable V} (split : tr = before ++ (s, .del k) :: after)
    (untouched : ∀ visit ∈ after, ∀ v, visit.2 ≠ .put k v) :
    k ∈ keys ∧ Single table k none := by
  induction run generalizing after with
  | nil => simp at split
  | @snoc tr t op t' earlier last ih =>
      have known : Keys keys initialSize t := earlier.invariant (keys_hashtableCreate keys)
        fun _ _ _ known step => known.step step.1 step.2
      have here : Unique t := unique (t, op) (by simp)
      rcases List.eq_nil_or_concat after with rfl | ⟨after, visit, rfl⟩
      · obtain ⟨rfl, same⟩ := List.append_inj' split rfl
        cases same
        obtain ⟨inside, step⟩ := last
        cases step
        exact ⟨inside, .del_self prefixFree known here inside⟩
      · rw [List.concat_eq_append, ← List.cons_append, ← List.append_assoc] at split
        obtain ⟨rfl, same⟩ := List.append_inj' split rfl
        cases same
        obtain ⟨inside, absent⟩ :=
          ih (fun visit member => unique visit (List.mem_append_left _ member))
          rfl fun visit member => untouched visit (by simp [member])
        exact ⟨inside, absent.step_none prefixFree known here inside last
          (untouched (t, op) (by simp))⟩

/-- In a run over keys that are no prefixes of one another, every key has at most one
entry throughout, and deleted keys stay deleted, exactly when every put is in place. -/
theorem unique_throughout_iff (prefixFree : PrefixFree keys)
    {tr : List (HashTable V × TableOp V)} (run : Run (KeyedStep keys) hashtableCreate tr table) :
    ((∀ visit ∈ tr, Unique visit.1) ∧ Unique table ∧ StaysDeleted tr table) ↔
      ∀ visit ∈ tr, PutsInPlace visit.1 visit.2 := by
  have kept (s : HashTable V) (op : TableOp V) (s' : HashTable V) (known : Keys keys initialSize s)
      (step : KeyedStep keys s op s') : Keys keys initialSize s' := known.step step.1 step.2
  have exact_ := run.invariant_iff (keys_hashtableCreate keys) kept
    (by simp [Unique, hashtableCreate])
    fun _ _ _ known unique step => unique_step_iff prefixFree known unique step
  rw [← exact_]
  constructor
  · rintro ⟨visited, final, _⟩
    exact ⟨visited, final⟩
  · rintro ⟨visited, final⟩
    refine ⟨visited, final, fun before s k after split _ untouched => ?_⟩
    obtain ⟨inside, absent⟩ := single_none_of_deleted prefixFree run visited split untouched
    have known : Keys keys initialSize table := run.invariant (keys_hashtableCreate keys) kept
    exact hashtableGet_eq known.sound absent (known.unclashed prefixFree inside)

/-! ## The keys `A` and `b`, which start at the same slot of four -/

def capitalA : CString := .letter 65 (by decide)

def sameHome : Set CString := { k | k = capitalA ∨ k = clientB }

theorem sameHome_prefixFree : PrefixFree sameHome := by
  rintro a (rfl | rfl) b (rfl | rfl) <;> decide

def onlyCapitalA : HashTable Nat := hashtableCreate.place 3 capitalA 1

/-- `b` had to move on to the next slot. -/
def besideCapitalA : HashTable Nat := onlyCapitalA.place 0 clientB 2

theorem sameHome_run :
    Run (KeyedStep sameHome) hashtableCreate
      [(hashtableCreate, .put capitalA 1), (onlyCapitalA, .put clientB 2),
        (besideCapitalA, .del capitalA)] (besideCapitalA.clear 3) := by
  refine .snoc (.snoc (.snoc .nil ⟨.inl rfl, 1, 0, by decide⟩) ⟨.inr rfl, 1, 0, by decide⟩)
    ⟨.inl rfl, ?_⟩
  change _ = _
  decide

theorem sameHome_unique : Unique (besideCapitalA.clear 3) := by
  refine ((unique_throughout_iff sameHome_prefixFree sameHome_run).mpr ?_).2.1
  simp only [List.mem_cons, List.not_mem_nil, or_false]
  rintro _ (rfl | rfl | rfl)
  · exact .inr (by simp [Tight, hashtableCreate])
  · refine .inr fun i v held => ?_
    rw [onlyCapitalA, HashTable.at?_place (by decide)] at held
    split at held
    · cases held
    · simp [hashtableCreate] at held
  · trivial

/-- In every run over keys that are no prefixes of one another, no key ever has two
entries and deleted keys stay deleted. -/
def NeverDuplicates (V : Type*) : Prop :=
  ∀ keys, PrefixFree keys → ∀ (tr : List (HashTable V × TableOp V)) table,
    Run (KeyedStep keys) hashtableCreate tr table → Unique table ∧ StaysDeleted tr table

/-- Putting `b` again after `A` left gives it a second entry, which a deletion of `b`
then brings back to light. -/
theorem putAgain_duplicates :
    ¬ NeverDuplicates Nat ∧
      (hashtableDel ((besideCapitalA.clear 3).place 3 clientB 3) clientB).1 = hashtableOk ∧
      hashtableGet (hashtableDel ((besideCapitalA.clear 3).place 3 clientB 3) clientB).2.1 clientB =
        some 2 := by
  refine ⟨fun never => ?_, by decide, by decide⟩
  have run := sameHome_run.snoc
    (show KeyedStep sameHome _ (.put clientB 3) ((besideCapitalA.clear 3).place 3 clientB 3) from
      ⟨.inr rfl, 1, 0, by decide⟩)
  have same := (never sameHome sameHome_prefixFree _ _ run).1 clientB 0 3 2 3
    (by decide) (by decide)
  exact absurd same (by decide)

end SolBroker
