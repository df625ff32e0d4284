import Mathlib
import SolBroker.Hash.Table

/-!
# The entry of one key

What becomes of the entry of a single key while other keys come and go. The
comparison that bounds by one side can only take another key for this one if this
one is a case-insensitive prefix of it, and only where their paths meet; against keys
that never clash in this way the entry stays, moves along with every rebuild, and
remains the only one. On a rebuilt table it also has no free slot before it, which is
what later puts of the same key rely on.
-/

namespace SolBroker

variable {V : Type*}

/-- In a table of `n` slots a lookup of `k` can meet the different key `q` and take
it for `k`. -/
def Clash (n : Nat) (k q : CString) : Prop :=
  k ≠ q ∧ k.CasePrefix q ∧
    ∃ i ∈ Probing.path n maxChainLength (hashtableHashInt n k),
      i ∈ Probing.path n maxChainLength (hashtableHashInt n q)

/-- No clash at `n` slots, nor after any number of doublings. -/
def Clear (n : Nat) (k q : CString) : Prop :=
  ∀ e, ¬ Clash (n * 2 ^ e) k q

theorem Clear.grow {n n' e : Nat} {k q : CString} (clear : Clear n k q) (grown : n' = n * 2 ^ e) :
    Clear n' k q := by
  intro e'
  rw [grown, Nat.mul_assoc, ← pow_add]
  exact clear (e + e')

/-- Every slot the path of `k` passes before `i` is taken. -/
def Reaches (table : HashTable V) (k : CString) (i : Nat) : Prop :=
  ∃ before after, table.path k = before ++ i :: after ∧ ∀ j ∈ before, table.at? j ≠ none

/-- The entry of `k` is `entry`, and there is no second one. -/
structure Single (table : HashTable V) (k : CString) (entry : Option V) : Prop where
  held : ∀ v, entry = some v ↔ ∃ i, table.at? i = some (k, v)
  unique : ∀ i j v w, table.at? i = some (k, v) → table.at? j = some (k, w) → i = j

/-- No free slot comes before an entry of `k`. -/
def Tight (table : HashTable V) (k : CString) : Prop :=
  ∀ i v, table.at? i = some (k, v) → Reaches table k i

/-- There is one entry of `k` at most. -/
def Once (table : HashTable V) (k : CString) : Prop :=
  ∀ i j v w, table.at? i = some (k, v) → table.at? j = some (k, w) → i = j

/-- No stored key can be taken for `k`, at this size or a later one. -/
def Unclashed (table : HashTable V) (k : CString) : Prop :=
  ∀ i q v, table.at? i = some (q, v) → Clear table.tableSize k q

/-- Nor can `key`, which is put. -/
def Aloof (table : HashTable V) (key k : CString) : Prop :=
  Unclashed table k ∧ Clear table.tableSize k key

theorem single_zeroed (n : Nat) (k : CString) : Single (.zeroed n : HashTable V) k none where
  held := by simp
  unique := by simp

theorem exists_single {table : HashTable V} {k : CString} (unique : Once table k) :
    ∃ entry, Single table k entry := by
  by_cases held : ∃ i v, table.at? i = some (k, v)
  · obtain ⟨i, v, held⟩ := held
    refine ⟨some v, fun w => ⟨?_, ?_⟩, unique⟩
    · rintro ⟨⟩
      exact ⟨i, held⟩
    · rintro ⟨j, held'⟩
      rw [unique j i w v held' held, held] at held'
      simpa using held'
  · refine ⟨none, fun w => ⟨by simp, ?_⟩, unique⟩
    rintro ⟨j, held'⟩
    exact absurd ⟨j, w, held'⟩ held

section Lookup

variable {table : HashTable V} {k : CString}

/-- A stored key other than `k` met on the path of `k` does not begin with `k`. -/
theorem Unclashed.not_casePrefix (unclashed : Unclashed table k) (sound : Sound table) {i : Nat}
    {q : CString} {v : V} (held : table.at? i = some (q, v)) (on : i ∈ table.path k)
    (pre : k.CasePrefix q) : q = k := by
  by_contra other
  refine unclashed i q v held 0 ⟨Ne.symm other, pre, i, ?_, ?_⟩
  · simpa [HashTable.path] using on
  · simpa [HashTable.path] using sound.home i q v held

/-- A lookup finds the single entry. -/
theorem hashtableGet_eq {entry : Option V} (sound : Sound table) (single : Single table k entry)
    (unclashed : Unclashed table k) : hashtableGet table k = entry := by
  unfold hashtableGet
  cases located : hashtableLocate table k with
  | none =>
      have missing := hashtableLocate_eq_none_iff.mp located
      cases entry with
      | none => rfl
      | some v =>
          obtain ⟨i, held⟩ := (single.held v).mp rfl
          exact absurd (CString.CasePrefix.refl k) (missing i (sound.home i k v held) k v held)
  | some i =>
      obtain ⟨⟨q, v, held, pre⟩, before, after, path, _⟩ := hashtableLocate_eq_some_iff.mp located
      obtain rfl := unclashed.not_casePrefix sound held (by simp [path]) pre
      rw [(single.held v).mpr ⟨i, held⟩]
      simp [held]

end Lookup

section Placing

variable {table : HashTable V} {k q : CString} {i : Nat} {v : V} {entry : Option V}

/-- A key that does not clash with `k` is never placed over the entry of `k`. -/
theorem hash_ne_entry (sound : Sound table) (hash : hashtableHash table q = some i)
    (other : q ≠ k) (clear : Clear table.tableSize k q) (w : V) :
    table.at? i ≠ some (k, w) := by
  intro held
  obtain ⟨_, onto, before, after, path, _⟩ := hashtableHash_eq_some_iff.mp hash
  refine clear 0 ⟨Ne.symm other, onto k w held, i, ?_, ?_⟩
  · simpa [HashTable.path] using sound.home i k w held
  · have on : i ∈ table.path q := by simp [path]
    simpa [HashTable.path] using on

/-- Placing another key. -/
theorem Single.place_other (single : Single table k entry) (sound : Sound table)
    (hash : hashtableHash table q = some i) (other : q ≠ k) (clear : Clear table.tableSize k q) :
    Single (table.place i q v) k entry := by
  have within := sound.hash_lt hash
  have same (j : Nat) (w : V) :
      (table.place i q v).at? j = some (k, w) ↔ table.at? j = some (k, w) := by
    rw [HashTable.at?_place within]
    split
    · rename_i here
      subst here
      simp [other, hash_ne_entry sound hash other clear w]
    · rfl
  refine ⟨fun w => ?_, fun j j' w w' => ?_⟩
  · simp only [same]
    exact single.held w
  · simp only [same]
    exact single.unique j j' w w'

/-- A filled slot stays filled. -/
theorem Reaches.place (reaches : Reaches table k i) {j : Nat} (within : j < table.tableSize) :
    Reaches (table.place j q v) k i := by
  obtain ⟨before, after, path, taken⟩ := reaches
  refine ⟨before, after, by simpa using path, fun m member => ?_⟩
  rw [HashTable.at?_place within]
  split
  · simp
  · exact taken m member

theorem Tight.place_other (tight : Tight table k) (sound : Sound table)
    (hash : hashtableHash table q = some i) (other : q ≠ k) : Tight (table.place i q v) k := by
  have within := sound.hash_lt hash
  intro j w held
  rw [HashTable.at?_place within] at held
  split at held
  · cases held
    exact absurd rfl other
  · exact (tight j w held).place within

/-- Placing the key itself where it has no entry, or over the entry it has. -/
theorem Single.place_self (sound : Sound table)
    (hash : hashtableHash table k = some i)
    (onto : ∀ j w, table.at? j = some (k, w) → j = i) :
    Single (table.place i k v) k (some v) := by
  have within := sound.hash_lt hash
  have only (j : Nat) (w : V) : (table.place i k v).at? j = some (k, w) ↔ j = i ∧ v = w := by
    rw [HashTable.at?_place within]
    split
    · rename_i here
      simp [here]
    · rename_i elsewhere
      simp only [elsewhere, false_and, iff_false]
      exact fun held => elsewhere (onto j w held)
  refine ⟨fun w => ?_, fun j j' w w' => ?_⟩
  · simp [only]
  · simp only [only]
    rintro ⟨rfl, _⟩ ⟨rfl, _⟩
    rfl

theorem Tight.place_self (sound : Sound table) (hash : hashtableHash table k = some i)
    (onto : ∀ j w, table.at? j = some (k, w) → j = i) : Tight (table.place i k v) k := by
  have within := sound.hash_lt hash
  obtain ⟨_, _, before, after, path, passed⟩ := hashtableHash_eq_some_iff.mp hash
  have reaches : Reaches table k i := by
    refine ⟨before, after, path, fun j member => ?_⟩
    obtain ⟨s, w, held, _⟩ := passed j member
    simp [held]
  intro j w held
  rw [HashTable.at?_place within] at held
  split at held
  · rename_i here
    rw [here]
    exact reaches.place within
  · rw [onto j w held]
    exact reaches.place within

/-- A put finds a tight entry again, if no stored key stands in for it. -/
theorem hash_eq_entry (sound : Sound table) (hash : hashtableHash table k = some i)
    (tight : Tight table k)
    (unique : ∀ i j v w, table.at? i = some (k, v) → table.at? j = some (k, w) → i = j)
    (standIn : ∀ i q v, table.at? i = some (q, v) → Clear table.tableSize q k)
    {j : Nat} {w : V} (held : table.at? j = some (k, w)) : j = i := by
  obtain ⟨before', after', path', taken⟩ := tight j w held
  obtain ⟨_, onto, before, after, path, passed⟩ := hashtableHash_eq_some_iff.mp hash
  rcases Probing.split_cases (path'.symm.trans path) with here | early | late
  · exact here
  · -- the search does not pass the entry itself
    obtain ⟨s, x, held', apart⟩ := passed j early
    rw [held] at held'
    cases held'
    exact absurd (CString.CasePrefix.refl k) apart
  · cases filled : table.at? i with
    | none => exact absurd filled (taken i late)
    | some e =>
        obtain ⟨s, x⟩ := e
        by_cases self : s = k
        · subst self
          exact unique j i w x held filled
        · refine absurd ⟨self, onto s x filled, i, ?_, ?_⟩ (standIn i s x filled 0)
          · simpa [HashTable.path] using sound.home i s x filled
          · have on : i ∈ table.path k := by simp [path]
            simpa [HashTable.path] using on

end Placing

/-! ## Through a put, however often it rebuilds -/

/-- Among the given keys, `k` has the one entry `entry` and nothing free before it. -/
structure Follows (keys : Set CString) (n : Nat) (k : CString) (entry : Option V)
    (table : HashTable V) : Prop where
  known : Keys keys n table
  single : Single table k entry
  tight : Tight table k

section Following

variable {keys : Set CString} {n : Nat} {k q : CString} {entry : Option V} {w : V}
  {table table₁ table' : HashTable V}

/-- Rebuilding keeps the one entry, if the moves keep what they are to keep. -/
theorem Follows.rebuilt {rel : HashTable V → CString × V → HashTable V → Prop}
    (kept : ∀ t q w t' entry, rel t (q, w) t' → q ∈ keys → (q = k → entry = none) →
      Follows keys n k entry t → Follows keys n k (if q = k then some w else entry) t')
    (known : Keys keys n table) (single : Single table k entry)
    (moves : Moves rel table.contents (.zeroed (2 * table.tableSize)) table₁) :
    Follows keys n k entry table₁ := by
  have start : Follows keys n k none (.zeroed (2 * table.tableSize) : HashTable V) :=
    ⟨known.doubled, single_zeroed _ k, by simp [Tight]⟩
  -- moves of entries of other keys leave the entry as it is
  have others (es : List (CString × V)) (member : ∀ e ∈ es, e ∈ table.contents ∧ e.1 ≠ k)
      {t t' : HashTable V} {entry' : Option V} (moves : Moves rel es t t')
      (follows : Follows keys n k entry' t) : Follows keys n k entry' t' := by
    apply moves.invariant follows
    intro e inside s s' follows step
    obtain ⟨stored, other⟩ := member e inside
    simpa [other] using
      kept s e.1 e.2 s' entry' step (known.contents e stored) (by simp [other]) follows
  cases entry with
  | none =>
      refine others table.contents (fun e member => ⟨member, fun self => ?_⟩) moves start
      obtain ⟨i, held⟩ := HashTable.mem_contents.mp member
      have := (single.held e.2).mpr ⟨i, by rw [held, ← self]⟩
      cases this
  | some v =>
      obtain ⟨i, held⟩ := (single.held v).mp rfl
      obtain ⟨before, after, split, apart⟩ := Probing.reduceOption_split held
      have foreign : ∀ e, e ∈ before ∨ e ∈ after → e ∈ table.contents ∧ e.1 ≠ k := by
        intro e member
        obtain ⟨j, elsewhere, stored⟩ := apart e member
        refine ⟨HashTable.mem_contents.mpr ⟨j, stored⟩, fun self => ?_⟩
        refine elsewhere (single.unique j i e.2 v ?_ held)
        rw [← self]
        exact stored
      change table.contents = _ at split
      rw [split] at moves
      obtain ⟨mid, front, back⟩ := moves.append
      obtain _ | ⟨first, rest⟩ := back
      have arrived := others before (fun e member => foreign e (.inl member)) front start
      have moved := kept _ k v _ none first (known.within i k v held) (fun _ => rfl) arrived
      rw [if_pos rfl] at moved
      exact others after (fun e member => foreign e (.inr member)) rest moved

variable (clear : ∀ q ∈ keys, Clear n k q)
include clear

/-- A put on a tight table. The key itself may be put where it has no entry, or
where no stored key can stand in for it. -/
theorem Follows.put (follows : Follows keys n k entry table)
    (returns : PutReturns table q w table') (member : q ∈ keys)
    (fresh : q = k → entry = none ∨ ∀ s ∈ keys, Clear n s k) :
    Follows keys n k (if q = k then some w else entry) table' := by
  refine PutReturns.rule (R := fun t e t' => ∀ entry, e.1 ∈ keys →
    (e.1 = k → entry = none ∨ ∀ s ∈ keys, Clear n s k) → Follows keys n k entry t →
    Follows keys n k (if e.1 = k then some e.2 else entry) t') ?_ ?_ returns entry member fresh
    follows
  · intro t q i v hash entry member fresh follows
    have sound := follows.known.sound
    obtain ⟨e, size⟩ := follows.known.grown
    by_cases self : q = k
    · subst self
      have onto : ∀ j w, t.at? j = some (q, w) → j = i := by
        intro j w held
        rcases fresh rfl with none_ | apart
        · have := (follows.single.held w).mpr ⟨j, held⟩
          rw [none_] at this
          cases this
        · exact hash_eq_entry sound hash follows.tight follows.single.unique
            (fun m s x stored => (apart s (follows.known.within m s x stored)).grow size) held
      rw [if_pos rfl]
      exact ⟨follows.known.place member v hash, .place_self sound hash onto,
        .place_self sound hash onto⟩
    · rw [if_neg self]
      exact ⟨follows.known.place member v hash,
        follows.single.place_other sound hash self ((clear q member).grow size),
        follows.tight.place_other sound hash self⟩
  · intro t t₁ t' e _ moves again entry member fresh follows
    refine again entry member fresh (Follows.rebuilt ?_ follows.known follows.single moves)
    exact fun _ _ _ _ entry step member free => step entry member fun self => .inl (free self)

/-- A rebuild puts the one entry in a tight place. -/
theorem Follows.of_moves (known : Keys keys n table) (single : Single table k entry)
    (moves : Moves (fun t e t' => PutReturns t e.1 e.2 t') table.contents
      (.zeroed (2 * table.tableSize)) table₁) : Follows keys n k entry table₁ :=
  Follows.rebuilt (fun _ _ _ _ _ step member free follows =>
    follows.put clear step member fun self => .inl (free self)) known single moves

/-- A put on any table, of another key or of one that has no entry. -/
theorem Single.put (single : Single table k entry) (known : Keys keys n table)
    (returns : PutReturns table q w table') (member : q ∈ keys) (fresh : q = k → entry = none) :
    Single table' k (if q = k then some w else entry) := by
  rcases returns.cases with ⟨i, hash, rfl⟩ | ⟨_, table₁, moves, again⟩
  · obtain ⟨e, size⟩ := known.grown
    by_cases self : q = k
    · subst self
      rw [if_pos rfl]
      refine .place_self known.sound hash fun j v held => ?_
      have := (single.held v).mpr ⟨j, held⟩
      rw [fresh rfl] at this
      cases this
    · rw [if_neg self]
      exact single.place_other known.sound hash self ((clear q member).grow size)
  · have rebuilt := Follows.of_moves clear known single moves
    exact (rebuilt.put clear again member fun self => .inl (fresh self)).single

end Following

/-- A put of another key keeps the one entry of a key that none is taken for. -/
theorem Single.put_of_aloof {k q : CString} {w : V} {entry : Option V} {table table' : HashTable V}
    (single : Single table k entry) (sound : Sound table) (returns : PutReturns table q w table')
    (other : q ≠ k) (aloof : Aloof table q k) : Single table' k entry ∧ Unclashed table' k := by
  obtain ⟨unclashed, clear⟩ := aloof
  let keys : Set CString := { q | Clear table.tableSize k q }
  have known : Keys keys table.tableSize table :=
    ⟨sound, ⟨0, by simp⟩, fun i q v held => unclashed i q v held⟩
  have known' := known.put clear returns
  obtain ⟨e, grown⟩ := known'.grown
  have single' :=
    single.put (fun q member => member) known returns clear fun self => absurd self other
  rw [if_neg other] at single'
  exact ⟨single', fun i q v held => (known'.within i q v held).grow grown⟩

/-! ## Through a deletion -/

section Deleting

variable {table : HashTable V} {k q : CString} {i : Nat} {v : V} {entry : Option V}

theorem Single.clear_other (single : Single table k entry) (held : table.at? i = some (q, v))
    (other : q ≠ k) : Single (table.clear i) k entry := by
  have inside := HashTable.lt_of_at? held
  have same (j : Nat) (w : V) :
      (table.clear i).at? j = some (k, w) ↔ table.at? j = some (k, w) := by
    rw [HashTable.at?_clear inside]
    split
    · rename_i here
      rw [here, held]
      simp [other]
    · rfl
  refine ⟨fun w => ?_, fun j j' w w' => ?_⟩
  · simp only [same]
    exact single.held w
  · simp only [same]
    exact single.unique j j' w w'

theorem Single.clear_self (single : Single table k entry) (held : table.at? i = some (k, v)) :
    Single (table.clear i) k none := by
  have inside := HashTable.lt_of_at? held
  have gone (j : Nat) (w : V) : (table.clear i).at? j ≠ some (k, w) := by
    rw [HashTable.at?_clear inside]
    split
    · simp
    · rename_i elsewhere
      exact fun kept => elsewhere (single.unique j i w v kept held)
  exact ⟨by simp [gone], fun j j' w w' kept => absurd kept (gone j w)⟩

/-- Where a deletion of a key with at most one entry strikes. -/
theorem hashtableLocate_single (sound : Sound table) (single : Single table k entry)
    (unclashed : Unclashed table k) :
    (hashtableLocate table k = none ∧ entry = none) ∨
      ∃ i v, hashtableLocate table k = some i ∧ table.at? i = some (k, v) ∧ entry = some v := by
  cases located : hashtableLocate table k with
  | none =>
      refine .inl ⟨rfl, ?_⟩
      rw [← hashtableGet_eq sound single unclashed, hashtableGet, located]
  | some i =>
      obtain ⟨⟨q, v, held, pre⟩, before, after, path, _⟩ := hashtableLocate_eq_some_iff.mp located
      obtain rfl := unclashed.not_casePrefix sound held (by simp [path]) pre
      exact .inr ⟨i, v, rfl, held, (single.held v).mpr ⟨i, held⟩⟩

end Deleting

end SolBroker
