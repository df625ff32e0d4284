import Mathlib
import SolBroker.Lib.Probe
import SolBroker.Hash.Key

/-!
# The hash table

hashtable.c, with an entry that is not taken as an empty slot: the key and value it
still carries are never read. A put that finds no place doubles the table and puts
every entry again, which may double it further, so the two functions call each other
to a depth no argument bounds; `fuel` is that depth and `noReturn` is running out of
it. Whether a `calloc` succeeds is read from a list, an exhausted list meaning that
it does.
-/

namespace SolBroker

open Probing

variable {V : Type*}

def hashtableOk : Int := 0
def hashtableErr : Int := 1
def initialSize : Nat := 4
def maxChainLength : Nat := 8

structure HashTable (V : Type*) where
  entries : List (Option (CString × V))
  size : Nat
deriving DecidableEq, Repr

namespace HashTable

def tableSize (table : HashTable V) : Nat := table.entries.length

/-- The key and value at a position, if it is taken. -/
def at? (table : HashTable V) (i : Nat) : Option (CString × V) := slot table.entries i

/-- The positions probed for a key. -/
def path (table : HashTable V) (key : CString) : List Nat :=
  Probing.path table.tableSize maxChainLength (hashtableHashInt table.tableSize key)

/-- A zeroed array of `n` entries. -/
def zeroed (n : Nat) : HashTable V where
  entries := List.replicate n none
  size := 0

/-- The assignments at the end of `hashtable_put`. -/
def place (table : HashTable V) (index : Nat) (key : CString) (val : V) : HashTable V where
  entries := table.entries.set index (some (key, val))
  size := if (table.at? index).isNone then table.size + 1 else table.size

/-- Blanking out an entry in `hashtable_del`. -/
def clear (table : HashTable V) (index : Nat) : HashTable V where
  entries := table.entries.set index none
  size := table.size - 1

/-- The taken entries in order. -/
def contents (table : HashTable V) : List (CString × V) := table.entries.reduceOption

end HashTable

/-- `hashtable_create`, when both allocations succeed. -/
def hashtableCreate : HashTable V := HashTable.zeroed initialSize

/-- Where `hashtable_hash` stops: at a free entry, or at one whose key the wanted key
begins with. The comparison is bounded by the key that is stored. -/
def stopsAt (key : CString) : Option (CString × V) → Bool
  | none => true
  | some (k, _) => streq k key (strlen k)

/-- `hashtable_hash`, with `none` for `-HASHTABLE_FULL`. -/
def hashtableHash (table : HashTable V) (key : CString) : Option Nat :=
  if table.size ≥ table.tableSize / 2 then none
  else search (stopsAt key) table.entries maxChainLength (hashtableHashInt table.tableSize key)

/-- Where the loops of `hashtable_get` and `hashtable_del` stop: at a taken entry
whose key begins with the wanted key. The comparison is bounded by the latter. -/
def answersAt (key : CString) : Option (CString × V) → Bool
  | none => false
  | some (k, _) => streq k key (strlen key)

def hashtableLocate (table : HashTable V) (key : CString) : Option Nat :=
  search (answersAt key) table.entries maxChainLength (hashtableHashInt table.tableSize key)

def hashtableGet (table : HashTable V) (key : CString) : Option V :=
  match hashtableLocate table key with
  | some curr => (table.at? curr).map Prod.snd
  | none => none

def hashtableSize (table : HashTable V) : Nat := table.size

def hashtableExists (table : HashTable V) (key : CString) : Bool :=
  (hashtableGet table key).isSome

/-- `hashtable_del`, with the entry its destructor is called on. -/
def hashtableDel (table : HashTable V) (key : CString) :
    Int × HashTable V × Option (CString × V) :=
  match hashtableLocate table key with
  | some curr => (hashtableOk, table.clear curr, table.at? curr)
  | none => (-hashtableErr, table, none)

/-- What is left of a table and of the coming allocation outcomes, with a status. -/
abbrev Put (V : Type*) := Int × HashTable V × List Bool

/-- The loop of `hashtable_rehash` over the old entries. -/
def rehashLoop (put : HashTable V → CString → V → List Bool → Except Fault (Put V)) :
    List (Option (CString × V)) → HashTable V → List Bool → Except Fault (Put V)
  | [], table, allocs => .ok (hashtableOk, table, allocs)
  | none :: curr, table, allocs => rehashLoop put curr table allocs
  | some (key, val) :: curr, table, allocs => do
      let (status, table, allocs) ← put table key val allocs
      if status ≠ hashtableOk then pure (status, table, allocs)
      else rehashLoop put curr table allocs

def hashtableRehash (put : HashTable V → CString → V → List Bool → Except Fault (Put V))
    (table : HashTable V) : List Bool → Except Fault (Put V)
  | false :: allocs => .ok (-hashtableErr, table, allocs)
  | allocs => rehashLoop put table.entries (.zeroed (2 * table.tableSize)) allocs.tail

/-- `hashtable_put`. An index beyond `INT_MAX` does not survive the `int` it is
returned in. -/
def hashtablePut : Nat → HashTable V → CString → V → List Bool → Except Fault (Put V)
  | 0, _, _, _, _ => .error .noReturn
  | fuel + 1, table, key, val, allocs =>
      match hashtableHash table key with
      | some index =>
          if intMax < index then .error .intOverflow
          else .ok (hashtableOk, table.place index key val, allocs)
      | none => do
          let (status, table, allocs) ← hashtableRehash (hashtablePut fuel) table allocs
          if status = -hashtableErr then pure (-hashtableErr, table, allocs)
          else hashtablePut fuel table key val allocs

/-- A put that returns with every allocation succeeding. -/
def PutReturns (table : HashTable V) (key : CString) (val : V) (table' : HashTable V) : Prop :=
  ∃ fuel status, hashtablePut fuel table key val [] = .ok (status, table', [])

/-! ## What one probe can find -/

section Probes

variable {table : HashTable V} {key : CString} {i : Nat}

theorem stopsAt_iff {e : Option (CString × V)} :
    stopsAt key e = true ↔ ∀ k v, e = some (k, v) → k.CasePrefix key := by
  cases e with
  | none => simp [stopsAt]
  | some e => simp [stopsAt, streq_left_iff, Prod.ext_iff]

theorem answersAt_iff {e : Option (CString × V)} :
    answersAt key e = true ↔ ∃ k v, e = some (k, v) ∧ key.CasePrefix k := by
  cases e with
  | none => simp [answersAt]
  | some e => simp [answersAt, streq_right_iff, Prod.ext_iff]

/-- A place for a key: everything before it on the path is taken by keys the wanted
key does not begin with. -/
theorem hashtableHash_eq_some_iff :
    hashtableHash table key = some i ↔ table.size < table.tableSize / 2 ∧
      (∀ k v, table.at? i = some (k, v) → k.CasePrefix key) ∧
      ∃ before after, table.path key = before ++ i :: after ∧
        ∀ j ∈ before, ∃ k v, table.at? j = some (k, v) ∧ ¬ k.CasePrefix key := by
  unfold hashtableHash
  by_cases full : table.size ≥ table.tableSize / 2
  · simp [full]
  · rw [if_neg full, search_eq_some_iff, stopsAt_iff]
    simp only [← Bool.not_eq_true, stopsAt_iff]
    push Not
    rw [and_iff_right (not_le.mp full)]
    rfl

theorem hashtableHash_eq_none_iff :
    hashtableHash table key = none ↔ table.tableSize / 2 ≤ table.size ∨
      ∀ i ∈ table.path key, ∃ k v, table.at? i = some (k, v) ∧ ¬ k.CasePrefix key := by
  unfold hashtableHash
  by_cases full : table.size ≥ table.tableSize / 2
  · simp [full]
  · rw [if_neg full, search_eq_none_iff, or_iff_right full]
    simp only [← Bool.not_eq_true, stopsAt_iff]
    push Not
    rfl

theorem hashtableLocate_eq_some_iff :
    hashtableLocate table key = some i ↔
      (∃ k v, table.at? i = some (k, v) ∧ key.CasePrefix k) ∧
      ∃ before after, table.path key = before ++ i :: after ∧
        ∀ j ∈ before, ∀ k v, table.at? j = some (k, v) → ¬ key.CasePrefix k := by
  unfold hashtableLocate
  rw [search_eq_some_iff, answersAt_iff]
  simp only [← Bool.not_eq_true, answersAt_iff]
  push Not
  rfl

theorem hashtableLocate_eq_none_iff :
    hashtableLocate table key = none ↔
      ∀ i ∈ table.path key, ∀ k v, table.at? i = some (k, v) → ¬ key.CasePrefix k := by
  unfold hashtableLocate
  rw [search_eq_none_iff]
  simp only [← Bool.not_eq_true, answersAt_iff]
  push Not
  rfl

end Probes

/-! ## Entries after an assignment -/

namespace HashTable

variable {table : HashTable V} {key : CString} {i j : Nat}

@[simp] theorem tableSize_zeroed (n : Nat) : (zeroed n : HashTable V).tableSize = n :=
  List.length_replicate

@[simp] theorem at?_zeroed (n : Nat) : (zeroed n : HashTable V).at? i = none :=
  slot_replicate n

@[simp] theorem tableSize_place (v : V) : (table.place i key v).tableSize = table.tableSize :=
  List.length_set

@[simp] theorem tableSize_clear : (table.clear i).tableSize = table.tableSize :=
  List.length_set

@[simp] theorem path_place (v : V) (k : CString) : (table.place i key v).path k = table.path k := by
  simp [path]

@[simp] theorem path_clear (k : CString) : (table.clear i).path k = table.path k := by
  simp [path]

theorem at?_place (within : i < table.tableSize) (v : V) :
    (table.place i key v).at? j = if j = i then some (key, v) else table.at? j :=
  slot_set within _

theorem at?_clear (within : i < table.tableSize) :
    (table.clear i).at? j = if j = i then none else table.at? j :=
  slot_set within _

theorem lt_of_mem_path (positive : 0 < table.tableSize) (member : i ∈ table.path key) :
    i < table.tableSize :=
  Probing.lt_of_mem_path (hashtableHashInt_lt positive key) member

theorem lt_of_at? {e : CString × V} (held : table.at? i = some e) : i < table.tableSize :=
  lt_of_slot held

theorem mem_contents {e : CString × V} : e ∈ table.contents ↔ ∃ i, table.at? i = some e := by
  rw [contents, List.reduceOption_mem_iff]
  exact slot_eq_some_iff.symm

end HashTable

/-! ## The rule for puts

A put that returns is a placement, or a rebuild of the doubled table followed by
another put; a rebuild is a sequence of puts of the old entries. -/

/-- The puts of a list of entries, each related to the next by `R`. -/
inductive Moves (R : HashTable V → CString × V → HashTable V → Prop) :
    List (CString × V) → HashTable V → HashTable V → Prop
  | nil {table} : Moves R [] table table
  | cons {e es table table₁ table₂} (first : R table e table₁) (rest : Moves R es table₁ table₂) :
      Moves R (e :: es) table table₂

section Rule

variable {R : HashTable V → CString × V → HashTable V → Prop}

theorem Moves.append {es es' : List (CString × V)} {table table' : HashTable V}
    (moves : Moves R (es ++ es') table table') :
    ∃ mid, Moves R es table mid ∧ Moves R es' mid table' := by
  induction es generalizing table with
  | nil => exact ⟨table, .nil, moves⟩
  | cons e es ih =>
      obtain _ | ⟨first, rest⟩ := moves
      obtain ⟨mid, front, back⟩ := ih rest
      exact ⟨mid, .cons first front, back⟩

/-- A property every move keeps. -/
theorem Moves.invariant {es : List (CString × V)} {table table' : HashTable V}
    (moves : Moves R es table table') {inv : HashTable V → Prop} (start : inv table)
    (kept : ∀ e ∈ es, ∀ t t', inv t → R t e t' → inv t') : inv table' := by
  induction moves with
  | nil => exact start
  | cons first rest ih =>
      apply ih (kept _ (List.mem_cons_self ..) _ _ start first)
      intro e member
      exact kept e (List.mem_cons_of_mem _ member)

theorem rehashLoop_moves
    {put : HashTable V → CString → V → List Bool → Except Fault (Put V)}
    (sound : ∀ t k v s t' as, put t k v [] = .ok (s, t', as) →
      s = hashtableOk ∧ as = [] ∧ R t (k, v) t')
    {entries : List (Option (CString × V))} {table table' : HashTable V} {status : Int}
    {allocs : List Bool} (run : rehashLoop put entries table [] = .ok (status, table', allocs)) :
    status = hashtableOk ∧ allocs = [] ∧ Moves R entries.reduceOption table table' := by
  induction entries generalizing table with
  | nil =>
      cases run
      exact ⟨rfl, rfl, .nil⟩
  | cons entry entries ih =>
      cases entry with
      | none => exact ih run
      | some e =>
          obtain ⟨key, val⟩ := e
          simp only [rehashLoop] at run
          cases first : put table key val [] with
          | error _ => simp [first, bind, Except.bind] at run
          | ok result =>
              obtain ⟨status₁, table₁, allocs₁⟩ := result
              obtain ⟨rfl, rfl, move⟩ := sound _ _ _ _ _ _ first
              simp only [first, bind, Except.bind, ne_eq, not_true_eq_false, if_false] at run
              obtain ⟨done, left, moves⟩ := ih run
              exact ⟨done, left, .cons move moves⟩

/-- One round of a put: it places the entry, or rebuilds the table and goes on. -/
theorem hashtablePut_round {fuel : Nat}
    (sound : ∀ t k v s t' as, hashtablePut fuel t k v [] = .ok (s, t', as) →
      s = hashtableOk ∧ as = [] ∧ R t (k, v) t')
    {table table' : HashTable V} {key : CString} {val : V} {status : Int} {allocs : List Bool}
    (run : hashtablePut (fuel + 1) table key val [] = .ok (status, table', allocs)) :
    (∃ i, hashtableHash table key = some i ∧ table' = table.place i key val ∧
      status = hashtableOk ∧ allocs = []) ∨
    hashtableHash table key = none ∧ ∃ table₁,
      Moves R table.contents (.zeroed (2 * table.tableSize)) table₁ ∧
        hashtablePut fuel table₁ key val [] = .ok (status, table', allocs) := by
  rw [hashtablePut] at run
  cases hash : hashtableHash table key with
  | some index =>
      simp only [hash] at run
      split at run
      · cases run
      · cases run
        exact .inl ⟨index, rfl, rfl, rfl, rfl⟩
  | none =>
      simp only [hash, hashtableRehash, List.tail_nil] at run
      cases rebuild : rehashLoop (hashtablePut fuel) table.entries
          (.zeroed (2 * table.tableSize)) [] with
      | error _ => simp [rebuild, bind, Except.bind] at run
      | ok result =>
          obtain ⟨status₁, table₁, allocs₁⟩ := result
          obtain ⟨rfl, rfl, moves⟩ := rehashLoop_moves sound rebuild
          have fine : ¬ hashtableOk = -hashtableErr := by decide
          simp only [rebuild, bind, Except.bind, if_neg fine] at run
          exact .inr ⟨rfl, table₁, moves, run⟩

/-- To show that every returning put has the effect `R`, show it of a placement,
and of a rebuild by moves with that effect followed by a put with it. -/
theorem hashtablePut_rule
    (placed : ∀ {table key i} (v : V), hashtableHash table key = some i →
      R table (key, v) (table.place i key v))
    (grown : ∀ {table table₁ table' e}, hashtableHash table e.1 = none →
      Moves R table.contents (.zeroed (2 * table.tableSize)) table₁ →
      R table₁ e table' → R table e table')
    {fuel : Nat} {table table' : HashTable V} {key : CString} {val : V} {status : Int}
    {allocs : List Bool} (run : hashtablePut fuel table key val [] = .ok (status, table', allocs)) :
    status = hashtableOk ∧ allocs = [] ∧ R table (key, val) table' := by
  induction fuel generalizing table key val status table' allocs with
  | zero => cases run
  | succ fuel ih =>
      have sound : ∀ t k v s t' as, hashtablePut fuel t k v [] = .ok (s, t', as) →
          s = hashtableOk ∧ as = [] ∧ R t (k, v) t' := fun _ _ _ _ _ _ put => ih put
      rcases hashtablePut_round sound run with
        ⟨i, hash, rfl, done, left⟩ | ⟨hash, table₁, moves, again⟩
      · exact ⟨done, left, placed val hash⟩
      · obtain ⟨done, left, last⟩ := ih again
        exact ⟨done, left, grown hash moves last⟩

theorem PutReturns.rule
    (placed : ∀ {table key i} (v : V), hashtableHash table key = some i →
      R table (key, v) (table.place i key v))
    (grown : ∀ {table table₁ table' e}, hashtableHash table e.1 = none →
      Moves R table.contents (.zeroed (2 * table.tableSize)) table₁ →
      R table₁ e table' → R table e table')
    {table table' : HashTable V} {key : CString} {val : V}
    (returns : PutReturns table key val table') : R table (key, val) table' := by
  obtain ⟨fuel, status, run⟩ := returns
  exact (hashtablePut_rule placed grown run).2.2

end Rule

/-- How a put returns: by placing the entry, or after a rebuild whose moves are
themselves puts that return. -/
theorem PutReturns.cases {table table' : HashTable V} {key : CString} {val : V}
    (returns : PutReturns table key val table') :
    (∃ i, hashtableHash table key = some i ∧ table' = table.place i key val) ∨
      hashtableHash table key = none ∧
        ∃ table₁, Moves (fun t e t' => PutReturns t e.1 e.2 t') table.contents
          (.zeroed (2 * table.tableSize)) table₁ ∧ PutReturns table₁ key val table' := by
  obtain ⟨fuel, status, run⟩ := returns
  cases fuel with
  | zero => cases run
  | succ fuel =>
      have sound (t : HashTable V) (k : CString) (v : V) (s : Int) (t' : HashTable V)
          (as : List Bool) (put : hashtablePut fuel t k v [] = .ok (s, t', as)) :
          s = hashtableOk ∧ as = [] ∧ PutReturns t k v t' := by
        obtain ⟨done, left, _⟩ := hashtablePut_rule (R := fun _ _ _ => True)
          (fun _ _ => trivial) (fun _ _ _ => trivial) put
        exact ⟨done, left, fuel, s, left ▸ put⟩
      rcases hashtablePut_round (R := fun t e t' => PutReturns t e.1 e.2 t') sound run with
        ⟨i, hash, placed, _⟩ | ⟨hash, table₁, moves, again⟩
      · exact .inl ⟨i, hash, placed⟩
      · exact .inr ⟨hash, table₁, moves, fuel, status, again⟩

/-! ## What holds of every table -/

/-- Every entry lies on the path of its key, and `size` counts the entries. -/
structure Sound (table : HashTable V) : Prop where
  positive : 0 < table.tableSize
  home : ∀ i k v, table.at? i = some (k, v) → i ∈ table.path k
  counted : table.size = table.contents.length

theorem sound_zeroed {n : Nat} (positive : 0 < n) : Sound (.zeroed n : HashTable V) where
  positive := by simpa
  home := by simp
  counted := by simp [HashTable.zeroed, HashTable.contents, List.reduceOption]

namespace Sound

variable {table : HashTable V} {key : CString} {i : Nat}

/-- The place a hash finds is inside the table. -/
theorem hash_lt (sound : Sound table) (hash : hashtableHash table key = some i) :
    i < table.tableSize := by
  obtain ⟨_, _, before, after, path, _⟩ := hashtableHash_eq_some_iff.mp hash
  have on : i ∈ table.path key := by simp [path]
  exact HashTable.lt_of_mem_path sound.positive on

theorem place (sound : Sound table) (v : V) (hash : hashtableHash table key = some i) :
    Sound (table.place i key v) := by
  have within := sound.hash_lt hash
  obtain ⟨_, _, before, after, path, _⟩ := hashtableHash_eq_some_iff.mp hash
  refine ⟨by simpa using sound.positive, fun j k w held => ?_, ?_⟩
  · rw [HashTable.at?_place within] at held
    rw [HashTable.path_place]
    split at held
    · rename_i here
      cases held
      simp [here, path]
    · exact sound.home j k w held
  · refine Eq.trans ?_ (length_reduceOption_set_some within _).symm
    simp only [HashTable.place, HashTable.at?, sound.counted, HashTable.contents]

theorem clear (sound : Sound table) {e : CString × V} (held : table.at? i = some e) :
    Sound (table.clear i) := by
  have within := HashTable.lt_of_at? held
  refine ⟨by simpa using sound.positive, fun j k w kept => ?_, ?_⟩
  · rw [HashTable.at?_clear within] at kept
    rw [HashTable.path_clear]
    split at kept
    · cases kept
    · exact sound.home j k w kept
  · have count := length_reduceOption_set_none held
    have size := sound.counted
    simp only [HashTable.contents] at size
    simp only [HashTable.clear, HashTable.contents]
    omega

end Sound

/-- A sound table grown from `n` slots by doubling, with all its keys in `keys`. -/
structure Keys (keys : Set CString) (n : Nat) (table : HashTable V) : Prop where
  sound : Sound table
  grown : ∃ e, table.tableSize = n * 2 ^ e
  within : ∀ i q v, table.at? i = some (q, v) → q ∈ keys

namespace Keys

variable {keys : Set CString} {n : Nat} {table table' : HashTable V} {key : CString} {i : Nat}

theorem zeroed {m : Nat} (positive : 0 < m) (grown : ∃ e, m = n * 2 ^ e) :
    Keys keys n (.zeroed m : HashTable V) where
  sound := sound_zeroed positive
  grown := by simpa using grown
  within := by simp

/-- The table a rebuild starts from. -/
theorem doubled (known : Keys keys n table) :
    Keys keys n (.zeroed (2 * table.tableSize) : HashTable V) := by
  obtain ⟨e, size⟩ := known.grown
  have positive := known.sound.positive
  exact .zeroed (by omega) ⟨e + 1, by rw [size, pow_succ]; ring⟩

theorem contents (known : Keys keys n table) : ∀ e ∈ table.contents, e.1 ∈ keys := by
  intro e member
  obtain ⟨i, held⟩ := HashTable.mem_contents.mp member
  exact known.within i e.1 e.2 held

theorem place (known : Keys keys n table) (member : key ∈ keys) (v : V)
    (hash : hashtableHash table key = some i) : Keys keys n (table.place i key v) where
  sound := known.sound.place v hash
  grown := by simpa using known.grown
  within := by
    intro j s w held
    rw [HashTable.at?_place (known.sound.hash_lt hash)] at held
    split at held
    · cases held
      exact member
    · exact known.within j s w held

theorem clear (known : Keys keys n table) {e : CString × V} (held : table.at? i = some e) :
    Keys keys n (table.clear i) where
  sound := known.sound.clear held
  grown := by simpa using known.grown
  within := by
    intro j q v kept
    rw [HashTable.at?_clear (HashTable.lt_of_at? held)] at kept
    split at kept
    · cases kept
    · exact known.within j q v kept

/-- A returning put adds no key but its own. -/
theorem put {v : V} (known : Keys keys n table) (member : key ∈ keys)
    (returns : PutReturns table key v table') : Keys keys n table' := by
  refine PutReturns.rule (R := fun t e t' => e.1 ∈ keys → Keys keys n t → Keys keys n t')
    (fun v hash member known => known.place member v hash) ?_ returns member known
  intro t t₁ t' e _ moves again member known
  exact again member (moves.invariant known.doubled fun e inside _ _ known' step =>
    step (known.contents e inside) known')

theorem del (known : Keys keys n table) : Keys keys n (hashtableDel table key).2.1 := by
  unfold hashtableDel
  cases located : hashtableLocate table key with
  | none => exact known
  | some i =>
      obtain ⟨⟨k, v, held, _⟩, _⟩ := hashtableLocate_eq_some_iff.mp located
      exact known.clear held

end Keys

theorem Sound.put {table table' : HashTable V} {key : CString} {v : V} (sound : Sound table)
    (returns : PutReturns table key v table') : Sound table' := by
  have known : Keys Set.univ table.tableSize table :=
    ⟨sound, ⟨0, by simp⟩, fun _ _ _ _ => Set.mem_univ _⟩
  exact (known.put (Set.mem_univ _) returns).sound

/-! ## Runs of the table -/

/-- A call on the table. -/
inductive TableOp (V : Type*)
  | put (key : CString) (val : V)
  | get (key : CString)
  | del (key : CString)

def TableOp.key : TableOp V → CString
  | put key _ | get key | del key => key

/-- A call that returns, with every allocation succeeding. -/
def TableStep (table : HashTable V) : TableOp V → HashTable V → Prop
  | .put key val, table' => PutReturns table key val table'
  | .get _, table' => table' = table
  | .del key, table' => table' = (hashtableDel table key).2.1

theorem keys_hashtableCreate (keys : Set CString) :
    Keys keys initialSize (hashtableCreate : HashTable V) :=
  .zeroed (by decide) ⟨0, rfl⟩

theorem Keys.step {keys : Set CString} {n : Nat} {table table' : HashTable V} {op : TableOp V}
    (known : Keys keys n table) (member : op.key ∈ keys) (step : TableStep table op table') :
    Keys keys n table' := by
  cases op with
  | put key val => exact known.put member step
  | get key =>
      cases step
      exact known
  | del key =>
      cases step
      exact known.del

end SolBroker
