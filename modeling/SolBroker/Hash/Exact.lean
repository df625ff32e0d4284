import Mathlib
import SolBroker.Lib.Run
import SolBroker.Hash.Entry

/-!
# The table under its callers' discipline

Callers put a key only when it is not present, and the keys they use are no
case-insensitive prefixes of one another. The table then is a finite map through
any number of rebuilds: each key has the entry the map gives it, no second one, and
there are no other entries.
-/

namespace SolBroker

open Transition

variable {V : Type*}

/-- No key of the set is a case-insensitive prefix of another. -/
def PrefixFree (keys : Set CString) : Prop :=
  ∀ a ∈ keys, ∀ b ∈ keys, a.CasePrefix b → a = b

theorem PrefixFree.clear {keys : Set CString} (prefixFree : PrefixFree keys) {a b : CString}
    (memberA : a ∈ keys) (memberB : b ∈ keys) (n : Nat) : Clear n a b :=
  fun _ clash => clash.1 (prefixFree a memberA b memberB clash.2.1)

theorem Keys.unclashed {keys : Set CString} {n : Nat} {table : HashTable V}
    (known : Keys keys n table) (prefixFree : PrefixFree keys) {k : CString} (member : k ∈ keys) :
    Unclashed table k :=
  fun i q v held => prefixFree.clear member (known.within i q v held) _

/-- The finite map a table stands for. -/
abbrev KeyMap (V : Type*) := AList fun _ : CString => V

/-- The effect of a call on a finite map. -/
def TableOp.onMap (m : KeyMap V) : TableOp V → KeyMap V
  | put key val => m.insert key val
  | get _ => m
  | del key => m.erase key

/-- A call that returns, on one of the given keys, with a put only of a key that
does not exist. -/
def DisciplinedStep (keys : Set CString) (table : HashTable V) (op : TableOp V)
    (table' : HashTable V) : Prop :=
  op.key ∈ keys ∧ (∀ key val, op = .put key val → hashtableExists table key = false) ∧
    TableStep table op table'

/-- The table has exactly the entries of the map, each once. -/
structure Represented (keys : Set CString) (table : HashTable V) (m : KeyMap V) : Prop where
  known : Keys keys initialSize table
  single : ∀ k ∈ keys, Single table k (m.lookup k)
  within : ∀ k ∈ m, k ∈ keys

theorem represented_hashtableCreate (keys : Set CString) :
    Represented keys (hashtableCreate : HashTable V) ∅ where
  known := keys_hashtableCreate keys
  single := fun k _ => by
    rw [AList.lookup_empty]
    exact single_zeroed _ k
  within := by simp

namespace Represented

variable {keys : Set CString} {table table' : HashTable V} {m : KeyMap V}

theorem get (rep : Represented keys table m) (prefixFree : PrefixFree keys) {k : CString}
    (member : k ∈ keys) : hashtableGet table k = m.lookup k :=
  hashtableGet_eq rep.known.sound (rep.single k member) (rep.known.unclashed prefixFree member)

theorem put (rep : Represented keys table m) (prefixFree : PrefixFree keys) {key : CString}
    {val : V} (member : key ∈ keys) (absent : hashtableExists table key = false)
    (returns : PutReturns table key val table') :
    Represented keys table' (m.insert key val) where
  known := rep.known.put member returns
  single := by
    intro k inside
    have free : m.lookup key = none := by
      simpa [hashtableExists, rep.get prefixFree member] using absent
    have single := (rep.single k inside).put (fun q known => prefixFree.clear inside known _)
      rep.known returns member fun self => self ▸ free
    by_cases self : key = k
    · subst self
      rw [AList.lookup_insert]
      rwa [if_pos rfl] at single
    · rw [AList.lookup_insert_ne (Ne.symm self)]
      rwa [if_neg self] at single
  within := by
    intro k inside
    rcases (AList.mem_insert _).mp inside with rfl | old
    · exact member
    · exact rep.within k old

theorem del (rep : Represented keys table m) (prefixFree : PrefixFree keys) {key : CString}
    (member : key ∈ keys) :
    Represented keys (hashtableDel table key).2.1 (m.erase key) := by
  refine ⟨rep.known.del, fun k inside => ?_, fun k inside => ?_⟩
  · rcases hashtableLocate_single rep.known.sound (rep.single key member)
      (rep.known.unclashed prefixFree member) with ⟨located, none_⟩ | ⟨i, v, located, held, some_⟩
    · have same : (m.erase key).lookup k = m.lookup k := by
        by_cases self : k = key
        · rw [self, AList.lookup_erase, none_]
        · exact AList.lookup_erase_ne self
      simpa only [hashtableDel, located, same] using rep.single k inside
    · simp only [hashtableDel, located]
      by_cases self : k = key
      · rw [self, AList.lookup_erase]
        exact (rep.single key member).clear_self held
      · rw [AList.lookup_erase_ne self]
        exact (rep.single k inside).clear_other held (Ne.symm self)
  · exact rep.within k (AList.mem_erase.mp inside).2

theorem step (rep : Represented keys table m) (prefixFree : PrefixFree keys) {op : TableOp V}
    (step : DisciplinedStep keys table op table') : Represented keys table' (op.onMap m) := by
  obtain ⟨member, disciplined, step⟩ := step
  cases op with
  | put key val => exact rep.put prefixFree member (disciplined key val rfl) step
  | get key =>
      cases step
      exact rep
  | del key =>
      cases step
      exact rep.del prefixFree member

/-- As many entries as the map has keys. -/
theorem size (rep : Represented keys table m) : table.size = m.keys.length := by
  have apart : (table.contents.map Prod.fst).Nodup := by
    apply Probing.nodup_reduceOption
    intro i j a b atI atJ same
    obtain ⟨k, v⟩ := a
    obtain ⟨k', w⟩ := b
    obtain rfl : k = k' := same
    exact (rep.single k (rep.known.within i k v atI)).unique i j v w atI atJ
  have sameKeys : (table.contents.map Prod.fst).Perm m.keys := by
    rw [List.perm_ext_iff_of_nodup apart m.keys_nodup]
    intro k
    rw [← AList.mem_keys, ← AList.lookup_isSome, Option.isSome_iff_exists, List.mem_map]
    constructor
    · rintro ⟨⟨k, v⟩, stored, rfl⟩
      obtain ⟨i, held⟩ := HashTable.mem_contents.mp stored
      exact ⟨v, ((rep.single k (rep.known.within i k v held)).held v).mpr ⟨i, held⟩⟩
    · rintro ⟨v, found⟩
      have inside := rep.within k (AList.lookup_isSome.mp (by simp [found]))
      obtain ⟨i, held⟩ := ((rep.single k inside).held v).mp found
      exact ⟨(k, v), HashTable.mem_contents.mpr ⟨i, held⟩, rfl⟩
  rw [rep.known.sound.counted, ← sameKeys.length_eq, List.length_map]

end Represented

/-- Wherever a disciplined run has come, a get answers as the finite map of its calls
does, no key has a second entry, and the size is the number of keys of the map. -/
theorem disciplined_isFiniteMap {keys : Set CString} (prefixFree : PrefixFree keys)
    {tr : List (HashTable V × TableOp V)} {table : HashTable V}
    (run : Run (DisciplinedStep keys) hashtableCreate tr table) :
    let m := (tr.map Prod.snd).foldl TableOp.onMap ∅
    (∀ k ∈ keys, hashtableGet table k = m.lookup k) ∧
      (∀ k i j v w, table.at? i = some (k, v) → table.at? j = some (k, w) → i = j) ∧
      hashtableSize table = m.keys.length := by
  intro m
  have kept (t : HashTable V) (m : KeyMap V) (op : TableOp V) (t' : HashTable V)
      (rep : Represented keys t m) (step : DisciplinedStep keys t op t') :
      Represented keys t' (op.onMap m) := rep.step prefixFree step
  have rep : Represented keys table m := run.refines (represented_hashtableCreate keys) kept
  refine ⟨fun k member => rep.get prefixFree member, ?_, rep.size⟩
  intro k i j v w atI atJ
  exact (rep.single k (rep.known.within i k v atI)).unique i j v w atI atJ

def clientA : CString := .letter 97 (by decide)
def clientB : CString := .letter 98 (by decide)
def clientC : CString := .letter 99 (by decide)

def twoClients : HashTable Nat := (hashtableCreate.place 2 clientA 1).place 3 clientB 2

/-- The table after `c` came as the third client and doubled it. -/
def threeClients : HashTable Nat :=
  (((HashTable.zeroed 8).place 2 clientA 1).place 7 clientB 2).place 0 clientC 3

def threeKeys : Set CString := { k | k ∈ [clientA, clientB, clientC] }

theorem threeKeys_prefixFree : PrefixFree threeKeys := by
  have apart : ∀ a ∈ [clientA, clientB, clientC], ∀ b ∈ [clientA, clientB, clientC],
      a.CasePrefix b → a = b := by decide
  exact apart

theorem threeClients_run : ∃ tr, Run (DisciplinedStep threeKeys) hashtableCreate tr threeClients ∧
    tr.map Prod.snd = [.put clientA 1, .put clientB 2, .put clientC 3] := by
  have inside : ∀ k ∈ [clientA, clientB, clientC], k ∈ threeKeys := fun _ member => member
  have first : DisciplinedStep threeKeys hashtableCreate (.put clientA 1)
      (hashtableCreate.place 2 clientA 1) :=
    ⟨inside _ (by decide), by rintro _ _ ⟨⟩; decide, 1, 0, by decide⟩
  have second : DisciplinedStep threeKeys (hashtableCreate.place 2 clientA 1) (.put clientB 2)
      twoClients :=
    ⟨inside _ (by decide), by rintro _ _ ⟨⟩; decide, 1, 0, by decide⟩
  have third : DisciplinedStep threeKeys twoClients (.put clientC 3) threeClients :=
    ⟨inside _ (by decide), by rintro _ _ ⟨⟩; decide, 2, 0, by decide⟩
  exact ⟨_, .snoc (.snoc (.snoc .nil first) second) third, rfl⟩

/-- `a` is still found after `c` came and `b` left. -/
theorem threeClients_exact :
    hashtableGet (hashtableDel threeClients clientB).2.1 clientA = some 1 := by
  obtain ⟨tr, run, calls⟩ := threeClients_run
  have left : DisciplinedStep threeKeys threeClients (.del clientB)
      (hashtableDel threeClients clientB).2.1 :=
    ⟨show clientB ∈ [clientA, clientB, clientC] by decide, nofun, rfl⟩
  have found := (disciplined_isFiniteMap threeKeys_prefixFree (run.snoc left)).1 clientA
    (show clientA ∈ [clientA, clientB, clientC] by decide)
  rw [List.map_append, calls] at found
  exact found

end SolBroker
