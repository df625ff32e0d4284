import Mathlib
import SolBroker.Lib.Refinement
import SolBroker.Memory
import SolBroker.Trie.Node

/-!
# The trie as a finite map

The public operations of trie.c against a finite map from strings. `Represents` ties
a trie to the map it stands for; every operation keeps the tie and answers as the map
does, so no sequence of operations can tell the two apart. The empty key is an
ordinary key of the map: its data lives on the root.
-/

namespace SolBroker

open Refinement

variable {α : Type*}

structure Trie (α : Type*) where
  root : TrieNode α
  size : Nat

/-- `trie_init`. -/
def trieInit : Trie α where
  root := trieCreateNode 32
  size := 0

def trieSize (trie : Trie α) : Nat := trie.size

/-- The bytes of a key as the `char` values that `*key` reads. -/
def CString.chars (key : CString) : List Int8 :=
  key.bytes.map UInt8.toInt8

def trieInsert (trie : Trie α) (key : CString) (data : α) : Trie α :=
  let (root, size) := trieNodeInsert data trie.root key.chars trie.size
  { root, size }

/-- `trie_node_search`, with the flag as `isSome`. -/
def trieFind (trie : Trie α) (key : CString) : Option α :=
  match trieNodeFind trie.root key.chars with
  | some cursor => cursor.data
  | none => none

def trieDelete (trie : Trie α) (key : CString) : Trie α × Bool :=
  if strlen key > 0 then
    let deleted := trieNodeRecursiveDelete trie.root key.chars trie.size
    ({ root := deleted.node, size := deleted.size }, deleted.found)
  else (trie, false)

theorem CString.chars_injective : Function.Injective CString.chars := by
  intro s t same
  refine CString.ext (List.map_injective_iff.mpr (fun a b h => ?_) same)
  simpa using congrArg Int8.toUInt8 h

theorem trieFind_eq_lookup (trie : Trie α) (key : CString) :
    trieFind trie key = trie.root.lookup key.chars := by
  rw [trieFind, TrieNode.lookup]
  cases trieNodeFind trie.root key.chars <;> rfl

/-- The finite map a trie stands for. -/
abbrev TopicMap (α : Type*) := AList fun _ : CString => α

/-- A trie in order, with the contents and the size of a finite map. -/
structure Represents (trie : Trie α) (m : TopicMap α) : Prop where
  ordered : Ordered trie.root
  find : ∀ key, trieFind trie key = m.lookup key
  size : trieSize trie = m.keys.length

theorem represents_trieInit : Represents (trieInit : Trie α) ∅ where
  ordered := ordered_trieCreateNode _
  find := fun key => by
    rw [trieFind_eq_lookup, trieInit, lookup_trieCreateNode, AList.lookup_empty]
  size := rfl

namespace Represents

variable {trie : Trie α} {m : TopicMap α} (represents : Represents trie m)
include represents

theorem insert (key : CString) (data : α) :
    Represents (trieInsert trie key data) (m.insert key data) := by
  have inserts := trieNodeInsert_inserts data represents.ordered key.chars trie.size
  have present : trie.root.lookup key.chars = m.lookup key :=
    (trieFind_eq_lookup trie key).symm.trans (represents.find key)
  refine ⟨inserts.ordered, fun other => ?_, ?_⟩
  · rw [trieFind_eq_lookup]
    refine (inserts.lookup other.chars).trans ?_
    by_cases same : other = key
    · rw [same, if_pos rfl, AList.lookup_insert]
    · rw [if_neg fun h => same (CString.chars_injective h), AList.lookup_insert_ne same,
        ← represents.find, trieFind_eq_lookup]
  · refine inserts.size.trans ?_
    have size : trie.size = m.keys.length := represents.size
    rw [present, size, AList.keys_insert, List.length_cons, List.length_erase]
    by_cases held : key ∈ m
    · have positive := List.length_pos_of_mem (AList.mem_keys.mp held)
      rw [if_neg (by simpa [AList.lookup_eq_none] using held), if_pos (AList.mem_keys.mp held)]
      omega
    · rw [if_pos (by simpa [AList.lookup_eq_none] using held),
        if_neg fun member => held (AList.mem_keys.mpr member)]

theorem delete {key : CString} (nonempty : key.bytes ≠ []) :
    Represents (trieDelete trie key).1 (m.erase key) ∧
      (trieDelete trie key).2 = decide (key ∈ m) := by
  have deletes := trieNodeRecursiveDelete_deletes represents.ordered key.chars trie.size
  have present : trie.root.lookup key.chars = m.lookup key :=
    (trieFind_eq_lookup trie key).symm.trans (represents.find key)
  have positive : strlen key > 0 := List.length_pos_iff.mpr nonempty
  have run : trieDelete trie key =
      ({ root := (trieNodeRecursiveDelete trie.root key.chars trie.size).node
         size := (trieNodeRecursiveDelete trie.root key.chars trie.size).size },
        (trieNodeRecursiveDelete trie.root key.chars trie.size).found) := by
    rw [trieDelete, if_pos positive]
  rw [run]
  refine ⟨⟨deletes.ordered, fun other => ?_, ?_⟩, ?_⟩
  · rw [trieFind_eq_lookup]
    refine (deletes.lookup other.chars).trans ?_
    by_cases same : other = key
    · rw [same, if_pos rfl, AList.lookup_erase]
    · rw [if_neg fun h => same (CString.chars_injective h), AList.lookup_erase_ne same,
        ← represents.find, trieFind_eq_lookup]
  · refine deletes.size.trans ?_
    have size : trie.size = m.keys.length := represents.size
    rw [present, size, AList.keys_erase, List.length_erase]
    by_cases held : key ∈ m
    · rw [if_pos (AList.lookup_isSome.mpr held), if_pos (AList.mem_keys.mp held)]
    · rw [if_neg (mt AList.lookup_isSome.mp held),
        if_neg fun member => held (AList.mem_keys.mpr member)]
  · rw [deletes.found, present, Bool.eq_iff_iff, AList.lookup_isSome, decide_eq_true_iff]

end Represents

/-! ## Sequences of operations -/

/-- A call on the trie. Data is never NULL, and `trie_delete` is given a key with a
character in it. -/
inductive TrieOp (α : Type*)
  | insert (key : CString) (data : α)
  | find (key : CString)
  | delete (key : CString) (nonempty : key.bytes ≠ [])

/-- What a call reports: the data found or stored, or the flag of a deletion. -/
inductive TrieAnswer (α : Type*)
  | data (found : Option α)
  | deleted (flag : Bool)

def TrieOp.key : TrieOp α → CString
  | insert key _ | find key | delete key _ => key

/-- A call of the program. -/
def TrieOp.apply (trie : Trie α) : TrieOp α → Trie α × TrieAnswer α
  | insert key data => (trieInsert trie key data, .data (some data))
  | find key => (trie, .data (trieFind trie key))
  | delete key _ => ((trieDelete trie key).1, .deleted (trieDelete trie key).2)

/-- The same call on a finite map. -/
def TrieOp.spec (m : TopicMap α) : TrieOp α → TopicMap α × TrieAnswer α
  | insert key data => (m.insert key data, .data (some data))
  | find key => (m, .data (m.lookup key))
  | delete key _ => (m.erase key, .deleted (decide (key ∈ m)))

/-- The program simulates the map, call by call. -/
theorem trie_simulates :
    Simulates Represents (TrieOp.apply (α := α)) TrieOp.spec := by
  intro trie m op represents
  cases op with
  | insert key data => exact ⟨rfl, represents.insert key data⟩
  | find key => exact ⟨congrArg TrieAnswer.data (represents.find key), represents⟩
  | delete key nonempty =>
      obtain ⟨kept, answer⟩ := represents.delete nonempty
      exact ⟨congrArg TrieAnswer.deleted answer, kept⟩

/-- A call on one key leaves the others alone in the map. -/
theorem TrieOp.spec_lookup_ne (m : TopicMap α) (op : TrieOp α) {key : CString}
    (other : key ≠ op.key) : (op.spec m).1.lookup key = m.lookup key := by
  cases op with
  | insert key' data => exact AList.lookup_insert_ne other
  | find => rfl
  | delete key' => exact AList.lookup_erase_ne other

/-- After any sequence of calls on a fresh trie: every call answered as the finite
map does, every key is found with exactly the data the map has for it, the size is
the number of keys, and one more call changes what is found for its own key only. -/
theorem trie_isFiniteMap (ops : List (TrieOp α)) :
    let program := exec TrieOp.apply trieInit ops
    let map := exec TrieOp.spec (∅ : TopicMap α) ops
    program.2 = map.2 ∧ (∀ key, trieFind program.1 key = map.1.lookup key) ∧
      trieSize program.1 = map.1.keys.length ∧
      ∀ op : TrieOp α, ∀ key ≠ op.key,
        trieFind (op.apply program.1).1 key = trieFind program.1 key := by
  intro program map
  obtain ⟨answers, represents⟩ :=
    exec_refines trie_simulates ops (represents_trieInit (α := α))
  refine ⟨answers, represents.find, represents.size, fun op key other => ?_⟩
  obtain ⟨_, next⟩ := trie_simulates program.1 map.1 op represents
  rw [next.find, op.spec_lookup_ne map.1 other]
  exact (represents.find key).symm

end SolBroker
