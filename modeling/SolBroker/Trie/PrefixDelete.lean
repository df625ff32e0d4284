import Mathlib
import SolBroker.Trie.Prefix

/-!
# Deleting the keys below a prefix

`trie_prefix_delete` frees the subtrees of the node the prefix leads to, deletes the
prefix as a key, and clears the list of children. The freed subtrees stay in the list
until then, so the deletion takes the node for an inner one and leaves it in place; a
later call finds it with neither data nor children.
-/

namespace SolBroker

open TrieNode

variable {α : Type*}

/-- `list_clear` on the children of a node. -/
def clearChildren : TrieNode α → TrieNode α
  | node chr children data => node chr (listClear children) data

/-- The trie after a change of the node a key leads to, which the code makes through its
pointer. -/
def trieNodeModify (change : TrieNode α → TrieNode α) : TrieNode α → List Int8 → TrieNode α
  | root, [] => change root
  | node chr children data, c :: key =>
      match linearSearch children c.toInt with
      | none => node chr children data
      | some (before, child, after) =>
          let nodes := before ++ trieNodeModify change child key :: after
          node chr { children with nodes } data

/-- `trie_prefix_delete`. Of the children that have been freed, `trie_delete` reads no more
than how many they are. -/
def triePrefixDelete (trie : Trie α) (pfx : CString) : Trie α :=
  match trieNodeFind trie.root pfx.chars with
  | none => trie
  | some cursor =>
      if cursor.children.len = 0 then (trieDelete trie pfx).1
      else
        let size := trieNodesFree cursor.children.nodes trie.size
        let trie := (trieDelete { trie with size } pfx).1
        { trie with root := trieNodeModify clearChildren trie.root pfx.chars }

/-! ## The keys below a node -/

mutual

/-- The keys with data, read from the node on. -/
def trieNodeKeys : TrieNode α → List (List Int8)
  | node _ ⟨nodes, _⟩ data => (if data.isSome then [[]] else []) ++ trieNodesKeys nodes

def trieNodesKeys : List (TrieNode α) → List (List Int8)
  | [] => []
  | cur :: next => (trieNodeKeys cur).map (cur.chr :: ·) ++ trieNodesKeys next

end

mutual

/-- Freeing a node takes one off the size for every key below it. -/
theorem trieNodeFree_eq : ∀ (n : TrieNode α) (size : Nat),
    trieNodeFree n size = size - (trieNodeKeys n).length
  | node chr ⟨nodes, len⟩ data, size => by
      rw [trieNodeFree, trieNodeKeys, releaseData_eq, trieNodesFree_eq nodes size,
        List.length_append]
      cases data with
      | none => simp
      | some d =>
          simp only [Option.isSome_some, if_true, List.length_singleton]
          omega

theorem trieNodesFree_eq : ∀ (nodes : List (TrieNode α)) (size : Nat),
    trieNodesFree nodes size = size - (trieNodesKeys nodes).length
  | [], size => rfl
  | cur :: next, size => by
      rw [trieNodesFree, trieNodesKeys, trieNodeFree_eq cur size, trieNodesFree_eq next,
        List.length_append, List.length_map]
      omega

end

theorem mem_trieNodesKeys {nodes : List (TrieNode α)} {key : List Int8} :
    key ∈ trieNodesKeys nodes ↔ ∃ n ∈ nodes, ∃ rest ∈ trieNodeKeys n, key = n.chr :: rest := by
  induction nodes with
  | nil => simp [trieNodesKeys]
  | cons cur next ih =>
      rw [trieNodesKeys, List.mem_append, ih, List.mem_map]
      constructor
      · rintro (⟨rest, below, rfl⟩ | ⟨n, member, rest, below, rfl⟩)
        · exact ⟨cur, List.mem_cons_self .., rest, below, rfl⟩
        · exact ⟨n, List.mem_cons_of_mem _ member, rest, below, rfl⟩
      · rintro ⟨n, member, rest, below, rfl⟩
        obtain rfl | later := List.mem_cons.mp member
        · exact .inl ⟨rest, below, rfl⟩
        · exact .inr ⟨n, later, rest, below, rfl⟩

theorem mem_trieNodeKeys {n : TrieNode α} (ordered : Ordered n) (key : List Int8) :
    key ∈ trieNodeKeys n ↔ (n.lookup key).isSome := by
  induction key generalizing n with
  | nil =>
      obtain ⟨chr, ⟨nodes, len⟩, data⟩ := n
      have inner : [] ∉ trieNodesKeys nodes := by simp [mem_trieNodesKeys]
      rw [trieNodeKeys, List.mem_append, or_iff_left inner]
      cases data <;> simp [TrieNode.data]
  | cons c key ih =>
      have whole := ordered
      obtain ⟨counted, ascending, below⟩ := ordered
      rename_i chr children data
      obtain ⟨nodes, len⟩ := children
      have distinct := distinct_of_ascending ascending
      rw [lookup_cons whole, trieNodeKeys, List.mem_append, children_node]
      have own : c :: key ∉ (if data.isSome then [[]] else [] : List (List Int8)) := by
        split <;> simp
      rw [or_iff_right own, mem_trieNodesKeys]
      constructor
      · rintro ⟨n, member, rest, inner, same⟩
        obtain ⟨rfl, rfl⟩ := List.cons.inj same
        rw [(Keyed.find?_eq_some_iff distinct).mpr ⟨member, rfl⟩]
        exact (ih (below n member)).mp inner
      · intro found
        cases hit : Keyed.find? TrieNode.chr c nodes with
        | none => simp [hit] at found
        | some n =>
            obtain ⟨member, rfl⟩ := (Keyed.find?_eq_some_iff distinct).mp hit
            rw [hit] at found
            exact ⟨n, member, key, (ih (below n member)).mpr found, rfl⟩

theorem nodup_trieNodesKeys {nodes : List (TrieNode α)} (distinct : Keyed.Distinct chr nodes)
    (below : ∀ n ∈ nodes, (trieNodeKeys n).Nodup) : (trieNodesKeys nodes).Nodup := by
  induction distinct with
  | nil => exact .nil
  | @cons cur next fresh _ ih =>
      rw [trieNodesKeys, List.nodup_append]
      refine ⟨(below cur (List.mem_cons_self ..)).map (List.cons_injective), ?_, ?_⟩
      · exact ih fun n member => below n (List.mem_cons_of_mem _ member)
      · intro key here other later same
        subst same
        obtain ⟨rest, _, rfl⟩ := List.mem_map.mp here
        obtain ⟨n, member, rest', _, same⟩ := mem_trieNodesKeys.mp later
        exact fresh n member (List.cons.inj same).1

theorem nodup_trieNodeKeys {n : TrieNode α} (ordered : Ordered n) : (trieNodeKeys n).Nodup := by
  induction ordered with
  | @intro chr children data _ ascending _ ih =>
      obtain ⟨nodes, len⟩ := children
      have inner := nodup_trieNodesKeys (distinct_of_ascending ascending) ih
      rw [trieNodeKeys]
      cases data with
      | none => exact inner
      | some d =>
          refine List.nodup_cons.mpr ⟨?_, inner⟩
          simp [mem_trieNodesKeys]

/-! ## Clearing the children -/

/-- What clearing the children of the node at `pfx` is for. -/
structure Clears (root : TrieNode α) (pfx : List Int8) (result : TrieNode α) : Prop where
  ordered : Ordered result
  chr : result.chr = root.chr
  lookup : ∀ other, result.lookup other =
    if pfx <+: other ∧ other ≠ pfx then none else root.lookup other

theorem trieNodeModify_clears {root : TrieNode α} (ordered : Ordered root) (pfx : List Int8) :
    Clears root pfx (trieNodeModify clearChildren root pfx) := by
  induction pfx generalizing root with
  | nil =>
      obtain ⟨chr, children, data⟩ := root
      have ⟨counted, _, _⟩ := ordered
      have cleared : Ordered (node chr (listClear children) data) := by
        refine .intro (counted_listClear counted) ?_ ?_
        · rw [nodes_listClear]
          exact .nil
        · simp
      refine ⟨cleared, rfl, fun other => ?_⟩
      cases other with
      | nil => rfl
      | cons a other =>
          rw [if_pos ⟨List.nil_prefix, List.cons_ne_nil a other⟩]
          show (node chr (listClear children) data).lookup (a :: other) = none
          simp [lookup_cons cleared]
  | cons c pfx ih =>
      obtain ⟨chr, children, data⟩ := root
      have ⟨counted, ascending, below⟩ := ordered
      have within (a : Int8) (other : List Int8) :
          (c :: pfx <+: a :: other ∧ a :: other ≠ c :: pfx) ↔
            a = c ∧ pfx <+: other ∧ other ≠ pfx := by
        rw [List.cons_prefix_cons]
        constructor
        · rintro ⟨⟨rfl, begins⟩, differs⟩
          exact ⟨rfl, begins, fun same => differs (by rw [same])⟩
        · rintro ⟨rfl, begins, differs⟩
          exact ⟨⟨rfl, begins⟩, fun same => differs (List.cons.inj same).2⟩
      have own : ¬ (c :: pfx <+: [] ∧ [] ≠ c :: pfx) := fun both => by simp at both
      rcases linearSearch_cases counted ascending c with
        ⟨missing, absent⟩ | ⟨before, child, after, found, split, rfl, present⟩
      · simp only [trieNodeModify, missing]
        refine ⟨ordered, rfl, fun other => ?_⟩
        split
        · rename_i inside
          cases other with
          | nil => exact absurd inside own
          | cons a other =>
              obtain ⟨rfl, _⟩ := (within a other).mp inside
              simp [lookup_cons ordered, absent]
        · rfl
      · simp only [trieNodeModify, found]
        have inner := ih (below child (by rw [split]; simp))
        obtain ⟨replaced, agrees⟩ := ordered.replace inner.ordered split inner.chr
        refine ⟨replaced, rfl, fun other => ?_⟩
        cases other with
        | nil =>
            rw [if_neg own]
            rfl
        | cons a other =>
            rw [agrees, inner.lookup]
            simp only [within]
            by_cases here : a = child.chr
            · subst here
              simp [lookup_cons ordered, present]
            · simp [here]

/-! ## Against the finite map -/

namespace TopicMap

/-- The empty key is not deleted. -/
def deleteKey (m : TopicMap α) (key : CString) : TopicMap α :=
  if key.bytes = [] then m else m.erase key

/-- Without the keys that go on after `pfx`. -/
def dropBelow (m : TopicMap α) (pfx : CString) : TopicMap α where
  entries := m.entries.filter fun e => ¬ (pfx.bytes <+: e.1.bytes ∧ e.1 ≠ pfx)
  nodupKeys := m.nodupKeys.sublist List.filter_sublist

theorem lookup_dropBelow (m : TopicMap α) (pfx key : CString) :
    (dropBelow m pfx).lookup key =
      if pfx.bytes <+: key.bytes ∧ key ≠ pfx then none else m.lookup key := by
  ext v
  have kept : v ∈ (dropBelow m pfx).lookup key ↔ ⟨key, v⟩ ∈ (dropBelow m pfx).entries :=
    List.mem_dlookup_iff (dropBelow m pfx).nodupKeys
  have held : v ∈ m.lookup key ↔ ⟨key, v⟩ ∈ m.entries := List.mem_dlookup_iff m.nodupKeys
  rw [← Option.mem_def, kept, dropBelow, List.mem_filter, ← held, decide_eq_true_iff]
  by_cases inside : pfx.bytes <+: key.bytes ∧ key ≠ pfx
  · simp [inside]
  · simp [inside]

theorem lookup_deleteKey (m : TopicMap α) (key other : CString) :
    (deleteKey m key).lookup other =
      if other = key ∧ key.bytes ≠ [] then none else m.lookup other := by
  unfold deleteKey
  by_cases empty : key.bytes = []
  · simp [empty]
  · rw [if_neg empty]
    by_cases same : other = key
    · rw [if_pos ⟨same, empty⟩, same, AList.lookup_erase]
    · rw [if_neg fun both => same both.1, AList.lookup_erase_ne same]

/-- Maps with the same lookups have as many keys. -/
theorem length_keys_eq {m m' : TopicMap α} (same : ∀ key, m.lookup key = m'.lookup key) :
    m.keys.length = m'.keys.length := by
  have perm : m.keys.Perm m'.keys := by
    rw [List.perm_ext_iff_of_nodup m.keys_nodup m'.keys_nodup]
    intro key
    rw [← AList.mem_keys, ← AList.mem_keys, ← AList.lookup_isSome, same, AList.lookup_isSome]
  exact perm.length_eq

theorem length_keys_dropBelow (m : TopicMap α) (pfx : CString) :
    (dropBelow m pfx).keys.length +
      (m.keys.filter fun k => pfx.bytes <+: k.bytes ∧ k ≠ pfx).length = m.keys.length := by
  have split := List.length_eq_length_filter_add (l := m.keys)
    fun k => decide (pfx.bytes <+: k.bytes ∧ k ≠ pfx)
  have kept : (dropBelow m pfx).keys =
      m.keys.filter fun k => !decide (pfx.bytes <+: k.bytes ∧ k ≠ pfx) := by
    simp only [AList.keys, List.keys, dropBelow, List.filter_map]
    congr 1
    apply List.filter_congr
    intro e _
    simp
  rw [kept, split, Nat.add_comm]

/-- The key itself is not among those that go on after it. -/
theorem filter_deleteKey_length (m : TopicMap α) (pfx : CString) :
    ((deleteKey m pfx).keys.filter fun k => pfx.bytes <+: k.bytes ∧ k ≠ pfx).length =
      (m.keys.filter fun k => pfx.bytes <+: k.bytes ∧ k ≠ pfx).length := by
  refine List.Perm.length_eq ?_
  rw [List.perm_ext_iff_of_nodup ((deleteKey m pfx).keys_nodup.filter _) (m.keys_nodup.filter _)]
  intro k
  rw [List.mem_filter, List.mem_filter, ← AList.mem_keys, ← AList.mem_keys, ← AList.lookup_isSome,
    ← AList.lookup_isSome, decide_eq_true_iff, lookup_deleteKey]
  apply and_congr_left
  intro below
  rw [if_neg fun both => below.2 both.1]

/-- Both together leave the keys that do not start with a prefix. -/
theorem lookup_dropPrefix (m : TopicMap α) {pfx : CString} (nonempty : pfx.bytes ≠ [])
    (key : CString) :
    (dropBelow (deleteKey m pfx) pfx).lookup key =
      if pfx.bytes <+: key.bytes then none else m.lookup key := by
  rw [lookup_dropBelow, lookup_deleteKey]
  by_cases same : key = pfx
  · simp [same, nonempty]
  · simp [same]

theorem length_keys_dropPrefix (m : TopicMap α) {pfx : CString} (nonempty : pfx.bytes ≠ []) :
    (dropBelow (deleteKey m pfx) pfx).keys.length +
      (m.keys.filter fun k => pfx.bytes <+: k.bytes).length = m.keys.length := by
  have kept : (dropBelow (deleteKey m pfx) pfx).keys.Perm
      (m.keys.filter fun k => !decide (pfx.bytes <+: k.bytes)) := by
    rw [List.perm_ext_iff_of_nodup (AList.keys_nodup _) (m.keys_nodup.filter _)]
    intro k
    rw [List.mem_filter, ← AList.mem_keys, ← AList.mem_keys, ← AList.lookup_isSome,
      ← AList.lookup_isSome, lookup_dropPrefix m nonempty]
    by_cases begins : pfx.bytes <+: k.bytes <;> simp [begins]
  rw [kept.length_eq, Nat.add_comm]
  exact (List.length_eq_length_filter_add _).symm

end TopicMap

/-- What a walk leads to is in order again. -/
theorem Ordered.find {root cursor : TrieNode α} (ordered : Ordered root) {key : List Int8}
    (found : trieNodeFind root key = some cursor) : Ordered cursor := by
  induction key generalizing root with
  | nil =>
      cases found
      exact ordered
  | cons c key ih =>
      obtain ⟨chr, children, data⟩ := root
      obtain ⟨counted, ascending, below⟩ := ordered
      rcases linearSearch_cases counted ascending c with
        ⟨missing, _⟩ | ⟨before, child, after, hit, split, _, _⟩
      · simp [trieNodeFind, missing] at found
      · simp only [trieNodeFind, children_node, hit] at found
        exact ih (below child (by rw [split]; simp)) found

theorem chars_prefix_iff {pfx key : CString} :
    pfx.chars <+: key.chars ↔ pfx.bytes <+: key.bytes := by
  apply List.prefix_map_iff_of_injective
  intro a b same
  simpa using congrArg Int8.toUInt8 same

/-- A trie that stands for a map and holds nothing that is no key. -/
structure Spells (trie : Trie α) (m : TopicMap α) : Prop extends Represents trie m where
  spelled : ∀ key, (trie.root.lookup key).isSome → ∃ k : CString, k.chars = key

theorem spells_trieInit : Spells (trieInit : Trie α) ∅ where
  toRepresents := represents_trieInit
  spelled := fun key found => by simp [trieInit] at found

/-- What `trie_delete` does to the node it starts from. -/
theorem trieDelete_spec {trie : Trie α} (ordered : Ordered trie.root) (key : CString) :
    Ordered (trieDelete trie key).1.root ∧
      (∀ other, (trieDelete trie key).1.root.lookup other =
        if other = key.chars ∧ key.bytes ≠ [] then none else trie.root.lookup other) ∧
      (trieDelete trie key).1.size =
        if (trie.root.lookup key.chars).isSome ∧ key.bytes ≠ [] then trie.size - 1
        else trie.size := by
  unfold trieDelete
  by_cases empty : key.bytes = []
  · rw [if_neg (by simp [strlen, empty])]
    simp [empty, ordered]
  · have positive : strlen key > 0 := List.length_pos_iff.mpr empty
    rw [if_pos positive]
    have deletes := trieNodeRecursiveDelete_deletes ordered key.chars trie.size
    refine ⟨deletes.ordered, fun other => ?_, ?_⟩
    · simpa [empty] using deletes.lookup other
    · simpa [empty] using deletes.size

namespace Spells

variable {trie : Trie α} {m m' : TopicMap α} (spells : Spells trie m)
include spells

theorem lookup (key : CString) : trie.root.lookup key.chars = m.lookup key :=
  (trieFind_eq_lookup trie key).symm.trans (spells.find key)

theorem congr (same : ∀ key, m.lookup key = m'.lookup key) : Spells trie m' where
  ordered := spells.ordered
  find := fun key => (spells.find key).trans (same key)
  size := spells.size.trans (TopicMap.length_keys_eq same)
  spelled := spells.spelled

theorem insert (key : CString) (data : α) :
    Spells (trieInsert trie key data) (m.insert key data) where
  toRepresents := spells.toRepresents.insert key data
  spelled := fun other found => by
    have inserts := trieNodeInsert_inserts data spells.ordered key.chars trie.size
    have looked : (trieInsert trie key data).root.lookup other = _ := inserts.lookup other
    rw [looked] at found
    split at found
    · rename_i same
      exact ⟨key, same.symm⟩
    · exact spells.spelled other found

theorem delete (key : CString) : Spells (trieDelete trie key).1 (TopicMap.deleteKey m key) := by
  obtain ⟨ordered, lookup, size⟩ := trieDelete_spec spells.ordered key
  refine ⟨?_, fun other found => ?_⟩
  · by_cases empty : key.bytes = []
    · rw [trieDelete, if_neg (by simp [strlen, empty]), TopicMap.deleteKey, if_pos empty]
      exact spells.toRepresents
    · rw [TopicMap.deleteKey, if_neg empty]
      exact (spells.toRepresents.delete empty).1
  · rw [lookup] at found
    split at found
    · cases found
    · exact spells.spelled other found

/-- Below the node of a prefix are the keys that go on after it. -/
theorem length_keys_below {pfx : CString} {cursor : TrieNode α}
    (found : trieNodeFind trie.root pfx.chars = some cursor) :
    (m.keys.filter fun k => pfx.bytes <+: k.bytes ∧ k ≠ pfx).length =
      (trieNodesKeys cursor.children.nodes).length := by
  have ordered := spells.ordered.find found
  have reaches (rest : List Int8) :
      trie.root.lookup (pfx.chars ++ rest) = cursor.lookup rest := by
    rw [TrieNode.lookup, trieNodeFind_append, found]
    rfl
  have below (rest : List Int8) :
      rest ∈ trieNodesKeys cursor.children.nodes ↔ rest ≠ [] ∧ (cursor.lookup rest).isSome := by
    rw [← mem_trieNodeKeys ordered]
    obtain ⟨chr, ⟨nodes, len⟩, data⟩ := cursor
    cases rest with
    | nil => simp [mem_trieNodesKeys]
    | cons c rest => cases data <;> simp [trieNodeKeys]
  have perm : ((m.keys.filter fun k => pfx.bytes <+: k.bytes ∧ k ≠ pfx).map CString.chars).Perm
      ((trieNodesKeys cursor.children.nodes).map (pfx.chars ++ ·)) := by
    rw [List.perm_ext_iff_of_nodup]
    · intro key
      simp only [List.mem_map, List.mem_filter, decide_eq_true_iff, below]
      constructor
      · rintro ⟨k, ⟨member, begins, differs⟩, rfl⟩
        obtain ⟨rest, split⟩ := chars_prefix_iff.mpr begins
        refine ⟨rest, ⟨?_, ?_⟩, split⟩
        · rintro rfl
          rw [List.append_nil] at split
          exact differs (CString.chars_injective split.symm)
        · rw [← reaches, split, spells.lookup, AList.lookup_isSome]
          exact AList.mem_keys.mpr member
      · rintro ⟨rest, ⟨more, held⟩, rfl⟩
        rw [← reaches] at held
        obtain ⟨k, spelled⟩ := spells.spelled _ held
        refine ⟨k, ⟨?_, chars_prefix_iff.mp ?_, ?_⟩, spelled⟩
        · rw [← spelled, spells.lookup, AList.lookup_isSome] at held
          exact AList.mem_keys.mp held
        · exact ⟨rest, spelled.symm⟩
        · rintro rfl
          exact more (by simpa using spelled)
    · exact (m.keys_nodup.filter _).map CString.chars_injective
    · have inner := nodup_trieNodeKeys ordered
      obtain ⟨chr, ⟨nodes, len⟩, data⟩ := cursor
      exact (List.nodup_append.mp inner).2.1.map (List.append_right_injective _)
  simpa using perm.length_eq

/-- Nothing goes on after a prefix that leads nowhere, or to a node without children. -/
theorem lookup_below {pfx key : CString}
    (bare : ∀ cursor, trieNodeFind trie.root pfx.chars = some cursor → cursor.children.len = 0)
    (begins : pfx.bytes <+: key.bytes) (differs : key ≠ pfx) : m.lookup key = none := by
  rw [← spells.lookup, TrieNode.lookup]
  obtain ⟨rest, split⟩ := chars_prefix_iff.mpr begins
  rw [← split, trieNodeFind_append]
  cases found : trieNodeFind trie.root pfx.chars with
  | none => rfl
  | some cursor =>
      cases rest with
      | nil =>
          rw [List.append_nil] at split
          exact absurd (CString.chars_injective split.symm) differs
      | cons c rest =>
          have empty := bare cursor found
          simp [trieNodeFind, linearSearch, empty]

/-- `trie_prefix_delete` on the map: the key itself, and those that go on after it. -/
theorem prefixDelete (pfx : CString) :
    Spells (triePrefixDelete trie pfx) (TopicMap.dropBelow (TopicMap.deleteKey m pfx) pfx) := by
  unfold triePrefixDelete
  cases found : trieNodeFind trie.root pfx.chars with
  | none =>
      apply spells.congr
      intro key
      have gone : m.lookup pfx = none := by
        rw [← spells.lookup, TrieNode.lookup, found]
        rfl
      rw [TopicMap.lookup_dropBelow, TopicMap.lookup_deleteKey]
      split
      · rename_i below
        exact spells.lookup_below (by simp [found]) below.1 below.2
      · split
        · rename_i own
          rw [own.1, gone]
        · rfl
  | some cursor =>
      dsimp only
      split
      · rename_i leaf
        apply (spells.delete pfx).congr
        intro key
        rw [TopicMap.lookup_dropBelow]
        split
        · rename_i below
          have gone := spells.lookup_below (by simp [found, leaf]) below.1 below.2
          rw [TopicMap.lookup_deleteKey, gone]
          split <;> rfl
        · rfl
      · -- the size is counted down first, the tree changed after that
        let freed : Trie α := { trie with size := trieNodesFree cursor.children.nodes trie.size }
        have inOrder : Ordered freed.root := spells.ordered
        obtain ⟨ordered, lookup, size⟩ := trieDelete_spec inOrder pfx
        have clears := trieNodeModify_clears ordered pfx.chars
        have looked (other : List Int8) :
            (trieNodeModify clearChildren (trieDelete freed pfx).1.root pfx.chars).lookup other =
              if pfx.chars <+: other ∧ other ≠ pfx.chars then none
              else if other = pfx.chars ∧ pfx.bytes ≠ [] then none
              else trie.root.lookup other := by
          rw [clears.lookup, lookup]
        refine ⟨⟨clears.ordered, fun key => ?_, ?_⟩, fun other found => ?_⟩
        · rw [trieFind_eq_lookup]
          refine (looked key.chars).trans ?_
          rw [TopicMap.lookup_dropBelow, TopicMap.lookup_deleteKey, ← spells.lookup]
          simp only [chars_prefix_iff, CString.chars_injective.eq_iff, ne_eq]
        · have all : trie.size = m.keys.length := spells.size
          have rest := TopicMap.length_keys_dropBelow (TopicMap.deleteKey m pfx) pfx
          rw [TopicMap.filter_deleteKey_length, spells.length_keys_below found,
            ← (spells.delete pfx).size] at rest
          have direct := (trieDelete_spec spells.ordered pfx).2.2
          refine size.trans ?_
          simp only [freed, trieNodesFree_eq]
          rw [trieSize, direct] at rest
          split at rest
          · rename_i present
            rw [if_pos present]
            omega
          · rename_i absent
            rw [if_neg absent]
            omega
        · have found := found
          rw [looked] at found
          split at found
          · cases found
          · split at found
            · cases found
            · exact spells.spelled other found

end Spells

/-! ## Calls in any order -/

/-- A call that changes the trie. -/
inductive TrieEdit (α : Type*)
  | insert (key : CString) (data : α)
  | delete (key : CString)
  | prefixDelete (pfx : CString)

/-- The call on the program's trie. -/
def TrieEdit.apply (trie : Trie α) : TrieEdit α → Trie α
  | insert key data => trieInsert trie key data
  | delete key => (trieDelete trie key).1
  | prefixDelete pfx => triePrefixDelete trie pfx

/-- The call on a finite map. -/
def TrieEdit.onMap (m : TopicMap α) : TrieEdit α → TopicMap α
  | insert key data => m.insert key data
  | delete key => TopicMap.deleteKey m key
  | prefixDelete pfx => TopicMap.dropBelow (TopicMap.deleteKey m pfx) pfx

theorem Spells.apply {trie : Trie α} {m : TopicMap α} (spells : Spells trie m) (op : TrieEdit α) :
    Spells (op.apply trie) (op.onMap m) := by
  cases op with
  | insert key data => exact spells.insert key data
  | delete key => exact spells.delete key
  | prefixDelete pfx => exact spells.prefixDelete pfx

/-- Whatever calls built the trie, it stands for a finite map. -/
theorem spells_foldl (ops : List (TrieEdit α)) :
    Spells (ops.foldl TrieEdit.apply trieInit) (ops.foldl TrieEdit.onMap ∅) := by
  suffices go : ∀ (trie : Trie α) (m : TopicMap α), Spells trie m →
      Spells (ops.foldl TrieEdit.apply trie) (ops.foldl TrieEdit.onMap m) from
    go _ _ spells_trieInit
  induction ops with
  | nil => exact fun _ _ spells => spells
  | cons op ops ih => exact fun trie m spells => ih _ _ (spells.apply op)

/-- On any trie the calls can build, `trie_prefix_delete` of a prefix with a character in it
removes the keys that start with it and no others, leaves the others their data, takes as
many off the size, and changes nothing if no node spells the prefix. -/
theorem triePrefixDelete_exact (ops : List (TrieEdit α)) (pfx : CString)
    (nonempty : pfx.bytes ≠ []) :
    let trie := ops.foldl TrieEdit.apply trieInit
    let after := triePrefixDelete trie pfx
    (∀ key : CString, pfx.bytes <+: key.bytes → trieFind after key = none) ∧
      (∀ key : CString, ¬ pfx.bytes <+: key.bytes → trieFind after key = trieFind trie key) ∧
      (∃ removed : List CString, removed.Nodup ∧
        (∀ key, key ∈ removed ↔ pfx.bytes <+: key.bytes ∧ (trieFind trie key).isSome) ∧
        trieSize after + removed.length = trieSize trie) ∧
      (trieNodeFind trie.root pfx.chars = none → after = trie) := by
  intro trie after
  have before : Spells trie (ops.foldl TrieEdit.onMap ∅) := spells_foldl ops
  generalize ops.foldl TrieEdit.onMap (∅ : TopicMap α) = m at before
  have found (key : CString) :
      trieFind after key = if pfx.bytes <+: key.bytes then none else trieFind trie key := by
    rw [before.find, (before.prefixDelete pfx).find, TopicMap.lookup_dropPrefix m nonempty]
  refine ⟨fun key begins => ?_, fun key apart => ?_, ?_, fun nowhere => ?_⟩
  · rw [found, if_pos begins]
  · rw [found, if_neg apart]
  · refine ⟨m.keys.filter fun k => pfx.bytes <+: k.bytes, m.keys_nodup.filter _, fun key => ?_, ?_⟩
    · rw [List.mem_filter, decide_eq_true_iff, and_comm, before.find, AList.lookup_isSome,
        AList.mem_keys]
    · rw [(before.prefixDelete pfx).size, before.size]
      exact TopicMap.length_keys_dropPrefix m nonempty
  · simp only [after, triePrefixDelete, nowhere]

def keyA : CString := cstr [97]
def keyAB : CString := cstr [97, 98]
def keyB : CString := cstr [98]

/-- Of `a`, `ab` and `b`, deleting below `a` leaves `b`. -/
theorem keyB_left :
    trieFind (triePrefixDelete ([.insert keyA 1, .insert keyAB 2, .insert keyB 3].foldl
      TrieEdit.apply (trieInit : Trie Nat)) keyA) keyB = some 3 := by
  have exact_ := triePrefixDelete_exact [.insert keyA 1, .insert keyAB 2, .insert keyB 3] keyA
    (by decide)
  exact (exact_.2.1 keyB (by decide)).trans (by decide)

end SolBroker
