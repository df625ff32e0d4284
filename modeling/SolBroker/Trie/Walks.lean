import Mathlib
import SolBroker.Lib.PubSub
import SolBroker.Trie.Visits

/-!
# Walks that stop where there is no data

A walk from a node goes to all children, but not below a node without data. When one sets
out from every node of a visit, the data of a key is met once for every node on its way from
which all of the way has data. The data of different keys has to be different for this, as it
could not be told apart.
-/

namespace SolBroker

open PubSub TrieNode

variable {α : Type*}

mutual

/-- The data that a walk from a node meets, children first. -/
def dataMet : TrieNode α → List α
  | node _ _ none => []
  | node _ ⟨nodes, _⟩ (some value) => dataMetBelow nodes ++ [value]

def dataMetBelow : List (TrieNode α) → List α
  | [] => []
  | child :: next => dataMet child ++ dataMetBelow next

end

/-- The data met when a walk sets out from every node from this one on. -/
def dataMetVisiting (path : List Int8) (n : TrieNode α) : List α :=
  (trieNodeVisits path n).flatMap fun visit => dataMet visit.2

/-- No data is found under two keys. -/
def TrieNode.Apart (n : TrieNode α) : Prop :=
  ∀ key key' value, n.lookup key = some value → n.lookup key' = some value → key = key'

theorem dataMetBelow_eq (nodes : List (TrieNode α)) :
    dataMetBelow nodes = nodes.flatMap dataMet := by
  induction nodes with
  | nil => rfl
  | cons child next ih => rw [dataMetBelow, ih, List.flatMap_cons]

theorem trieNodesVisits_eq (path : List Int8) (nodes : List (TrieNode α)) :
    trieNodesVisits path nodes = nodes.flatMap fun n => trieNodeVisits (path ++ [n.chr]) n := by
  induction nodes with
  | nil => rfl
  | cons child next ih => rw [trieNodesVisits, ih, List.flatMap_cons]

theorem dataMetVisiting_node (path : List Int8) (chr : Int8) (nodes : List (TrieNode α))
    (len : Nat) (data : Option α) :
    dataMetVisiting path (node chr ⟨nodes, len⟩ data) =
      (nodes.flatMap fun n => dataMetVisiting (path ++ [n.chr]) n) ++
        dataMet (node chr ⟨nodes, len⟩ data) := by
  rw [dataMetVisiting, trieNodeVisits, trieNodesVisits_eq, List.flatMap_append,
    List.flatMap_assoc, List.flatMap_singleton]
  rfl

section Ordered

variable {n : TrieNode α} {value : α} {key : List Int8}

/-- A lookup below a child. -/
theorem lookup_child {chr : Int8} {children : CList (TrieNode α)} {data : Option α}
    (ordered : Ordered (node chr children data)) {child : TrieNode α}
    (member : child ∈ children.nodes) (key : List Int8) :
    (node chr children data).lookup (child.chr :: key) = child.lookup key := by
  have hit : Keyed.find? TrieNode.chr child.chr children.nodes = some child := by
    obtain ⟨_, ascending, _⟩ := ordered
    exact (Keyed.find?_eq_some_iff (distinct_of_ascending ascending)).mpr ⟨member, rfl⟩
  rw [lookup_cons ordered, children_node, hit]
  rfl

theorem TrieNode.Apart.child {chr : Int8} {children : CList (TrieNode α)} {data : Option α}
    (apart : (node chr children data).Apart) (ordered : Ordered (node chr children data))
    {child : TrieNode α} (member : child ∈ children.nodes) : child.Apart := by
  intro key key' value held held'
  have same := apart (child.chr :: key) (child.chr :: key') value
    ((lookup_child ordered member key).trans held) ((lookup_child ordered member key').trans held')
  exact (List.cons.inj same).2

theorem exists_lookup_of_mem_dataMet (ordered : Ordered n) (met : value ∈ dataMet n) :
    ∃ key, n.lookup key = some value := by
  induction ordered with
  | @intro chr children data counted ascending below ih =>
      have whole : Ordered (node chr children data) := .intro counted ascending below
      obtain ⟨nodes, len⟩ := children
      cases data with
      | none =>
          rw [dataMet] at met
          cases met
      | some own =>
          rw [dataMet, dataMetBelow_eq, List.mem_append, List.mem_flatMap] at met
          obtain ⟨child, member, met⟩ | here := met
          · obtain ⟨key, found⟩ := ih child member met
            exact ⟨child.chr :: key, (lookup_child whole member key).trans found⟩
          · rw [List.mem_singleton.mp here]
            exact ⟨[], rfl⟩

theorem exists_lookup_of_mem_dataMetVisiting (ordered : Ordered n) (path : List Int8)
    (met : value ∈ dataMetVisiting path n) : ∃ key, n.lookup key = some value := by
  obtain ⟨⟨path', inner⟩, visited, met⟩ := List.mem_flatMap.mp met
  obtain ⟨rest, _, found⟩ := (mem_trieNodeVisits ordered path _).mp visited
  obtain ⟨key, here⟩ := exists_lookup_of_mem_dataMet (ordered.find found) met
  refine ⟨rest ++ key, ?_⟩
  rw [TrieNode.lookup, trieNodeFind_append, found]
  exact here

end Ordered

/-! ## Counting -/

section Counting

variable [DecidableEq α] {chr : Int8} {children : CList (TrieNode α)} {data : Option α}
  {value : α} {key : List Int8}

/-- Of what is met below the children of a node, the data of a key is met below one of them. -/
theorem count_children (ordered : Ordered (node chr children data))
    (apart : (node chr children data).Apart)
    (found : (node chr children data).lookup key = some value) {met : TrieNode α → List α}
    (there : ∀ child ∈ children.nodes, value ∈ met child →
      ∃ key, child.lookup key = some value) :
    (key = [] → (children.nodes.flatMap met).count value = 0) ∧
      ∀ child ∈ children.nodes, ∀ rest, key = child.chr :: rest →
        (children.nodes.flatMap met).count value = (met child).count value := by
  classical
  have leads {child : TrieNode α} (member : child ∈ children.nodes)
      (some_ : (met child).count value ≠ 0) : ∃ rest, key = child.chr :: rest := by
    obtain ⟨rest, found'⟩ := there child member (List.count_pos_iff.mp (Nat.pos_of_ne_zero some_))
    exact ⟨rest, apart _ _ _ found ((lookup_child ordered member rest).trans found')⟩
  constructor
  · rintro rfl
    rw [List.count_flatMap]
    refine List.sum_eq_zero fun number member => ?_
    obtain ⟨child, inside, rfl⟩ := List.mem_map.mp member
    by_contra some_
    obtain ⟨rest, same⟩ := leads inside some_
    cases same
  · rintro child member rest rfl
    have distinct : Keyed.Distinct TrieNode.chr children.nodes := by
      obtain ⟨_, ascending, _⟩ := ordered
      exact distinct_of_ascending ascending
    rw [List.count_flatMap, List.sum_map_eq_nsmul_single child]
    · have once : children.nodes.Nodup :=
        List.Pairwise.imp (fun different same => different (congrArg _ same)) distinct
      rw [List.count_eq_one_of_mem once member, one_smul]
      rfl
    · intro other elsewhere member'
      by_contra some_
      obtain ⟨rest', same⟩ := leads member' some_
      have hit := (Keyed.find?_eq_some_iff distinct).mpr ⟨member, rfl⟩
      have hit' := (Keyed.find?_eq_some_iff distinct).mpr ⟨member', rfl⟩
      rw [(List.cons.inj same).1, hit'] at hit
      exact elsewhere (Option.some.inj hit)

/-- The data of a key is met once by a walk from the node if all of its way has data. -/
theorem count_dataMet {n : TrieNode α} (ordered : Ordered n) (apart : n.Apart)
    (found : n.lookup key = some value) : (dataMet n).count value =
      if Way (fun rest => (n.lookup rest).isSome) key then 1 else 0 := by
  induction ordered generalizing key with
  | @intro chr children data counted ascending below ih =>
      have whole : Ordered (node chr children data) := .intro counted ascending below
      have inside := count_children whole apart found fun child member met =>
        exists_lookup_of_mem_dataMet (below child member) met
      obtain ⟨nodes, len⟩ := children
      cases key with
      | nil =>
          obtain rfl : data = some value := found
          rw [dataMet, dataMetBelow_eq, List.count_append, inside.1 rfl, List.count_singleton_self,
            if_pos (way_nil.mpr rfl)]
      | cons c rest =>
          have through := found
          rw [lookup_cons whole, children_node] at through
          obtain ⟨child, hit, found'⟩ := Option.bind_eq_some_iff.mp through
          obtain ⟨member, rfl⟩ :=
            (Keyed.find?_eq_some_iff (distinct_of_ascending ascending)).mp hit
          cases data with
          | none =>
              rw [dataMet, List.count_nil, if_neg]
              intro way
              exact absurd (way 0 (Nat.zero_le _)) Bool.false_ne_true
          | some own =>
              have other : own ≠ value := by
                rintro rfl
                cases apart [] _ own rfl found
              rw [dataMet, dataMetBelow_eq, List.count_append, inside.2 child member rest rfl,
                List.count_singleton, beq_eq_false_iff_ne.mpr other,
                ih child member (apart.child whole member) found']
              apply if_congr _ rfl rfl
              rw [way_cons]
              simp only [lookup_child whole member]
              exact (and_iff_right rfl).symm

/-- When a walk sets out from every node, it is met once for each that leads to it. -/
theorem count_dataMetVisiting {n : TrieNode α} (ordered : Ordered n) (apart : n.Apart)
    (path : List Int8) (found : n.lookup key = some value) :
    (dataMetVisiting path n).count value =
      links (fun rest => (n.lookup rest).isSome) key := by
  induction ordered generalizing path key with
  | @intro chr children data counted ascending below ih =>
      have whole : Ordered (node chr children data) := .intro counted ascending below
      have inside := count_children whole apart found fun child member met =>
        exists_lookup_of_mem_dataMetVisiting (below child member) (path ++ [child.chr]) met
      obtain ⟨nodes, len⟩ := children
      rw [dataMetVisiting_node, List.count_append, count_dataMet whole apart found]
      cases key with
      | nil => rw [inside.1 rfl, Nat.zero_add, links_nil]
      | cons c rest =>
          have through := found
          rw [lookup_cons whole, children_node] at through
          obtain ⟨child, hit, found'⟩ := Option.bind_eq_some_iff.mp through
          obtain ⟨member, rfl⟩ :=
            (Keyed.find?_eq_some_iff (distinct_of_ascending ascending)).mp hit
          rw [inside.2 child member rest rfl, ih child member (apart.child whole member) _ found',
            links_cons]
          simp only [lookup_child whole member]

end Counting

end SolBroker
