import Mathlib
import SolBroker.Trie.PrefixDelete

/-!
# The order of a visit

`trie_prefix_map_tuple` as a fold over the nodes below a prefix. The nodes are listed with
their paths, which tell equal nodes apart, and the list is ordered: a node comes after
those below it, and of two branches the one with the smaller character comes first.
-/

namespace SolBroker

open TrieNode

universe u v

variable {α : Type u}

mutual

/-- The nodes from one on, with their paths, children first. -/
def trieNodeVisits (path : List Int8) : TrieNode α → List (List Int8 × TrieNode α)
  | node chr ⟨nodes, len⟩ data => trieNodesVisits path nodes ++ [(path, node chr ⟨nodes, len⟩ data)]

def trieNodesVisits (path : List Int8) : List (TrieNode α) → List (List Int8 × TrieNode α)
  | [] => []
  | cur :: next => trieNodeVisits (path ++ [cur.chr]) cur ++ trieNodesVisits path next

end

/-- A path that goes on after another one comes before it, and so does one that has the
smaller character where they part. -/
def VisitedBefore (p q : List Int8) : Prop :=
  (∃ c rest, p = q ++ c :: rest) ∨
    ∃ common c d p' q', c.toInt < d.toInt ∧ p = common ++ c :: p' ∧ q = common ++ d :: q'

theorem not_visitedBefore_self (p : List Int8) : ¬ VisitedBefore p p := by
  rintro (⟨c, rest, same⟩ | ⟨common, c, d, p', q', less, left, right⟩)
  · simp at same
  · have same := left.symm.trans right
    rw [List.append_right_inj, List.cons.injEq] at same
    rw [same.1] at less
    exact lt_irrefl _ less

theorem mem_trieNodesVisits {path : List Int8} {nodes : List (TrieNode α)}
    {visit : List Int8 × TrieNode α} :
    visit ∈ trieNodesVisits path nodes ↔
      ∃ n ∈ nodes, visit ∈ trieNodeVisits (path ++ [n.chr]) n := by
  induction nodes with
  | nil => simp [trieNodesVisits]
  | cons cur next ih => simp [trieNodesVisits, ih]

/-- What is visited is what a walk leads to. -/
theorem mem_trieNodeVisits {n : TrieNode α} (ordered : Ordered n) (path : List Int8)
    (visit : List Int8 × TrieNode α) :
    visit ∈ trieNodeVisits path n ↔
      ∃ rest, visit.1 = path ++ rest ∧ trieNodeFind n rest = some visit.2 := by
  induction ordered generalizing path with
  | @intro chr children data counted ascending below ih =>
      have whole : Ordered (node chr children data) := .intro counted ascending below
      have distinct := distinct_of_ascending ascending
      obtain ⟨nodes, len⟩ := children
      rw [trieNodeVisits, List.mem_append, mem_trieNodesVisits, List.mem_singleton]
      constructor
      · rintro (⟨child, member, inside⟩ | rfl)
        · obtain ⟨rest, split, found⟩ := (ih child member _).mp inside
          refine ⟨child.chr :: rest, by rw [split, List.append_assoc, List.singleton_append], ?_⟩
          rw [trieNodeFind_cons whole, children_node,
            (Keyed.find?_eq_some_iff distinct).mpr ⟨member, rfl⟩]
          exact found
        · exact ⟨[], (List.append_nil _).symm, rfl⟩
      · rintro ⟨rest, split, found⟩
        cases rest with
        | nil =>
            rw [List.append_nil] at split
            exact .inr (Prod.ext split (Option.some.inj found).symm)
        | cons c rest =>
            rw [trieNodeFind_cons whole, children_node] at found
            obtain ⟨child, hit, found⟩ := Option.bind_eq_some_iff.mp found
            obtain ⟨member, keyed⟩ := (Keyed.find?_eq_some_iff distinct).mp hit
            refine .inl ⟨child, member, (ih child member _).mpr ⟨rest, ?_, found⟩⟩
            rw [split, keyed, List.append_assoc, List.singleton_append]

/-- The visits of ascending children, each of them in order, are in order. -/
theorem pairwise_trieNodesVisits {path : List Int8} {nodes : List (TrieNode α)}
    (ascending : nodes.Pairwise fun m n => m.chr.toInt < n.chr.toInt)
    (ordered : ∀ n ∈ nodes, Ordered n)
    (each : ∀ n ∈ nodes, ((trieNodeVisits (path ++ [n.chr]) n).map Prod.fst).Pairwise
      VisitedBefore) :
    ((trieNodesVisits path nodes).map Prod.fst).Pairwise VisitedBefore := by
  induction ascending with
  | nil => exact .nil
  | @cons cur next larger _ ih =>
      rw [trieNodesVisits, List.map_append, List.pairwise_append]
      have later := ih (fun n member => ordered n (List.mem_cons_of_mem _ member))
        fun n member => each n (List.mem_cons_of_mem _ member)
      refine ⟨each cur (List.mem_cons_self ..), later, ?_⟩
      intro p first q second
      obtain ⟨visit, here, rfl⟩ := List.mem_map.mp first
      obtain ⟨visit', inside, rfl⟩ := List.mem_map.mp second
      obtain ⟨n, member, there⟩ := mem_trieNodesVisits.mp inside
      obtain ⟨rest, split, _⟩ :=
        (mem_trieNodeVisits (ordered cur (List.mem_cons_self ..)) _ _).mp here
      obtain ⟨rest', split', _⟩ :=
        (mem_trieNodeVisits (ordered n (List.mem_cons_of_mem _ member)) _ _).mp there
      exact .inr ⟨path, cur.chr, n.chr, rest, rest', larger n member, by simp [split],
        by simp [split']⟩

theorem pairwise_trieNodeVisits {n : TrieNode α} (ordered : Ordered n) (path : List Int8) :
    ((trieNodeVisits path n).map Prod.fst).Pairwise VisitedBefore := by
  induction ordered generalizing path with
  | @intro chr children data _ ascending below ih =>
      obtain ⟨nodes, len⟩ := children
      rw [trieNodeVisits, List.map_append, List.pairwise_append]
      refine ⟨pairwise_trieNodesVisits ascending below fun n member => ih n member _,
        List.pairwise_singleton .., ?_⟩
      intro p below_ q own
      obtain rfl : q = path := by simpa using own
      obtain ⟨visit, inside, rfl⟩ := List.mem_map.mp below_
      obtain ⟨child, member, there⟩ := mem_trieNodesVisits.mp inside
      obtain ⟨rest, split, _⟩ := (mem_trieNodeVisits (below child member) _ _).mp there
      exact .inl ⟨child.chr, rest, by simp [split]⟩

section Fold

variable {σ : Type v} (mapfunc : TrieNode α → σ → σ)

theorem triePrefixMapChildren_eq_foldl {nodes : List (TrieNode α)} (path : List Int8)
    (each : ∀ n ∈ nodes, ∀ path arg, triePrefixMapFunc2 mapfunc n arg =
      (trieNodeVisits path n).foldl (fun arg visit => mapfunc visit.2 arg) arg) (arg : σ) :
    triePrefixMapChildren mapfunc nodes arg =
      (trieNodesVisits path nodes).foldl (fun arg visit => mapfunc visit.2 arg) arg := by
  induction nodes generalizing arg with
  | nil =>
      rw [triePrefixMapChildren, trieNodesVisits]
      rfl
  | cons cur next ih =>
      rw [triePrefixMapChildren, trieNodesVisits, List.foldl_append,
        each cur (List.mem_cons_self ..) (path ++ [cur.chr])]
      exact ih (fun n member => each n (List.mem_cons_of_mem _ member)) _

/-- The recursion calls the function on the listed nodes, in the order of the list. -/
theorem triePrefixMapFunc2_eq_foldl {n : TrieNode α} (ordered : Ordered n) (path : List Int8)
    (arg : σ) :
    triePrefixMapFunc2 mapfunc n arg =
      (trieNodeVisits path n).foldl (fun arg visit => mapfunc visit.2 arg) arg := by
  induction ordered generalizing path arg with
  | @intro chr children data counted _ _ ih =>
      obtain ⟨nodes, len⟩ := children
      rw [triePrefixMapFunc2, trieNodeVisits, List.foldl_append,
        ← triePrefixMapChildren_eq_foldl mapfunc path ih]
      split
      · -- a list of length zero is taken for an empty one
        rename_i empty
        obtain rfl : nodes = [] := counted.eq_nil empty
        rw [triePrefixMapChildren]
        rfl
      · rfl

end Fold

/-- On any trie the calls can build, `trie_prefix_map_tuple` calls its function once on every
node whose path starts with the prefix and on no other, in the order of the visit; a prefix
that is not spelled has no such node. -/
theorem triePrefixMapTuple_exact (ops : List (TrieEdit α)) (pfx : CString) :
    let trie := ops.foldl TrieEdit.apply trieInit
    ∃ visits : List (List Int8 × TrieNode α),
      (∀ (σ : Type v) (mapfunc : TrieNode α → σ → σ) (arg : σ),
        triePrefixMapTuple trie pfx mapfunc arg =
          visits.foldl (fun arg visit => mapfunc visit.2 arg) arg) ∧
      (∀ path node, (path, node) ∈ visits ↔
        pfx.chars <+: path ∧ trieNodeFind trie.root path = some node) ∧
      (visits.map Prod.fst).Nodup ∧ (visits.map Prod.fst).Pairwise VisitedBefore ∧
      (trieNodeFind trie.root pfx.chars = none → visits = []) := by
  intro trie
  have ordered : Ordered trie.root := (spells_foldl ops).ordered
  cases start : trieNodeFind trie.root pfx.chars with
  | none =>
      refine ⟨[], fun σ mapfunc arg => ?_, fun path node => ?_, .nil, .nil, fun _ => rfl⟩
      · rw [triePrefixMapTuple, start]
        rfl
      · refine iff_of_false List.not_mem_nil ?_
        rintro ⟨⟨rest, rfl⟩, found⟩
        rw [trieNodeFind_append, start] at found
        cases found
  | some cursor =>
      have inOrder := ordered.find start
      have sorted := pairwise_trieNodeVisits inOrder pfx.chars
      refine ⟨trieNodeVisits pfx.chars cursor, fun σ mapfunc arg => ?_, fun path node => ?_,
        sorted.imp fun before same => ?_, sorted, fun absent => ?_⟩
      · rw [triePrefixMapTuple, start]
        exact triePrefixMapFunc2_eq_foldl mapfunc inOrder pfx.chars arg
      · rw [mem_trieNodeVisits inOrder]
        constructor
        · rintro ⟨rest, rfl, found⟩
          refine ⟨⟨rest, rfl⟩, ?_⟩
          rw [trieNodeFind_append, start]
          exact found
        · rintro ⟨⟨rest, rfl⟩, found⟩
          rw [trieNodeFind_append, start] at found
          exact ⟨rest, rfl, found⟩
      · rw [same] at before
        exact not_visitedBefore_self _ before
      · cases absent

end SolBroker
