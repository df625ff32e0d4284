import Mathlib
import SolBroker.Trie.Map

/-!
# Visiting the keys below a prefix

`trie_prefix_map_tuple` calls a function on every node below the node of a prefix,
children before their parent. The function changes what it is given, never the trie.
What every call keeps is kept by the visit, and what the call on one node below the
prefix brings about holds after it.
-/

namespace SolBroker

variable {α σ : Type*}

mutual

/-- `trie_prefix_map_func2`. -/
def triePrefixMapFunc2 (mapfunc : TrieNode α → σ → σ) : TrieNode α → σ → σ
  | .node chr ⟨nodes, len⟩ data, arg =>
      if len = 0 then mapfunc (.node chr ⟨nodes, len⟩ data) arg
      else mapfunc (.node chr ⟨nodes, len⟩ data) (triePrefixMapChildren mapfunc nodes arg)

def triePrefixMapChildren (mapfunc : TrieNode α → σ → σ) : List (TrieNode α) → σ → σ
  | [], arg => arg
  | child :: next, arg =>
      triePrefixMapChildren mapfunc next (triePrefixMapFunc2 mapfunc child arg)

end

/-- `trie_prefix_map_tuple`, with a prefix. -/
def triePrefixMapTuple (trie : Trie α) (pfx : CString) (mapfunc : TrieNode α → σ → σ)
    (arg : σ) : σ :=
  match trieNodeFind trie.root pfx.chars with
  | some node => triePrefixMapFunc2 mapfunc node arg
  | none => arg

section Relation

variable {rel : σ → σ → Prop} {mapfunc : TrieNode α → σ → σ}

mutual

theorem triePrefixMapFunc2_rel (refl : ∀ s, rel s s)
    (trans : ∀ s t u, rel s t → rel t u → rel s u)
    (mapped : ∀ node arg, rel arg (mapfunc node arg)) : ∀ (node : TrieNode α) (arg : σ),
    rel arg (triePrefixMapFunc2 mapfunc node arg)
  | .node chr ⟨nodes, len⟩ data, arg => by
      rw [triePrefixMapFunc2]
      split
      · exact mapped _ _
      · have below := triePrefixMapChildren_rel refl trans mapped nodes arg
        exact trans _ _ _ below (mapped _ _)

theorem triePrefixMapChildren_rel (refl : ∀ s, rel s s)
    (trans : ∀ s t u, rel s t → rel t u → rel s u)
    (mapped : ∀ node arg, rel arg (mapfunc node arg)) : ∀ (nodes : List (TrieNode α)) (arg : σ),
    rel arg (triePrefixMapChildren mapfunc nodes arg)
  | [], arg => by
      rw [triePrefixMapChildren]
      exact refl arg
  | child :: next, arg => by
      rw [triePrefixMapChildren]
      have first := triePrefixMapFunc2_rel refl trans mapped child arg
      exact trans _ _ _ first (triePrefixMapChildren_rel refl trans mapped next _)

end

/-- A visit relates what it starts from to what it ends with, if every call does. -/
theorem triePrefixMapTuple_rel (refl : ∀ s, rel s s)
    (trans : ∀ s t u, rel s t → rel t u → rel s u)
    (mapped : ∀ node arg, rel arg (mapfunc node arg)) (trie : Trie α) (pfx : CString) (arg : σ) :
    rel arg (triePrefixMapTuple trie pfx mapfunc arg) := by
  rw [triePrefixMapTuple]
  cases trieNodeFind trie.root pfx.chars with
  | none => exact refl arg
  | some node => exact triePrefixMapFunc2_rel refl trans mapped node arg

end Relation

section Simulation

variable {τ : Type*} {rel : σ → τ → Prop} {f : TrieNode α → σ → σ} {g : TrieNode α → τ → τ}

mutual

theorem triePrefixMapFunc2_both (both : ∀ node s t, rel s t → rel (f node s) (g node t)) :
    ∀ (node : TrieNode α) (s : σ) (t : τ), rel s t →
      rel (triePrefixMapFunc2 f node s) (triePrefixMapFunc2 g node t)
  | .node chr ⟨nodes, len⟩ data, s, t, related => by
      rw [triePrefixMapFunc2, triePrefixMapFunc2]
      split
      · exact both _ s t related
      · exact both _ _ _ (triePrefixMapChildren_both both nodes s t related)

theorem triePrefixMapChildren_both (both : ∀ node s t, rel s t → rel (f node s) (g node t)) :
    ∀ (nodes : List (TrieNode α)) (s : σ) (t : τ), rel s t →
      rel (triePrefixMapChildren f nodes s) (triePrefixMapChildren g nodes t)
  | [], s, t, related => by
      rw [triePrefixMapChildren, triePrefixMapChildren]
      exact related
  | child :: next, s, t, related => by
      rw [triePrefixMapChildren, triePrefixMapChildren]
      have first := triePrefixMapFunc2_both both child s t related
      exact triePrefixMapChildren_both both next _ _ first

end

/-- Two visits stay related if every call keeps them so. -/
theorem triePrefixMapTuple_both (both : ∀ node s t, rel s t → rel (f node s) (g node t))
    (trie : Trie α) (pfx : CString) {s : σ} {t : τ} (related : rel s t) :
    rel (triePrefixMapTuple trie pfx f s) (triePrefixMapTuple trie pfx g t) := by
  rw [triePrefixMapTuple, triePrefixMapTuple]
  cases trieNodeFind trie.root pfx.chars with
  | none => exact related
  | some node => exact triePrefixMapFunc2_both both node s t related

end Simulation

/-! ## What is visited -/

theorem trieNodeFind_append (root : TrieNode α) (pfx rest : List Int8) :
    trieNodeFind root (pfx ++ rest) =
      (trieNodeFind root pfx).bind fun node => trieNodeFind node rest := by
  induction pfx generalizing root with
  | nil => rfl
  | cons c pfx ih =>
      rw [List.cons_append, trieNodeFind, trieNodeFind]
      cases linearSearch root.children c.toInt with
      | none => rfl
      | some place => exact ih place.2.1

/-- What a linear search finds is one of the children. -/
theorem linearSearchFrom_mem {value : Int} {nodes before after : List (TrieNode α)}
    {child : TrieNode α} (found : linearSearchFrom value nodes = some (before, child, after)) :
    child ∈ nodes := by
  induction nodes generalizing before after child with
  | nil => cases found
  | cons cur next ih =>
      rw [linearSearchFrom] at found
      split at found
      · cases found
        exact List.mem_cons_self ..
      · split at found
        · cases found
        · obtain ⟨⟨before', child', after'⟩, later, done⟩ := Option.map_eq_some_iff.mp found
          cases done
          exact List.mem_cons_of_mem _ (ih later)

/-- A search with a character goes on below a child. -/
theorem exists_child_of_trieNodeFind {node cursor : TrieNode α} {c : Int8} {key : List Int8}
    (found : trieNodeFind node (c :: key) = some cursor) :
    node.children.len ≠ 0 ∧
      ∃ child ∈ node.children.nodes, trieNodeFind child key = some cursor := by
  rw [trieNodeFind, linearSearch] at found
  split at found
  · cases found
  · rename_i before child after searched
    split at searched
    · cases searched
    · rename_i counting
      exact ⟨counting, child, linearSearchFrom_mem searched, found⟩

section Visits

variable {base done : σ → Prop} {target : TrieNode α} {mapfunc : TrieNode α → σ → σ}
  (stays : ∀ node arg, base arg → base (mapfunc node arg))
  (kept : ∀ node arg, done arg → done (mapfunc node arg))
include stays kept

/-- What one child has done is not undone by the others. -/
theorem triePrefixMapChildren_visits {child : TrieNode α} {nodes : List (TrieNode α)}
    (member : child ∈ nodes)
    (reached : ∀ arg, base arg → done (triePrefixMapFunc2 mapfunc child arg)) {arg : σ}
    (start : base arg) : done (triePrefixMapChildren mapfunc nodes arg) := by
  induction nodes generalizing arg with
  | nil => cases member
  | cons first next ih =>
      rw [triePrefixMapChildren]
      obtain rfl | later := List.mem_cons.mp member
      · have keeps := @triePrefixMapChildren_rel α σ (fun s t => done s → done t) mapfunc
          (fun _ => id) (fun _ _ _ early late => late ∘ early) kept next
        exact keeps _ (reached arg start)
      · have holds := @triePrefixMapFunc2_rel α σ (fun s t => base s → base t) mapfunc
          (fun _ => id) (fun _ _ _ early late => late ∘ early) stays first arg
        exact ih later (holds start)

variable (reached : ∀ arg, base arg → done (mapfunc target arg))
include reached

/-- Every node below the one that is started from is visited. -/
theorem triePrefixMapFunc2_visits {key : List Int8} {node : TrieNode α}
    (found : trieNodeFind node key = some target) {arg : σ} (start : base arg) :
    done (triePrefixMapFunc2 mapfunc node arg) := by
  induction key generalizing node arg with
  | nil =>
      cases found
      obtain ⟨chr, ⟨nodes, len⟩, data⟩ := target
      have below := @triePrefixMapChildren_rel α σ (fun s t => base s → base t) mapfunc
        (fun _ => id) (fun _ _ _ early late => late ∘ early) stays nodes arg
      rw [triePrefixMapFunc2]
      split
      · exact reached arg start
      · exact reached _ (below start)
  | cons c key ih =>
      obtain ⟨chr, ⟨nodes, len⟩, data⟩ := node
      obtain ⟨counting, child, member, below⟩ := exists_child_of_trieNodeFind found
      rw [TrieNode.children_node] at counting
      rw [triePrefixMapFunc2, if_neg counting]
      apply kept
      exact triePrefixMapChildren_visits stays kept member (fun _ => ih below) start

/-- Every key that extends the prefix is visited. -/
theorem triePrefixMapTuple_visits {trie : Trie α} {pfx key : CString}
    (below : pfx.bytes <+: key.bytes) (found : trieNodeFind trie.root key.chars = some target)
    {arg : σ} (start : base arg) : done (triePrefixMapTuple trie pfx mapfunc arg) := by
  obtain ⟨rest, split⟩ := below
  rw [CString.chars, ← split, List.map_append, trieNodeFind_append] at found
  obtain ⟨node, start', found⟩ := Option.bind_eq_some_iff.mp found
  have start' : trieNodeFind trie.root pfx.chars = some node := start'
  rw [triePrefixMapTuple, start']
  exact triePrefixMapFunc2_visits stays kept reached found start

end Visits

end SolBroker
