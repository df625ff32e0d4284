import Mathlib
import SolBroker.Lib.Keyed
import SolBroker.Trie.List

/-!
# Nodes of the topic trie

The functions of trie.c that walk a node, on keys read as the signed characters the
compiler compares. A linear search stops at the first larger character, so it is
right only on children sorted by character; `Ordered` states that once for the whole
tree, together with the list lengths, and every operation keeps it.

A child is pushed and sorted into place with its subtree already filled in, where
the code fills it in afterwards through the pointer: sorting reads `chr` alone.
-/

namespace SolBroker

variable {α : Type*}

inductive TrieNode (α : Type*)
  | node (chr : Int8) (children : CList (TrieNode α)) (data : Option α)

namespace TrieNode

def chr : TrieNode α → Int8
  | node chr _ _ => chr

def children : TrieNode α → CList (TrieNode α)
  | node _ children _ => children

def data : TrieNode α → Option α
  | node _ _ data => data

@[simp] theorem children_node (c : Int8) (l : CList (TrieNode α)) (d : Option α) :
    (node c l d).children = l := rfl

end TrieNode

open TrieNode

/-- A list node found by a search: the nodes before it, its data, those after. -/
abbrev Place (α : Type*) := List (TrieNode α) × TrieNode α × List (TrieNode α)

/-- The loop of `linear_search`. -/
def linearSearchFrom (value : Int) : List (TrieNode α) → Option (Place α)
  | [] => none
  | cur :: next =>
      if cur.chr.toInt = value then some ([], cur, next)
      else if cur.chr.toInt > value then none
      else (linearSearchFrom value next).map fun (before, found, after) =>
        (cur :: before, found, after)

def linearSearch (list : CList (TrieNode α)) (value : Int) : Option (Place α) :=
  if list.len = 0 then none else linearSearchFrom value list.nodes

/-- `with_char`, against a node that carries `chr`. -/
def withChar (chr : Int8) (tn : TrieNode α) : Bool :=
  tn.chr == chr

def trieIsFreeNode (node : TrieNode α) : Bool :=
  node.children.len == 0

def trieCreateNode (c : Int8) : TrieNode α :=
  node c listCreate none

def trieNodeFind : TrieNode α → List Int8 → Option (TrieNode α)
  | retnode, [] => some retnode
  | retnode, c :: pfx =>
      match linearSearch retnode.children c.toInt with
      | none => none
      | some (_, child, _) => trieNodeFind child pfx

/-- The two statements by which `trie_node_insert` adds a child. -/
def pushSorted (children : CList (TrieNode α)) (child : TrieNode α) : CList (TrieNode α) :=
  let pushed := listPush children child
  { pushed with nodes := mergeSortTnode (fun n => n.chr.toInt) pushed.nodes }

/-- `trie_node_insert`, with the node it leaves and the size. -/
def trieNodeInsert (value : α) : TrieNode α → List Int8 → Nat → TrieNode α × Nat
  | node chr children old, [], size =>
      (node chr children (some value), if old.isNone then size + 1 else size)
  | node chr children old, c :: key, size =>
      match linearSearch children c.toInt with
      | none =>
          let (child, size) := trieNodeInsert value (trieCreateNode c) key size
          (node chr (pushSorted children child) old, size)
      | some (before, child, after) =>
          let (child, size) := trieNodeInsert value child key size
          (node chr { children with nodes := before ++ child :: after } old, size)

/-- What `trie_node_free` and `trie_node_recursive_delete` do to the size when they
release the data of a node. -/
def releaseData (data : Option α) (size : Nat) : Nat :=
  if data.isSome then (if 0 < size then size - 1 else size) else size

mutual

/-- `trie_node_free`, as the size it leaves. -/
def trieNodeFree : TrieNode α → Nat → Nat
  | node _ ⟨nodes, _⟩ data, size => releaseData data (trieNodesFree nodes size)

def trieNodesFree : List (TrieNode α) → Nat → Nat
  | [], size => size
  | cur :: next, size => trieNodesFree next (trieNodeFree cur size)

end

/-- The outcome of `trie_node_recursive_delete`: the node it leaves, the size, the
found flag, and whether the caller is to remove the node. -/
structure Deleted (α : Type*) where
  node : TrieNode α
  size : Nat
  found : Bool
  prune : Bool

def trieNodeRecursiveDelete : TrieNode α → List Int8 → Nat → Deleted α
  | node chr children data, [], size =>
      if data.isSome then
        { node := node chr children none, size := releaseData data size, found := true,
          prune := trieIsFreeNode (node chr children (none : Option α)) }
      else { node := node chr children data, size, found := false, prune := false }
  | node chr children data, c :: key, size =>
      match linearSearch children c.toInt with
      | none => { node := node chr children data, size, found := false, prune := false }
      | some (before, child, after) =>
          let below := trieNodeRecursiveDelete child key size
          let children := { children with nodes := before ++ below.node :: after }
          if below.prune then
            let left := node chr (listRemove children (withChar c)) data
            { node := left, size := trieNodeFree below.node below.size, found := below.found,
              prune := left.data.isNone && trieIsFreeNode left }
          else { below with node := node chr children data, prune := false }

/-! ## The order of the children -/

/-- Children strictly ascend, their number is recorded, and the same holds below. -/
inductive Ordered : TrieNode α → Prop
  | intro {chr : Int8} {children : CList (TrieNode α)} {data : Option α}
      (counted : children.Counted)
      (ascending : children.nodes.Pairwise fun m n => m.chr.toInt < n.chr.toInt)
      (below : ∀ child ∈ children.nodes, Ordered child) :
      Ordered (node chr children data)

theorem ordered_trieCreateNode (c : Int8) : Ordered (trieCreateNode c : TrieNode α) :=
  .intro counted_listCreate .nil (by simp [listCreate])

theorem distinct_of_ascending {nodes : List (TrieNode α)}
    (ascending : nodes.Pairwise fun m n => m.chr.toInt < n.chr.toInt) :
    Keyed.Distinct TrieNode.chr nodes :=
  ascending.imp fun less same => by simp [same] at less

/-- On ascending children the early stop misses nothing. -/
theorem linearSearchFrom_spec {nodes : List (TrieNode α)} (c : Int8)
    (ascending : nodes.Pairwise fun m n => m.chr.toInt < n.chr.toInt) :
    match linearSearchFrom c.toInt nodes with
    | none => ∀ n ∈ nodes, n.chr ≠ c
    | some (before, child, after) => nodes = before ++ child :: after ∧ child.chr = c := by
  induction ascending with
  | nil => simp [linearSearchFrom]
  | @cons cur next larger _ ih =>
      rw [linearSearchFrom]
      by_cases here : cur.chr.toInt = c.toInt
      · rw [if_pos here]
        exact ⟨rfl, Int8.toInt_inj.mp here⟩
      · have notHere : cur.chr ≠ c := fun same => here (congrArg Int8.toInt same)
        rw [if_neg here]
        by_cases beyond : cur.chr.toInt > c.toInt
        · rw [if_pos beyond]
          intro n member
          rcases List.mem_cons.mp member with rfl | later
          · exact notHere
          · rintro rfl
            have := larger n later
            omega
        · rw [if_neg beyond]
          cases found : linearSearchFrom c.toInt next with
          | none =>
              simp only [found, Option.map_none] at ih ⊢
              intro n member
              rcases List.mem_cons.mp member with rfl | later
              · exact notHere
              · exact ih n later
          | some place =>
              obtain ⟨before, child, after⟩ := place
              simp only [found, Option.map_some] at ih ⊢
              obtain ⟨split, keyed⟩ := ih
              exact ⟨by rw [split, List.cons_append], keyed⟩

/-- The two outcomes of a search. -/
theorem linearSearch_cases {children : CList (TrieNode α)} (counted : children.Counted)
    (ascending : children.nodes.Pairwise fun m n => m.chr.toInt < n.chr.toInt) (c : Int8) :
    (linearSearch children c.toInt = none ∧ Keyed.find? chr c children.nodes = none) ∨
      ∃ before child after, linearSearch children c.toInt = some (before, child, after) ∧
        children.nodes = before ++ child :: after ∧ child.chr = c ∧
        Keyed.find? chr c children.nodes = some child := by
  have distinct := distinct_of_ascending ascending
  have spec := linearSearchFrom_spec c ascending
  by_cases empty : children.len = 0
  · simp [linearSearch, empty, counted.eq_nil empty]
  · rw [linearSearch, if_neg empty]
    cases found : linearSearchFrom c.toInt children.nodes with
    | none =>
        rw [found] at spec
        exact .inl ⟨rfl, Keyed.find?_eq_none_iff.mpr spec⟩
    | some place =>
        obtain ⟨before, child, after⟩ := place
        rw [found] at spec
        obtain ⟨split, keyed⟩ := spec
        refine .inr ⟨before, child, after, rfl, split, keyed, ?_⟩
        rw [Keyed.find?_eq_some_iff distinct, split]
        exact ⟨by simp, keyed⟩

/-! ## Looking a key up -/

/-- The data `trie_node_find` leads to. -/
def TrieNode.lookup (root : TrieNode α) (key : List Int8) : Option α :=
  (trieNodeFind root key).bind data

@[simp] theorem lookup_nil (root : TrieNode α) : root.lookup [] = root.data := rfl

/-- One step of a walk goes to the child with the character, wherever it is. -/
theorem trieNodeFind_cons {root : TrieNode α} (ordered : Ordered root) (c : Int8)
    (key : List Int8) :
    trieNodeFind root (c :: key) =
      (Keyed.find? chr c root.children.nodes).bind fun child => trieNodeFind child key := by
  obtain ⟨counted, ascending, _⟩ := ordered
  rcases linearSearch_cases counted ascending c with
    ⟨missing, absent⟩ | ⟨before, child, after, found, _, _, present⟩
  · simp [trieNodeFind, missing, absent]
  · simp [trieNodeFind, found, present]

theorem lookup_cons {root : TrieNode α} (ordered : Ordered root) (c : Int8) (key : List Int8) :
    root.lookup (c :: key) =
      (Keyed.find? chr c root.children.nodes).bind fun child => child.lookup key := by
  rw [TrieNode.lookup, trieNodeFind_cons ordered, Option.bind_assoc]
  rfl

@[simp] theorem lookup_trieCreateNode (c : Int8) (key : List Int8) :
    (trieCreateNode c : TrieNode α).lookup key = none := by
  cases key with
  | nil => rfl
  | cons a key =>
      rw [lookup_cons (ordered_trieCreateNode c)]
      simp [trieCreateNode, listCreate]

/-! ## Changing one child

Each change of the children list keeps the order and changes the lookups through one
character only. -/

/-- The lookups of a node are those of another, but for the keys below `c`. -/
def AgreesBut (c : Int8) (below : List Int8 → Option α) (root changed : TrieNode α) : Prop :=
  ∀ a key, changed.lookup (a :: key) = if a = c then below key else root.lookup (a :: key)

section Children

variable {c : Int8} {children : CList (TrieNode α)} {before after : List (TrieNode α)}
  {data : Option α} {child child' : TrieNode α}

theorem Ordered.setData (ordered : Ordered (node c children data)) (data' : Option α) :
    Ordered (node c children data') := by
  obtain ⟨counted, ascending, below⟩ := ordered
  exact .intro counted ascending below

theorem lookup_setData (ordered : Ordered (node c children data)) (data' : Option α) (a : Int8)
    (key : List Int8) :
    (node c children data').lookup (a :: key) = (node c children data).lookup (a :: key) := by
  rw [lookup_cons ordered, lookup_cons (ordered.setData data')]
  rfl

/-- Sorting a fresh child in keeps the children strictly ascending. -/
theorem ascending_pushSorted {nodes : List (TrieNode α)}
    (ascending : nodes.Pairwise fun m n => m.chr.toInt < n.chr.toInt)
    (fresh : ∀ n ∈ nodes, n.chr ≠ child.chr) :
    (mergeSortTnode (fun n => n.chr.toInt) (child :: nodes)).Pairwise
      fun m n => m.chr.toInt < n.chr.toInt := by
  have sorted := mergeSortTnode_sorted (fun n : TrieNode α => n.chr.toInt) (child :: nodes)
  have distinct : Keyed.Distinct chr (child :: nodes) :=
    List.pairwise_cons.mpr ⟨fun n member => (fresh n member).symm,
      distinct_of_ascending ascending⟩
  have apart := distinct.perm (mergeSortTnode_perm (fun n => n.chr.toInt) (child :: nodes)).symm
  refine (sorted.and apart).imp fun {m n} both => lt_of_le_of_ne both.1 fun same => ?_
  exact both.2 (Int8.toInt_inj.mp same)

theorem Ordered.push (ordered : Ordered (node c children data)) (inner : Ordered child)
    (absent : Keyed.find? chr child.chr children.nodes = none) :
    Ordered (node c (pushSorted children child) data) ∧
      AgreesBut child.chr child.lookup (node c children data)
        (node c (pushSorted children child) data) := by
  have whole := ordered
  obtain ⟨counted, ascending, below⟩ := ordered
  have fresh := Keyed.find?_eq_none_iff.mp absent
  have perm := mergeSortTnode_perm (fun n => n.chr.toInt) (child :: children.nodes)
  have nodes : (pushSorted children child).nodes =
      mergeSortTnode (fun n => n.chr.toInt) (child :: children.nodes) := by
    simp only [pushSorted, nodes_listPush counted]
  have pushed : Ordered (node c (pushSorted children child) data) := by
    refine .intro ?_ (nodes ▸ ascending_pushSorted ascending fresh) fun n member => ?_
    · rw [CList.Counted, nodes, perm.length_eq, List.length_cons, ← counted]
      rfl
    · rw [nodes] at member
      rcases List.mem_cons.mp (perm.mem_iff.mp member) with rfl | old
      · exact inner
      · exact below n old
  refine ⟨pushed, fun a key => ?_⟩
  have distinct := distinct_of_ascending (ascending_pushSorted ascending fresh)
  rw [lookup_cons pushed, lookup_cons whole, children_node, children_node, nodes,
    Keyed.find?_perm distinct perm, Keyed.find?_cons]
  split <;> rfl

theorem Ordered.replace (ordered : Ordered (node c children data)) (inner : Ordered child')
    (split : children.nodes = before ++ child :: after) (same : child'.chr = child.chr) :
    Ordered (node c { children with nodes := before ++ child' :: after } data) ∧
      AgreesBut child.chr child'.lookup (node c children data)
        (node c { children with nodes := before ++ child' :: after } data) := by
  have whole := ordered
  obtain ⟨counted, ascending, below⟩ := ordered
  rw [split] at ascending below
  have ascending' : (before ++ child' :: after).Pairwise fun m n => m.chr.toInt < n.chr.toInt := by
    rw [← List.pairwise_map (f := fun n : TrieNode α => n.chr.toInt) (R := (· < ·))] at ascending ⊢
    simpa [same] using ascending
  have replaced : Ordered (node c { children with nodes := before ++ child' :: after } data) := by
    refine .intro ?_ ascending' fun n member => ?_
    · change children.len = _
      rw [counted, split]
      simp
    · rcases List.mem_append.mp member with early | late
      · exact below n (List.mem_append_left _ early)
      · rcases List.mem_cons.mp late with rfl | late
        · exact inner
        · exact below n (by simp [late])
  refine ⟨replaced, fun a key => ?_⟩
  rw [lookup_cons replaced, lookup_cons whole, children_node, children_node, split,
    Keyed.find?_replace (distinct_of_ascending ascending) same]
  split <;> rfl

theorem Ordered.drop (ordered : Ordered (node c children data))
    (split : children.nodes = before ++ child :: after) :
    Ordered (node c { nodes := before ++ after, len := children.len - 1 } data) ∧
      AgreesBut child.chr (fun _ => none) (node c children data)
        (node c { nodes := before ++ after, len := children.len - 1 } data) := by
  have whole := ordered
  obtain ⟨counted, ascending, below⟩ := ordered
  rw [split] at ascending below
  have kept : (before ++ after).Sublist (before ++ child :: after) :=
    (List.sublist_cons_self _ _).append_left _
  have dropped : Ordered (node c { nodes := before ++ after, len := children.len - 1 } data) := by
    refine .intro ?_ (ascending.sublist kept) fun n member => below n (kept.subset member)
    change children.len - 1 = _
    rw [counted, split]
    simp
  refine ⟨dropped, fun a key => ?_⟩
  rw [lookup_cons dropped, lookup_cons whole, children_node, children_node, split,
    Keyed.find?_drop (distinct_of_ascending ascending)]
  split <;> rfl

end Children

/-! ## Inserting -/

/-- What `trie_node_insert` is for. -/
structure Inserts (value : α) (root : TrieNode α) (key : List Int8) (size : Nat)
    (result : TrieNode α × Nat) : Prop where
  ordered : Ordered result.1
  chr : result.1.chr = root.chr
  size : result.2 = if (root.lookup key).isNone then size + 1 else size
  lookup : ∀ other, result.1.lookup other = if other = key then some value else root.lookup other

theorem trieNodeInsert_inserts (value : α) {root : TrieNode α} (ordered : Ordered root)
    (key : List Int8) (size : Nat) :
    Inserts value root key size (trieNodeInsert value root key size) := by
  induction key generalizing root size with
  | nil =>
      obtain ⟨chr, children, old⟩ := root
      refine ⟨ordered.setData _, rfl, rfl, fun other => ?_⟩
      cases other with
      | nil => rfl
      | cons a other =>
          rw [if_neg (List.cons_ne_nil a other)]
          exact lookup_setData ordered (some value) a other
  | cons c key ih =>
      obtain ⟨chr, children, old⟩ := root
      have ⟨counted, ascending, below⟩ := ordered
      rcases linearSearch_cases counted ascending c with
        ⟨missing, absent⟩ | ⟨before, child, after, found, split, rfl, present⟩
      · simp only [trieNodeInsert, missing]
        have inner := ih (ordered_trieCreateNode c) size
        generalize trieNodeInsert value (trieCreateNode c) key size = inserted at inner
        obtain ⟨child, size'⟩ := inserted
        obtain rfl : child.chr = c := inner.chr
        obtain ⟨pushed, agrees⟩ := ordered.push inner.ordered absent
        refine ⟨pushed, rfl, ?_, fun other => ?_⟩
        · simpa [lookup_cons ordered, absent] using inner.size
        · cases other with
          | nil => rfl
          | cons a other =>
              rw [agrees]
              by_cases here : a = child.chr
              · subst here
                simp [inner.lookup, lookup_cons ordered, absent]
              · simp [here]
      · simp only [trieNodeInsert, found]
        have inner := ih (below child (by rw [split]; simp)) size
        generalize trieNodeInsert value child key size = inserted at inner
        obtain ⟨child', size'⟩ := inserted
        obtain ⟨replaced, agrees⟩ := ordered.replace inner.ordered split inner.chr
        refine ⟨replaced, rfl, ?_, fun other => ?_⟩
        · simpa [lookup_cons ordered, present] using inner.size
        · cases other with
          | nil => rfl
          | cons a other =>
              rw [agrees]
              by_cases here : a = child.chr
              · subst here
                simp [inner.lookup, lookup_cons ordered, present]
              · simp [here]

/-! ## Deleting -/

/-- A node with nothing on it or below it. -/
def TrieNode.Bare (n : TrieNode α) : Prop :=
  n.data = none ∧ n.children.nodes = []

theorem TrieNode.Bare.lookup {n : TrieNode α} (bare : n.Bare) (ordered : Ordered n)
    (key : List Int8) : n.lookup key = none := by
  cases key with
  | nil => exact bare.1
  | cons c key => simp [lookup_cons ordered, bare.2]

/-- Freeing a node that was pruned releases no data. -/
theorem TrieNode.Bare.free {n : TrieNode α} (bare : n.Bare) (size : Nat) :
    trieNodeFree n size = size := by
  obtain ⟨chr, ⟨nodes, len⟩, data⟩ := n
  obtain ⟨rfl, rfl⟩ : data = none ∧ nodes = [] := bare
  simp [trieNodeFree, trieNodesFree, releaseData]

theorem Ordered.bare {n : TrieNode α} (ordered : Ordered n)
    (free : (n.data.isNone && trieIsFreeNode n) = true) : n.Bare := by
  obtain ⟨counted, _, _⟩ := ordered
  simp only [Bool.and_eq_true, Option.isNone_iff_eq_none, trieIsFreeNode, beq_iff_eq] at free
  exact ⟨free.1, counted.eq_nil free.2⟩

/-- `list_remove` takes out the one child with the character. -/
theorem listRemove_withChar {children : CList (TrieNode α)} {before after : List (TrieNode α)}
    {child child' : TrieNode α} (distinct : Keyed.Distinct chr (before ++ child :: after))
    (same : child'.chr = child.chr) :
    listRemove { children with nodes := before ++ child' :: after } (withChar child.chr) =
      { nodes := before ++ after, len := children.len - 1 } := by
  have earlier : ∀ n ∈ before, withChar child.chr n = false := by
    intro n member
    have apart := (List.pairwise_append.mp distinct).2.2 n member child (by simp)
    simpa [withChar] using apart
  have here : withChar child.chr child' = true := by simp [withChar, same]
  simp only [listRemove, listNodeRemove_middle earlier here]

theorem releaseData_eq (data : Option α) (size : Nat) :
    releaseData data size = if data.isSome then size - 1 else size := by
  unfold releaseData
  split
  · split <;> omega
  · rfl

/-- What `trie_node_recursive_delete` is for. -/
structure Deletes (root : TrieNode α) (key : List Int8) (size : Nat) (result : Deleted α) :
    Prop where
  ordered : Ordered result.node
  chr : result.node.chr = root.chr
  found : result.found = (root.lookup key).isSome
  size : result.size = if (root.lookup key).isSome then size - 1 else size
  lookup : ∀ other, result.node.lookup other = if other = key then none else root.lookup other
  prune : result.prune = true → result.node.Bare

/-- Nothing is deleted where the key has no data. -/
theorem Deletes.absent {root : TrieNode α} {key : List Int8} (ordered : Ordered root)
    (none_ : root.lookup key = none) (size : Nat) :
    Deletes root key size { node := root, size, found := false, prune := false } where
  ordered := ordered
  chr := rfl
  found := by simp [none_]
  size := by simp [none_]
  lookup := fun other => by
    split
    · rename_i same
      rw [same, none_]
    · rfl
  prune := by simp

theorem trieNodeRecursiveDelete_deletes {root : TrieNode α} (ordered : Ordered root)
    (key : List Int8) (size : Nat) :
    Deletes root key size (trieNodeRecursiveDelete root key size) := by
  induction key generalizing root size with
  | nil =>
      obtain ⟨chr, children, data⟩ := root
      cases data with
      | none => exact .absent ordered rfl size
      | some value =>
          refine ⟨ordered.setData none, rfl, rfl, releaseData_eq (some value) size,
            fun other => ?_, fun free => (ordered.setData none).bare free⟩
          cases other with
          | nil => rfl
          | cons a other =>
              rw [if_neg (List.cons_ne_nil a other)]
              exact lookup_setData ordered none a other
  | cons c key ih =>
      obtain ⟨chr, children, data⟩ := root
      have ⟨counted, ascending, below⟩ := ordered
      rcases linearSearch_cases counted ascending c with
        ⟨missing, absent⟩ | ⟨before, child, after, found, split, rfl, present⟩
      · simp only [trieNodeRecursiveDelete, missing]
        exact .absent ordered (by simp [lookup_cons ordered, absent]) size
      · simp only [trieNodeRecursiveDelete, found]
        have inner := ih (below child (by rw [split]; simp)) size
        generalize trieNodeRecursiveDelete child key size = deleted at inner
        have reaches (other : List Int8) :
            (TrieNode.node chr children data).lookup (child.chr :: other) = child.lookup other := by
          simp [lookup_cons ordered, present]
        by_cases pruned : deleted.prune = true
        · have bare := inner.prune pruned
          have distinct := distinct_of_ascending ascending
          rw [split] at distinct
          obtain ⟨dropped, agrees⟩ := ordered.drop split
          simp only [pruned, if_true, listRemove_withChar distinct inner.chr, bare.free]
          refine ⟨dropped, rfl, ?_, ?_, fun other => ?_, dropped.bare⟩
          · rw [inner.found, reaches]
          · rw [inner.size, reaches]
          · cases other with
            | nil => rfl
            | cons a other =>
                rw [agrees]
                by_cases here : a = child.chr
                · -- a pruned node leaves no lookup, so only `key` had data below it
                  have gone := inner.lookup other
                  rw [bare.lookup inner.ordered] at gone
                  subst here
                  simpa [reaches] using gone
                · simp [here]
        · obtain ⟨replaced, agrees⟩ := ordered.replace inner.ordered split inner.chr
          simp only [pruned, if_false, Bool.false_eq_true]
          refine ⟨replaced, rfl, ?_, ?_, fun other => ?_, by simp⟩
          · rw [inner.found, reaches]
          · rw [inner.size, reaches]
          · cases other with
            | nil => rfl
            | cons a other =>
                rw [agrees]
                by_cases here : a = child.chr
                · subst here
                  simp [inner.lookup, reaches]
                · simp [here]

end SolBroker
