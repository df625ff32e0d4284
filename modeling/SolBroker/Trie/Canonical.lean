import Mathlib
import SolBroker.Lib.Run
import SolBroker.Trie.PrefixDelete

/-!
# Branches that end in data

A node below the root with neither children nor data is a dead branch: it spells no key
of the trie. Insertions and deletions leave none behind, since a deletion prunes on its
way up. `trie_prefix_delete` deletes its prefix while the freed children are still in the
list, so nothing is pruned there, and the node it then clears is one. Without dead
branches a trie is determined by what is found in it.
-/

namespace SolBroker

open TrieNode Transition

variable {α : Type*}

/-- Every branch from the node on ends in data. -/
inductive Alive : TrieNode α → Prop
  | intro {chr : Int8} {children : CList (TrieNode α)} {data : Option α}
      (used : children.nodes = [] → data.isSome) (below : ∀ child ∈ children.nodes, Alive child) :
      Alive (node chr children data)

/-- The node itself may be bare, as the root of an empty trie is. -/
def BranchesAlive (n : TrieNode α) : Prop :=
  ∀ child ∈ n.children.nodes, Alive child

theorem Alive.branches {n : TrieNode α} (alive : Alive n) : BranchesAlive n := by
  obtain ⟨_, below⟩ := alive
  exact below

theorem branchesAlive_trieCreateNode (c : Int8) :
    BranchesAlive (trieCreateNode c : TrieNode α) := by
  intro child member
  cases member

/-- Some key leads from a node that is alive to data. -/
theorem Alive.exists_lookup {n : TrieNode α} (alive : Alive n) (ordered : Ordered n) :
    ∃ key, (n.lookup key).isSome := by
  induction alive with
  | @intro chr children data used _ ih =>
      have whole := ordered
      obtain ⟨counted, ascending, below⟩ := ordered
      cases nodes : children.nodes with
      | nil => exact ⟨[], used nodes⟩
      | cons child next =>
          have member : child ∈ children.nodes := by simp [nodes]
          obtain ⟨key, found⟩ := ih child member (below child member)
          have first := (Keyed.find?_eq_some_iff (distinct_of_ascending ascending)).mpr
            ⟨member, rfl⟩
          refine ⟨child.chr :: key, ?_⟩
          rw [lookup_cons whole, children_node, first]
          exact found

/-! ## The canonical tree -/

/-- A node has a child for a character exactly if some key through it has data. -/
theorem find?_eq_none_iff_lookup {n : TrieNode α} (ordered : Ordered n) (alive : BranchesAlive n)
    (c : Int8) :
    Keyed.find? chr c n.children.nodes = none ↔ ∀ key, n.lookup (c :: key) = none := by
  have whole := ordered
  obtain ⟨counted, ascending, below⟩ := ordered
  rename_i children data
  rw [children_node]
  cases hit : Keyed.find? chr c children.nodes with
  | none => simp [lookup_cons whole, hit]
  | some child =>
      obtain ⟨member, _⟩ := (Keyed.find?_eq_some_iff (distinct_of_ascending ascending)).mp hit
      obtain ⟨key, found⟩ := (alive child member).exists_lookup (below child member)
      apply iff_of_false (Option.some_ne_none child)
      intro nowhere
      have gone := nowhere key
      rw [lookup_cons whole, children_node, hit] at gone
      simp only [Option.bind_some] at gone
      simp [gone] at found

/-- Ascending children are determined by what is found for each character. -/
theorem nodes_eq_of_find?_eq {nodes nodes' : List (TrieNode α)}
    (ascending : nodes.Pairwise fun m n => m.chr.toInt < n.chr.toInt)
    (ascending' : nodes'.Pairwise fun m n => m.chr.toInt < n.chr.toInt)
    (agree : ∀ c, Keyed.find? chr c nodes = Keyed.find? chr c nodes') : nodes = nodes' := by
  have irreflexive : Std.Irrefl fun m n : TrieNode α => m.chr.toInt < n.chr.toInt :=
    ⟨fun _ => lt_irrefl _⟩
  have asymmetric : Std.Asymm fun m n : TrieNode α => m.chr.toInt < n.chr.toInt :=
    ⟨fun _ _ => lt_asymm⟩
  have held {list : List (TrieNode α)}
      (ascending : list.Pairwise fun m n => m.chr.toInt < n.chr.toInt) (child : TrieNode α) :
      Keyed.find? chr child.chr list = some child ↔ child ∈ list := by
    rw [Keyed.find?_eq_some_iff (distinct_of_ascending ascending), and_iff_left rfl]
  apply ascending.eq_of_mem_iff ascending'
  intro child
  rw [← held ascending, ← held ascending', agree]

/-- Nodes in order and without dead branches are told apart by a lookup. -/
theorem eq_of_lookup_eq {n m : TrieNode α} (ordered : Ordered n) (ordered' : Ordered m)
    (alive : BranchesAlive n) (alive' : BranchesAlive m) (chr : n.chr = m.chr)
    (same : ∀ key, n.lookup key = m.lookup key) : n = m := by
  induction ordered generalizing m with
  | @intro c children data counted ascending below ih =>
      have whole : Ordered (node c children data) := .intro counted ascending below
      have found := find?_eq_none_iff_lookup whole alive
      have found' := find?_eq_none_iff_lookup ordered' alive'
      have whole' := ordered'
      obtain ⟨counted', ascending', below'⟩ := ordered'
      rename_i c' children' data'
      obtain rfl : c = c' := chr
      obtain rfl : data = data' := same []
      rw [children_node] at found found'
      have distinct := distinct_of_ascending ascending
      have distinct' := distinct_of_ascending ascending'
      have agree (a : Int8) :
          Keyed.find? TrieNode.chr a children.nodes =
            Keyed.find? TrieNode.chr a children'.nodes := by
        have none_iff := (found a).trans ((forall_congr' fun key => by rw [same]).trans
          (found' a).symm)
        cases hit : Keyed.find? TrieNode.chr a children.nodes with
        | none => exact (none_iff.mp hit).symm
        | some child =>
            cases hit' : Keyed.find? TrieNode.chr a children'.nodes with
            | none => simp [hit', hit] at none_iff
            | some child' =>
                obtain ⟨member, rfl⟩ := (Keyed.find?_eq_some_iff distinct).mp hit
                obtain ⟨member', keyed⟩ := (Keyed.find?_eq_some_iff distinct').mp hit'
                have inner (key : List Int8) : child.lookup key = child'.lookup key := by
                  have through := same (child.chr :: key)
                  rw [lookup_cons whole, lookup_cons whole', children_node, children_node, hit,
                    hit'] at through
                  exact through
                exact congrArg some (ih child member (below' child' member')
                  (alive child member).branches (alive' child' member').branches keyed.symm inner)
      have nodes := nodes_eq_of_find?_eq ascending ascending' agree
      obtain ⟨list, len⟩ := children
      obtain ⟨list', len'⟩ := children'
      obtain rfl : list = list' := nodes
      obtain rfl : len = len' := counted.trans counted'.symm
      rfl

/-! ## What the operations leave -/

theorem mem_pushSorted {children : CList (TrieNode α)} (counted : children.Counted)
    (child n : TrieNode α) :
    n ∈ (pushSorted children child).nodes ↔ n = child ∨ n ∈ children.nodes := by
  have perm := mergeSortTnode_perm (fun n : TrieNode α => n.chr.toInt) (child :: children.nodes)
  simp only [pushSorted, nodes_listPush counted]
  rw [perm.mem_iff, List.mem_cons]

/-- A node that is not pruned carries data or has a child. -/
theorem Ordered.used_of_kept {n : TrieNode α} (ordered : Ordered n)
    (kept : (n.data.isNone && trieIsFreeNode n) = false) :
    n.children.nodes = [] → n.data.isSome := by
  intro empty
  obtain ⟨counted, _, _⟩ := ordered
  rw [children_node] at empty
  rw [CList.Counted, empty, List.length_nil] at counted
  simpa [trieIsFreeNode, counted] using kept

theorem alive_replace {before after : List (TrieNode α)} {child child' : TrieNode α}
    (alive : ∀ n ∈ before ++ child :: after, Alive n) (inner : Alive child') :
    ∀ n ∈ before ++ child' :: after, Alive n := by
  intro n member
  obtain early | late := List.mem_append.mp member
  · exact alive n (List.mem_append_left _ early)
  · obtain rfl | late := List.mem_cons.mp late
    · exact inner
    · exact alive n (List.mem_append_right _ (List.mem_cons_of_mem _ late))

/-- An insertion walks down to data, so everything it passes ends in data. -/
theorem alive_trieNodeInsert (value : α) {root : TrieNode α} (ordered : Ordered root)
    (alive : BranchesAlive root) (key : List Int8) (size : Nat) :
    Alive (trieNodeInsert value root key size).1 := by
  induction key generalizing root size with
  | nil =>
      obtain ⟨chr, children, old⟩ := root
      exact .intro (fun _ => rfl) alive
  | cons c key ih =>
      obtain ⟨chr, children, old⟩ := root
      obtain ⟨counted, ascending, below⟩ := ordered
      rcases linearSearch_cases counted ascending c with
        ⟨missing, _⟩ | ⟨before, child, after, found, split, _, _⟩
      · simp only [trieNodeInsert, missing]
        have inner := ih (ordered_trieCreateNode c) (branchesAlive_trieCreateNode c) size
        refine .intro (fun empty => ?_) fun n member => ?_
        · have new := (mem_pushSorted counted (trieNodeInsert value (trieCreateNode c) key size).1
            _).mpr (.inl rfl)
          rw [empty] at new
          cases new
        · obtain rfl | old := (mem_pushSorted counted _ _).mp member
          · exact inner
          · exact alive n old
      · simp only [trieNodeInsert, found]
        have member : child ∈ children.nodes := by simp [split]
        have inner := ih (below child member) (alive child member).branches size
        rw [BranchesAlive, children_node, split] at alive
        exact .intro (by simp) (alive_replace alive inner)

/-- A deletion prunes every node that it leaves bare, up to the one it starts from. -/
theorem alive_trieNodeRecursiveDelete {root : TrieNode α} (ordered : Ordered root)
    (alive : BranchesAlive root) (key : List Int8) (size : Nat) :
    BranchesAlive (trieNodeRecursiveDelete root key size).node ∧
      (Alive root → (trieNodeRecursiveDelete root key size).prune = false →
        Alive (trieNodeRecursiveDelete root key size).node) := by
  induction key generalizing root size with
  | nil =>
      obtain ⟨chr, children, data⟩ := root
      cases data with
      | none => exact ⟨alive, fun whole _ => whole⟩
      | some value =>
          refine ⟨alive, fun _ kept => .intro ?_ alive⟩
          exact (ordered.setData none).used_of_kept kept
  | cons c key ih =>
      obtain ⟨chr, children, data⟩ := root
      have ⟨counted, ascending, below⟩ := ordered
      rcases linearSearch_cases counted ascending c with
        ⟨missing, _⟩ | ⟨before, child, after, found, split, rfl, _⟩
      · simp only [trieNodeRecursiveDelete, missing]
        exact ⟨alive, fun whole _ => whole⟩
      · have member : child ∈ children.nodes := by simp [split]
        have deletes := trieNodeRecursiveDelete_deletes (below child member) key size
        have childAlive := alive child member
        obtain ⟨_, kept⟩ := ih (below child member) childAlive.branches size
        rw [BranchesAlive, children_node, split] at alive
        simp only [trieNodeRecursiveDelete, found]
        generalize trieNodeRecursiveDelete child key size = deleted at deletes kept
        by_cases pruned : deleted.prune = true
        · have distinct := distinct_of_ascending ascending
          rw [split] at distinct
          obtain ⟨dropped, _⟩ := ordered.drop split
          simp only [pruned, if_true, listRemove_withChar distinct deletes.chr]
          have others : ∀ n ∈ before ++ after, Alive n := fun n member =>
            alive n (((List.sublist_cons_self child after).append_left before).subset member)
          exact ⟨others, fun _ free => .intro (dropped.used_of_kept free) others⟩
        · have all := alive_replace alive (kept childAlive (by simpa using pruned))
          simp only [pruned, if_false, Bool.false_eq_true]
          exact ⟨all, fun _ _ => .intro (by simp) all⟩

/-! ## Undoing an insertion -/

/-- The tries that insertions and deletions build. -/
inductive Built : Trie α → Prop
  | init : Built trieInit
  | insert {trie : Trie α} (key : CString) (data : α) (built : Built trie) :
      Built (trieInsert trie key data)
  | delete {trie : Trie α} (key : CString) (built : Built trie) : Built (trieDelete trie key).1

theorem branchesAlive_trieInsert {trie : Trie α} (ordered : Ordered trie.root)
    (alive : BranchesAlive trie.root) (key : CString) (data : α) :
    BranchesAlive (trieInsert trie key data).root :=
  (alive_trieNodeInsert data ordered alive key.chars trie.size).branches

theorem branchesAlive_trieDelete {trie : Trie α} (ordered : Ordered trie.root)
    (alive : BranchesAlive trie.root) (key : CString) :
    BranchesAlive (trieDelete trie key).1.root := by
  unfold trieDelete
  split
  · exact (alive_trieNodeRecursiveDelete ordered alive key.chars trie.size).1
  · exact alive

theorem Built.spells {trie : Trie α} (built : Built trie) :
    (∃ m, Spells trie m) ∧ BranchesAlive trie.root := by
  induction built with
  | init => exact ⟨⟨∅, spells_trieInit⟩, branchesAlive_trieCreateNode 32⟩
  | insert key data _ ih =>
      obtain ⟨⟨m, spells⟩, alive⟩ := ih
      exact ⟨⟨_, spells.insert key data⟩, branchesAlive_trieInsert spells.ordered alive key data⟩
  | delete key _ ih =>
      obtain ⟨⟨m, spells⟩, alive⟩ := ih
      exact ⟨⟨_, spells.delete key⟩, branchesAlive_trieDelete spells.ordered alive key⟩

/-- `trie_find` tells a trie apart from every other one that ends in data everywhere. -/
theorem Spells.eq_of_find_eq {trie trie' : Trie α} {m m' : TopicMap α} (spells : Spells trie m)
    (spells' : Spells trie' m') (alive : BranchesAlive trie.root)
    (alive' : BranchesAlive trie'.root) (chr : trie.root.chr = trie'.root.chr)
    (same : ∀ key, trieFind trie key = trieFind trie' key) : trie = trie' := by
  have lookup (key : List Int8) : trie.root.lookup key = trie'.root.lookup key := by
    by_cases spelled : ∃ k : CString, k.chars = key
    · obtain ⟨k, rfl⟩ := spelled
      rw [← trieFind_eq_lookup, ← trieFind_eq_lookup, same]
    · have absent := mt (spells.spelled key) spelled
      have absent' := mt (spells'.spelled key) spelled
      simp only [Bool.not_eq_true, Option.isSome_eq_false_iff, Option.isNone_iff_eq_none]
        at absent absent'
      rw [absent, absent']
  have root := eq_of_lookup_eq spells.ordered spells'.ordered alive alive' chr lookup
  have size : trie.size = trie'.size := by
    have keys (key : CString) : m.lookup key = m'.lookup key := by
      rw [← spells.find, ← spells'.find, same]
    exact spells.size.trans ((TopicMap.length_keys_eq keys).trans spells'.size.symm)
  obtain ⟨root, size⟩ := trie
  obtain ⟨root', size'⟩ := trie'
  congr

theorem Built.chr {trie : Trie α} (built : Built trie) : trie.root.chr = 32 := by
  induction built with
  | init => rfl
  | @insert trie key data built ih =>
      obtain ⟨⟨m, spells⟩, _⟩ := built.spells
      exact (trieNodeInsert_inserts data spells.ordered key.chars trie.size).chr.trans ih
  | @delete trie key built ih =>
      obtain ⟨⟨m, spells⟩, _⟩ := built.spells
      unfold trieDelete
      split
      · exact (trieNodeRecursiveDelete_deletes spells.ordered key.chars trie.size).chr.trans ih
      · exact ih

theorem Built.eq_of_find_eq {trie trie' : Trie α} (built : Built trie) (built' : Built trie')
    (same : ∀ key, trieFind trie key = trieFind trie' key) : trie = trie' := by
  obtain ⟨⟨m, spells⟩, alive⟩ := built.spells
  obtain ⟨⟨m', spells'⟩, alive'⟩ := built'.spells
  exact spells.eq_of_find_eq spells' alive alive' (built.chr.trans built'.chr.symm) same

/-- Deleting a key that was just inserted gives the trie back, node for node, and tries that
insertions and deletions build in whatever order are equal once they hold the same data for
the same keys. -/
theorem trieDelete_undoes_trieInsert :
    (∀ (trie : Trie α) (key : CString) (data : α), Built trie → key.bytes ≠ [] →
      trieFind trie key = none → trieDelete (trieInsert trie key data) key = (trie, true)) ∧
      ∀ trie trie' : Trie α, Built trie → Built trie' →
        (∀ key, trieFind trie key = trieFind trie' key) → trie = trie' := by
  refine ⟨fun trie key data built nonempty absent => ?_, fun trie trie' => Built.eq_of_find_eq⟩
  obtain ⟨⟨m, spells⟩, _⟩ := built.spells
  have there := built.insert key data
  have inserted := spells.toRepresents.insert key data
  obtain ⟨deleted, flag⟩ := inserted.delete nonempty
  have back : (trieDelete (trieInsert trie key data) key).1 = trie := by
    apply (there.delete key).eq_of_find_eq built
    intro other
    rw [deleted.find]
    by_cases same : other = key
    · rw [same, AList.lookup_erase, absent]
    · rw [AList.lookup_erase_ne same, AList.lookup_insert_ne same, spells.find]
  rw [← Prod.mk.eta (p := trieDelete (trieInsert trie key data) key), back, flag]
  simp

/-- Inserting `ab` below `a` and deleting it again; and `a` and `b` inserted either way
round. -/
theorem trieDelete_undoes_trieInsert_keyAB :
    let one := trieInsert (trieInit : Trie Nat) keyA 1
    trieDelete (trieInsert one keyAB 2) keyAB = (one, true) ∧
      trieInsert one keyB 3 = trieInsert (trieInsert trieInit keyB 3) keyA 1 := by
  have undone := @trieDelete_undoes_trieInsert Nat
  have one : Built (trieInsert (trieInit : Trie Nat) keyA 1) := .insert keyA 1 .init
  have other : Built (trieInsert (trieInit : Trie Nat) keyB 3) := .insert keyB 3 .init
  refine ⟨undone.1 _ keyAB 2 one (by decide) (by decide),
    undone.2 _ _ (.insert keyB 3 one) (.insert keyA 1 other) fun key => ?_⟩
  rw [((represents_trieInit.insert keyA 1).insert keyB 3).find key,
    ((represents_trieInit.insert keyB 3).insert keyA 1).find key]
  exact AList.perm_lookup (AList.insert_insert_of_ne ∅ (by decide))

/-! ## Dead branches -/

/-- No dead branch, children strictly ascending, and every length right. -/
structure NoDeadBranches (trie : Trie α) : Prop where
  ordered : Ordered trie.root
  alive : BranchesAlive trie.root

/-- The key or the prefix of a call. -/
def TrieEdit.key : TrieEdit α → CString
  | insert key _ | delete key | prefixDelete key => key

/-- A call with a key that has a character in it. -/
def TrieEdit.Calls (trie : Trie α) (op : TrieEdit α) (trie' : Trie α) : Prop :=
  op.key.bytes ≠ [] ∧ trie' = op.apply trie

/-- The node of a prefix that is deleted has no children, if there is such a node. -/
def LeavesNoStump (trie : Trie α) : TrieEdit α → Prop
  | .insert .. | .delete _ => True
  | .prefixDelete pfx => ∀ cursor, trieNodeFind trie.root pfx.chars = some cursor →
      cursor.children.len = 0

theorem linearSearchFrom_replace {value : Int} {nodes before after : List (TrieNode α)}
    {child child' : TrieNode α}
    (found : linearSearchFrom value nodes = some (before, child, after))
    (same : child'.chr = child.chr) :
    linearSearchFrom value (before ++ child' :: after) = some (before, child', after) := by
  induction nodes generalizing before with
  | nil => cases found
  | cons cur next ih =>
      rw [linearSearchFrom] at found
      split at found
      · rename_i here
        cases found
        rw [List.nil_append, linearSearchFrom, same, if_pos here]
      · rename_i notHere
        split at found
        · cases found
        · rename_i notBeyond
          obtain ⟨⟨before', child₀, after'⟩, later, done⟩ := Option.map_eq_some_iff.mp found
          cases done
          rw [List.cons_append, linearSearchFrom, if_neg notHere, if_neg notBeyond, ih later]
          rfl

theorem chr_trieNodeModify {change : TrieNode α → TrieNode α} (keeps : ∀ n, (change n).chr = n.chr)
    (root : TrieNode α) (key : List Int8) : (trieNodeModify change root key).chr = root.chr := by
  cases key with
  | nil => exact keeps root
  | cons c key =>
      obtain ⟨chr, children, data⟩ := root
      rw [trieNodeModify]
      cases linearSearch children c.toInt <;> rfl

/-- A changed node is found where the node was. -/
theorem trieNodeFind_trieNodeModify {change : TrieNode α → TrieNode α}
    (keeps : ∀ n, (change n).chr = n.chr) (root : TrieNode α) (key : List Int8) :
    trieNodeFind (trieNodeModify change root key) key = (trieNodeFind root key).map change := by
  induction key generalizing root with
  | nil => rfl
  | cons c key ih =>
      obtain ⟨chr, children, data⟩ := root
      rw [trieNodeModify]
      cases found : linearSearch children c.toInt with
      | none => simp [trieNodeFind, found]
      | some place =>
          obtain ⟨before, child, after⟩ := place
          have below :
              trieNodeFind (node chr children data) (c :: key) = trieNodeFind child key := by
            simp only [trieNodeFind, children_node, found]
          rw [below]
          have searched := found
          unfold linearSearch at searched
          split at searched
          · cases searched
          · rename_i counting
            have again := linearSearchFrom_replace searched (chr_trieNodeModify keeps child key)
            simp only [trieNodeFind, children_node, linearSearch, if_neg counting, again]
            exact ih child

/-- Below a node that is alive every node is. -/
theorem Alive.find {root cursor : TrieNode α} (alive : Alive root) {key : List Int8}
    (found : trieNodeFind root key = some cursor) : Alive cursor := by
  induction key generalizing root with
  | nil =>
      cases found
      exact alive
  | cons c key ih =>
      obtain ⟨_, below⟩ := alive
      obtain ⟨_, child, member, reached⟩ := exists_child_of_trieNodeFind found
      exact ih (below child member) reached

theorem BranchesAlive.find {root cursor : TrieNode α} (alive : BranchesAlive root) {c : Int8}
    {key : List Int8} (found : trieNodeFind root (c :: key) = some cursor) : Alive cursor := by
  -- nothing but the children of the root is looked at, whatever its data
  obtain ⟨_, child, member, reached⟩ := exists_child_of_trieNodeFind found
  exact (alive child member).find reached

theorem BranchesAlive.exists_lookup {n : TrieNode α} (alive : BranchesAlive n)
    (ordered : Ordered n) (inner : n.children.len ≠ 0) :
    ∃ c key, (n.lookup (c :: key)).isSome := by
  have whole := ordered
  obtain ⟨counted, ascending, below⟩ := ordered
  rename_i children data
  obtain ⟨child, member⟩ : ∃ child, child ∈ children.nodes := by
    refine List.exists_mem_of_ne_nil _ fun empty => inner ?_
    rw [children_node, counted, empty, List.length_nil]
  obtain ⟨key, found⟩ := (alive child member).exists_lookup (below child member)
  refine ⟨child.chr, key, ?_⟩
  rw [lookup_cons whole, children_node,
    (Keyed.find?_eq_some_iff (distinct_of_ascending ascending)).mpr ⟨member, rfl⟩]
  exact found

theorem chr_clearChildren (n : TrieNode α) : (clearChildren n).chr = n.chr := by
  cases n
  rfl

/-- Clearing a node that keeps no data leaves it dead. -/
theorem not_alive_clearChildren {n : TrieNode α} (bare : n.data = none) :
    ¬ Alive (clearChildren n) := by
  obtain ⟨chr, children, data⟩ := n
  rintro ⟨used, _⟩
  have held : data.isSome := used (nodes_listClear children)
  obtain rfl : data = none := bare
  cases held

/-- Past a node that has children the prefix still leads to a node once its key is deleted. -/
theorem trieNodeFind_trieDelete {trie : Trie α} (ordered : Ordered trie.root)
    (alive : BranchesAlive trie.root) {pfx : CString} {cursor : TrieNode α}
    (found : trieNodeFind trie.root pfx.chars = some cursor) (nonempty : pfx.bytes ≠ [])
    (inner : cursor.children.len ≠ 0) :
    ∃ n, trieNodeFind (trieDelete trie pfx).1.root pfx.chars = some n ∧ n.data = none := by
  obtain ⟨_, lookup, _⟩ := trieDelete_spec ordered pfx
  obtain ⟨c, rest, chars⟩ : ∃ c rest, pfx.chars = c :: rest :=
    List.exists_cons_of_ne_nil fun none_ => nonempty (List.map_eq_nil_iff.mp none_)
  have through := found
  rw [chars] at through
  obtain ⟨a, key, held⟩ :=
    (alive.find through).branches.exists_lookup (ordered.find found) inner
  have beyond : (trieDelete trie pfx).1.root.lookup (pfx.chars ++ a :: key) =
      cursor.lookup (a :: key) := by
    rw [lookup, if_neg (by simp), TrieNode.lookup, trieNodeFind_append, found]
    rfl
  have own := lookup pfx.chars
  rw [TrieNode.lookup, trieNodeFind_append] at beyond
  cases here : trieNodeFind (trieDelete trie pfx).1.root pfx.chars with
  | none =>
      rw [here] at beyond
      rw [← beyond] at held
      cases held
  | some n =>
      refine ⟨n, rfl, ?_⟩
      rw [if_pos ⟨rfl, nonempty⟩, TrieNode.lookup, here] at own
      exact own

/-- A call keeps the branches alive exactly if it is no `trie_prefix_delete` of an inner
node. -/
theorem branchesAlive_apply_iff {trie : Trie α} (ordered : Ordered trie.root)
    (alive : BranchesAlive trie.root) {op : TrieEdit α} (nonempty : op.key.bytes ≠ []) :
    BranchesAlive (op.apply trie).root ↔ LeavesNoStump trie op := by
  cases op with
  | insert key data => exact iff_of_true (branchesAlive_trieInsert ordered alive key data) trivial
  | delete key => exact iff_of_true (branchesAlive_trieDelete ordered alive key) trivial
  | prefixDelete pfx =>
      show BranchesAlive (triePrefixDelete trie pfx).root ↔ _
      unfold triePrefixDelete LeavesNoStump
      cases found : trieNodeFind trie.root pfx.chars with
      | none => exact iff_of_true alive fun _ same => nomatch found.symm.trans same
      | some cursor =>
          dsimp only
          split
          · rename_i leaf
            apply iff_of_true (branchesAlive_trieDelete ordered alive pfx)
            intro other same
            rw [← Option.some.inj (found.symm.trans same)]
            exact leaf
          · rename_i inner
            refine iff_of_false (fun still => ?_) fun leaf => inner (leaf cursor found)
            let freed : Trie α :=
              { trie with size := trieNodesFree cursor.children.nodes trie.size }
            obtain ⟨n, there, bare⟩ :=
              @trieNodeFind_trieDelete α freed ordered alive pfx cursor found nonempty inner
            obtain ⟨c, rest, chars⟩ : ∃ c rest, pfx.chars = c :: rest :=
              List.exists_cons_of_ne_nil fun none_ => nonempty (List.map_eq_nil_iff.mp none_)
            have stump := trieNodeFind_trieNodeModify chr_clearChildren
              (trieDelete freed pfx).1.root pfx.chars
            rw [there, Option.map_some] at stump
            rw [chars] at still stump
            exact not_alive_clearChildren bare (still.find stump)

/-- In every run of calls from an empty trie, the children lists ascend and their lengths
are right; and no state has a dead branch exactly if no `trie_prefix_delete` of the run is
given a prefix whose node has children. -/
theorem noDeadBranches_iff {tr : List (Trie α × TrieEdit α)} {trie : Trie α}
    (run : Run TrieEdit.Calls trieInit tr trie) :
    Ordered trie.root ∧ (((∀ visit ∈ tr, NoDeadBranches visit.1) ∧ NoDeadBranches trie) ↔
      ∀ visit ∈ tr, LeavesNoStump visit.1 visit.2) := by
  have start : ∃ m : TopicMap α, Spells (trieInit : Trie α) m := ⟨∅, spells_trieInit⟩
  have kept (trie : Trie α) (op : TrieEdit α) (trie' : Trie α)
      (spells : ∃ m, Spells trie m) (called : op.Calls trie trie') : ∃ m, Spells trie' m := by
    obtain ⟨m, spells⟩ := spells
    obtain ⟨_, rfl⟩ := called
    exact ⟨_, spells.apply op⟩
  obtain ⟨m, spells⟩ := @Run.invariant _ _ _ _ (fun trie => ∃ m, Spells trie m) start kept _ _ run
  refine ⟨spells.ordered, @Run.invariant_iff _ _ _ _ (fun trie => ∃ m, Spells trie m)
    NoDeadBranches LeavesNoStump start kept ?_ ?_ _ _ run⟩
  · exact ⟨spells_trieInit.ordered, branchesAlive_trieCreateNode 32⟩
  · rintro trie op _ ⟨m, spells⟩ ⟨_, alive⟩ ⟨nonempty, rfl⟩
    rw [← branchesAlive_apply_iff spells.ordered alive nonempty]
    exact ⟨NoDeadBranches.alive, fun alive => ⟨(spells.apply op).ordered, alive⟩⟩

/-- A run that deletes below the leaf `ab`. -/
theorem noDeadBranches_keyAB :
    NoDeadBranches (triePrefixDelete (trieInsert (trieInit : Trie Nat) keyAB 1) keyAB) := by
  have inserted : TrieEdit.Calls (trieInit : Trie Nat) (.insert keyAB 1)
      (trieInsert trieInit keyAB 1) := ⟨by decide, rfl⟩
  have deleted : TrieEdit.Calls (trieInsert (trieInit : Trie Nat) keyAB 1) (.prefixDelete keyAB)
      (triePrefixDelete (trieInsert trieInit keyAB 1) keyAB) := ⟨by decide, rfl⟩
  refine ((noDeadBranches_iff ((Run.nil.snoc inserted).snoc deleted)).2.mpr ?_).2
  intro visit member
  simp only [List.nil_append, List.cons_append, List.mem_cons, List.not_mem_nil, or_false] at member
  obtain rfl | rfl := member
  · trivial
  · intro cursor found
    have leaf : trieNodeFind (trieInsert (trieInit : Trie Nat) keyAB 1).root keyAB.chars =
        some (node 98 listCreate (some 1)) := rfl
    obtain rfl := Option.some.inj (leaf.symm.trans found)
    rfl

/-- Deleting below `a` when only `ab` is there leaves a node for `a` with nothing on it. -/
theorem deadBranch_keyA :
    ¬ ∀ ops : List (TrieEdit Nat), (∀ op ∈ ops, op.key.bytes ≠ []) →
      NoDeadBranches (ops.foldl TrieEdit.apply trieInit) := by
  intro always
  have dead :=
    always [.insert keyAB 1, .prefixDelete keyA] (by simp [TrieEdit.key, keyAB, keyA, cstr])
  have stump : ([.insert keyAB 1, .prefixDelete keyA].foldl TrieEdit.apply
      (trieInit : Trie Nat)).root = node 32 ⟨[node 97 ⟨[], 0⟩ none], 1⟩ none := rfl
  have alive := dead.alive
  rw [stump] at alive
  obtain ⟨used, _⟩ := alive _ (List.mem_singleton_self _)
  cases used rfl

end SolBroker
