import Mathlib
import SolBroker.Lib.Path
import SolBroker.Memory

/-!
# Linked lists in memory

The operations of list.c on nodes in a heap, with the three fields of a `List` that have to
agree: `head`, `tail` and `len`. A comparison function is given the node, with its address,
and has the value looked for already filled in. What an operation does is stated on
the addresses reachable from `head`; the data that nodes point to is the caller's.
-/

namespace SolBroker

open Heap

variable {δ : Type}

/-- `struct list_node`. -/
structure ListNode (δ : Type) where
  data : δ
  next : Option Nat
deriving DecidableEq, Repr

/-- `struct list`, with the heap its nodes are on. -/
structure LinkedList (δ : Type) where
  nodes : Heap (ListNode δ)
  head : Option Nat
  tail : Option Nat
  len : Nat
deriving DecidableEq, Repr

/-- A `compare_func`; zero stands for equal. -/
abbrev CompareFunc (δ : Type) := Nat → ListNode δ → Int

namespace LinkedList

/-- `list_create`. -/
def create (nodes : Heap (ListNode δ)) : LinkedList δ where
  nodes := nodes
  head := none
  tail := none
  len := 0

/-- `list_push`. -/
def push (l : LinkedList δ) (val : δ) : LinkedList δ :=
  let newNode := l.nodes.next
  if l.len = 0 then
    { nodes := l.nodes.alloc ⟨val, none⟩, head := some newNode, tail := some newNode,
      len := l.len + 1 }
  else
    { l with nodes := l.nodes.alloc ⟨val, l.head⟩, head := some newNode, len := l.len + 1 }

/-- `list_push_back`. -/
def pushBack (l : LinkedList δ) (val : δ) : Except Fault (LinkedList δ) :=
  let newNode := l.nodes.next
  let nodes := l.nodes.alloc ⟨val, none⟩
  if l.len = 0 then
    .ok { nodes, head := some newNode, tail := some newNode, len := l.len + 1 }
  else do
    let (tail, node) ← derefObj nodes l.tail
    let nodes := nodes.write tail { node with next := some newNode }
    return { l with nodes, tail := some newNode, len := l.len + 1 }

/-- The loop of `list_clear`. -/
def clearLoop : Nat → Heap (ListNode δ) → Option Nat → Except Fault (Heap (ListNode δ))
  | 0, nodes, _ => .ok nodes
  | len + 1, nodes, h => do
      let (p, node) ← derefObj nodes h
      clearLoop len (nodes.free p) node.next

/-- `list_clear`. -/
def clear (l : LinkedList δ) : Except Fault (LinkedList δ) :=
  if l.head = none then .ok l
  else do
    let nodes ← clearLoop l.len l.nodes l.head
    return create nodes

section Remove

variable (cmp : CompareFunc δ)

/-- `list_node_remove` to depth `fuel`, with the new head and the counter. -/
def nodeRemove : Nat → Heap (ListNode δ) → Option Nat →
    Except Fault (Option Nat × Nat × Heap (ListNode δ))
  | _, nodes, none => .ok (none, 0, nodes)
  | 0, _, some _ => .error .noReturn
  | fuel + 1, nodes, some head => do
      let node ← deref nodes head
      if cmp head node = 0 then return (node.next, 1, nodes.free head)
      else do
        let (next, counter, nodes) ← nodeRemove fuel nodes node.next
        return (some head, counter, nodes.write head { node with next })

/-- `list_remove`. No list is longer than the addresses that have been handed out. -/
def remove (l : LinkedList δ) : Except Fault (LinkedList δ) := do
  let (head, counter, nodes) ← nodeRemove cmp l.nodes.next l.nodes l.head
  return { l with nodes, head, len := l.len - counter }

/-- `list_remove_single_node` to depth `fuel`, with the new head and the node found. -/
def removeSingleNode : Nat → Heap (ListNode δ) → Option Nat → Option Nat →
    Except Fault (Option Nat × Option Nat × Heap (ListNode δ))
  | _, nodes, none, ret => .ok (none, ret, nodes)
  | 0, _, some _, _ => .error .noReturn
  | fuel + 1, nodes, some head, ret => do
      let node ← deref nodes head
      if cmp head node = 0 ∧ ret = none then return (node.next, some head, nodes)
      else do
        let (next, ret, nodes) ← removeSingleNode fuel nodes node.next ret
        return (some head, ret, nodes.write head { node with next })

/-- `list_remove_node`, which drops the new head that the recursion returns. -/
def removeNode (l : LinkedList δ) : Except Fault (Option Nat × LinkedList δ) :=
  if l.len = 0 then .ok (none, l)
  else do
    let (_, found, nodes) ← removeSingleNode cmp l.nodes.next l.nodes l.head none
    match found with
    | none => return (none, { l with nodes })
    | some p => do
        let node ← deref nodes p
        return (some p, { l with nodes := nodes.write p { node with next := none },
                                 len := l.len - 1 })

end Remove

/-- The addresses are those of the nodes reachable from `head`, in order. -/
def Reaches (l : LinkedList δ) (ps : List Nat) : Prop :=
  Path ListNode.next l.nodes l.head ps none

/-- The data of the node at an address. -/
def dataAt (l : LinkedList δ) (p : Nat) : Option δ := (l.nodes.get? p).map ListNode.data

/-- The node at an address compares equal. -/
def Hit (cmp : CompareFunc δ) (nodes : Heap (ListNode δ)) (p : Nat) : Bool :=
  (nodes.get? p).any fun node => cmp p node == 0

section Recursion

variable {cmp : CompareFunc δ} {nodes nodes' : Heap (ListNode δ)} {p : Nat} {node : ListNode δ}
  {start next : Option Nat} {ps : List Nat}

theorem hit_iff (live : nodes.get? p = some node) : Hit cmp nodes p = true ↔ cmp p node = 0 := by
  simp [Hit, live]

theorem miss_iff (live : nodes.get? p = some node) :
    Hit cmp nodes p = false ↔ cmp p node ≠ 0 := by
  rw [← Bool.not_eq_true, hit_iff live]

/-- A change of the pointer in a node in front of a path, off the path. -/
theorem path_write_next (live : nodes.get? p = some node) (off : p ∉ ps)
    (rest : Path ListNode.next nodes next ps none) :
    Path ListNode.next (nodes.write p { node with next }) (some p) (p :: ps) none := by
  refine ⟨rfl, { node with next }, ?_, rest.write live off⟩
  rw [get?_write live, if_pos rfl]

/-- What `list_node_remove` leaves of the nodes at `ps`. -/
structure Removed (cmp : CompareFunc δ) (nodes : Heap (ListNode δ)) (ps : List Nat)
    (result : Option Nat × Nat × Heap (ListNode δ)) : Prop where
  path : Path ListNode.next result.2.2 result.1 (ps.eraseP (Hit cmp nodes)) none
  counted : (ps.eraseP (Hit cmp nodes)).length + result.2.1 = ps.length
  data : ∀ q ∈ ps.eraseP (Hit cmp nodes),
    (result.2.2.get? q).map ListNode.data = (nodes.get? q).map ListNode.data
  frame : ∀ q ∉ ps, result.2.2.get? q = nodes.get? q

/-- The first node goes; its memory is freed. -/
theorem removed_hit (live : nodes.get? p = some node) (off : p ∉ ps)
    (rest : Path ListNode.next nodes node.next ps none) (hit : Hit cmp nodes p = true) :
    Removed cmp nodes (p :: ps) (node.next, 1, nodes.free p) := by
  constructor
  · rw [List.eraseP_cons_of_pos hit]
    exact rest.free off
  · rw [List.eraseP_cons_of_pos hit]
    rfl
  · rw [List.eraseP_cons_of_pos hit]
    intro q member
    rw [get?_free, if_neg]
    rintro rfl
    exact off member
  · intro q outside
    rw [get?_free, if_neg]
    rintro rfl
    exact outside (List.mem_cons_self ..)

/-- The first node stays, in front of what the rest becomes. -/
theorem Removed.cons {result : Option Nat × Nat × Heap (ListNode δ)}
    (removed : Removed cmp nodes ps result) (live : nodes.get? p = some node) (off : p ∉ ps)
    (miss : ¬ Hit cmp nodes p = true) :
    Removed cmp nodes (p :: ps)
      (some p, result.2.1, result.2.2.write p { node with next := result.1 }) := by
  have live' := (removed.frame p off).trans live
  constructor
  · rw [List.eraseP_cons_of_neg miss]
    exact path_write_next live' (mt List.mem_of_mem_eraseP off) removed.path
  · rw [List.eraseP_cons_of_neg miss, List.length_cons, List.length_cons, ← removed.counted]
    dsimp only
    omega
  · rw [List.eraseP_cons_of_neg miss]
    intro q member
    rw [get?_write live']
    by_cases same : q = p
    · rw [if_pos same, same, live]
      rfl
    · rw [if_neg same]
      exact removed.data q ((List.mem_cons.mp member).resolve_left same)
  · intro q outside
    obtain ⟨differs, outside⟩ := not_or.mp (mt List.mem_cons.mpr outside)
    rw [get?_write live', if_neg differs]
    exact removed.frame q outside

theorem nodeRemove_removed (path : Path ListNode.next nodes start ps none) {fuel : Nat}
    (enough : ps.length ≤ fuel) :
    ∃ result, nodeRemove cmp fuel nodes start = .ok result ∧ Removed cmp nodes ps result := by
  induction ps generalizing start fuel with
  | nil =>
      obtain rfl : start = none := path
      refine ⟨(none, 0, nodes), ?_, ⟨rfl, rfl, by simp, fun _ _ => rfl⟩⟩
      cases fuel <;> rfl
  | cons p ps ih =>
      have distinct := List.nodup_cons.mp path.nodup
      obtain ⟨rfl, node, live, rest⟩ := path
      obtain ⟨fuel, rfl⟩ := Nat.exists_eq_succ_of_ne_zero (by simp at enough; omega : fuel ≠ 0)
      rw [nodeRemove, deref_eq_ok.mpr live]
      by_cases equal : cmp p node = 0
      · exact ⟨_, if_pos equal, removed_hit live distinct.1 rest ((hit_iff live).mpr equal)⟩
      · obtain ⟨result, ran, removed⟩ := ih rest (by simpa using enough)
        refine ⟨_, ?_, removed.cons live distinct.1 (mt (hit_iff live).mp equal)⟩
        change (if cmp p node = 0 then _ else _) = _
        rw [if_neg equal, ran]
        rfl

/-- The loop of `list_clear` finds as many nodes as it is to free. -/
theorem clearLoop_ok (path : Path ListNode.next nodes start ps none) :
    ∃ nodes', clearLoop ps.length nodes start = .ok nodes' := by
  induction ps generalizing nodes start with
  | nil => exact ⟨nodes, rfl⟩
  | cons p ps ih =>
      have distinct := List.nodup_cons.mp path.nodup
      obtain ⟨rfl, node, live, rest⟩ := path
      obtain ⟨nodes', cleared⟩ := ih (rest.free distinct.1)
      refine ⟨nodes', ?_⟩
      rw [List.length_cons, clearLoop, derefObj, deref, live]
      exact cleared

end Recursion

/-! ## What the operations leave -/

section Operations

variable {l l' : LinkedList δ} {ps qs : List Nat}

/-- The nodes reachable after an operation, with their number, and the data of those that
were there before. -/
structure Becomes (l l' : LinkedList δ) (ps : List Nat) : Prop where
  reaches : l'.Reaches ps
  len : l'.len = ps.length
  kept : ∀ q ∈ ps, ∀ x, l.dataAt q = some x → l'.dataAt q = some x

theorem dataAt_alloc (l' : LinkedList δ) {node : ListNode δ}
    (nodes : l'.nodes = l.nodes.alloc node) {q : Nat} {x : δ} (there : l.dataAt q = some x) :
    l'.dataAt q = some x := by
  obtain ⟨old, live, same⟩ := Option.map_eq_some_iff.mp there
  rw [dataAt, nodes, get?_alloc_of_live live, Option.map_some, same]

theorem dataAt_next (l' : LinkedList δ) {val : δ} {next : Option Nat}
    (nodes : l'.nodes = l.nodes.alloc ⟨val, next⟩) : l'.dataAt l.nodes.next = some val := by
  rw [dataAt, nodes, get?_alloc, if_pos rfl]
  rfl

/-- Either push puts the first node at both ends. -/
theorem first_becomes (counted : l.len = ps.length) (empty : l.len = 0) (val : δ) :
    ps = [] ∧ Becomes l
      { nodes := l.nodes.alloc ⟨val, none⟩, head := some l.nodes.next,
        tail := some l.nodes.next, len := l.len + 1 } [l.nodes.next] := by
  refine ⟨List.length_eq_zero_iff.mp (counted.symm.trans empty), ⟨rfl, ⟨val, none⟩, ?_, rfl⟩, ?_,
    ?_⟩
  · rw [get?_alloc, if_pos rfl]
  · rw [empty]
    rfl
  · intro q _ x there
    exact dataAt_alloc _ rfl there

variable (reaches : l.Reaches ps) (counted : l.len = ps.length)
include reaches counted

theorem push_becomes (val : δ) :
    Becomes l (l.push val) (l.nodes.next :: ps) ∧ (l.push val).dataAt l.nodes.next = some val ∧
      (l.push val).tail = if ps = [] then some l.nodes.next else l.tail := by
  unfold push
  by_cases empty : l.len = 0
  · obtain ⟨rfl, becomes⟩ := first_becomes counted empty val
    rw [if_pos empty, if_pos rfl]
    exact ⟨becomes, dataAt_next _ rfl, rfl⟩
  · have nonempty : ps ≠ [] := by
      rintro rfl
      exact empty counted
    rw [if_neg empty, if_neg nonempty]
    refine ⟨⟨⟨rfl, ⟨val, l.head⟩, ?_, reaches.alloc⟩, ?_, ?_⟩, ?_, rfl⟩
    · rw [get?_alloc, if_pos rfl]
    · rw [counted]
      rfl
    · intro q _ x there
      exact dataAt_alloc _ rfl there
    · exact dataAt_next _ rfl

theorem remove_becomes (cmp : CompareFunc δ) :
    ∃ l', l.remove cmp = .ok l' ∧ Becomes l l' (ps.eraseP (Hit cmp l.nodes)) ∧
      l'.tail = l.tail := by
  obtain ⟨result, ran, removed⟩ := @nodeRemove_removed δ cmp _ _ _ reaches _ reaches.length_le
  refine ⟨{ l with nodes := result.2.2, head := result.1, len := l.len - result.2.1 }, ?_,
    ⟨removed.path, ?_, ?_⟩, rfl⟩
  · rw [remove, ran]
    rfl
  · have length := removed.counted
    show l.len - result.2.1 = _
    omega
  · intro q member x there
    exact (removed.data q member).trans there

/-- With the tail right, a value is pushed behind the last node. -/
theorem pushBack_becomes (last : ps ≠ [] → l.tail = ps.getLast?) (val : δ) :
    ∃ l', l.pushBack val = .ok l' ∧ Becomes l l' (ps ++ [l.nodes.next]) ∧
      l'.dataAt l.nodes.next = some val ∧ l'.tail = some l.nodes.next := by
  by_cases empty : l.len = 0
  · obtain ⟨rfl, becomes⟩ := first_becomes counted empty val
    exact ⟨_, if_pos empty, becomes, dataAt_next _ rfl, rfl⟩
  · have nonempty : ps ≠ [] := by
      rintro rfl
      exact empty counted
    obtain ⟨front, t, rfl⟩ := (List.eq_nil_or_concat' ps).resolve_left nonempty
    have tail : l.tail = some t := (last nonempty).trans List.getLast?_concat
    obtain ⟨node, live⟩ := reaches.live (List.mem_append_right front (List.mem_singleton_self t))
    have live' : (l.nodes.alloc ⟨val, none⟩).get? t = some node := get?_alloc_of_live live
    let linked : ListNode δ := { node with next := some l.nodes.next }
    refine ⟨{ l with nodes := (l.nodes.alloc ⟨val, none⟩).write t linked,
                     tail := some l.nodes.next, len := l.len + 1 }, ?_, ⟨?_, ?_, ?_⟩, ?_, rfl⟩
    · rw [pushBack, if_neg empty, tail, derefObj, deref, live']
      rfl
    · exact reaches.link live rfl rfl
    · rw [counted]
      simp
    · intro q _ x held
      rw [dataAt, get?_write live']
      by_cases here : q = t
      · rw [dataAt, here, live] at held
        rw [if_pos here]
        exact held
      · rw [if_neg here]
        exact dataAt_alloc { l with nodes := l.nodes.alloc ⟨val, none⟩ } rfl held
    · rw [dataAt, get?_write live', if_neg (lt_next live).ne', get?_alloc, if_pos rfl]
      rfl

theorem clear_becomes : ∃ l', l.clear = .ok l' ∧ Becomes l l' [] := by
  unfold clear
  by_cases empty : l.head = none
  · obtain rfl : ps = [] := reaches.unique (empty ▸ path_nil.mpr rfl)
    exact ⟨l, if_pos empty, reaches, counted, by simp⟩
  · obtain ⟨nodes, cleared⟩ := @clearLoop_ok δ l.nodes l.head ps reaches
    refine ⟨create nodes, ?_, rfl, rfl, by simp⟩
    rw [if_neg empty, counted, cleared]
    rfl

end Operations

/-! ## A list of two values -/

/-- Equal are the nodes that hold the value. -/
def compareTo (val : Nat) : CompareFunc Nat := fun _ node => if node.data = val then 0 else 1

/-- The list after 1 and 2 have been pushed at the back. -/
def oneTwo : LinkedList Nat where
  nodes := ⟨[some ⟨1, some 1⟩, some ⟨2, none⟩]⟩
  head := some 0
  tail := some 1
  len := 2

theorem reaches_oneTwo : oneTwo.Reaches [0, 1] :=
  ⟨rfl, ⟨1, some 1⟩, rfl, rfl, ⟨2, none⟩, rfl, rfl⟩

end LinkedList

end SolBroker
