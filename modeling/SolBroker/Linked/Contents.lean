import Mathlib
import SolBroker.Lib.Run
import SolBroker.Trie.List
import SolBroker.Linked.Tail

/-!
# The data on a list

Where nobody asks for the nodes themselves, a list is the data on its nodes with a length, as
the children of a trie node are given. The nodes in memory follow such a list value call by
call, as long as nodes are compared by their data and nothing is pushed at the back.
-/

namespace SolBroker

namespace LinkedList

open Heap Transition

variable {δ : Type}

/-- The data of the nodes reachable from `head` is that of a list value. -/
structure Holds (l : LinkedList δ) (c : CList δ) : Prop where
  nodes : ∃ ps, l.Reaches ps ∧ l.len = ps.length ∧ ps.map l.dataAt = c.nodes.map some
  len : c.len = l.len

theorem listNodeRemove_fst (cmp : δ → Bool) (xs : List δ) :
    (listNodeRemove cmp xs).1 = xs.eraseP cmp := by
  induction xs with
  | nil => rfl
  | cons x xs ih =>
      rw [listNodeRemove]
      by_cases hit : cmp x = true
      · rw [if_pos hit, List.eraseP_cons_of_pos hit]
      · rw [if_neg hit, List.eraseP_cons_of_neg hit, ← ih]

theorem listNodeRemove_snd (cmp : δ → Bool) (xs : List δ) :
    (xs.eraseP cmp).length + (listNodeRemove cmp xs).2 = xs.length := by
  induction xs with
  | nil => rfl
  | cons x xs ih =>
      rw [listNodeRemove]
      by_cases hit : cmp x = true
      · rw [if_pos hit, List.eraseP_cons_of_pos hit, List.length_cons]
      · rw [if_neg hit, List.eraseP_cons_of_neg hit, List.length_cons, List.length_cons, ← ih]
        dsimp only
        omega

section Calls

variable {l l' : LinkedList δ} {c : CList δ} {ps qs xs : List Nat}

/-- A comparison that looks at nothing but the data. -/
def byData (cmp : δ → Bool) : CompareFunc δ := fun _ node => if cmp node.data then 0 else 1

theorem hit_byData (cmp : δ → Bool) (l : LinkedList δ) :
    Hit (byData cmp) l.nodes = Option.any cmp ∘ l.dataAt := by
  funext p
  unfold Hit dataAt
  cases held : l.nodes.get? p with
  | none => simp [held]
  | some node => by_cases hit : cmp node.data = true <;> simp [held, hit, byData]

theorem Becomes.map_dataAt (becomes : Becomes l l' ps) (sub : qs ⊆ ps) {data : List δ}
    (held : qs.map l.dataAt = data.map some) : qs.map l'.dataAt = data.map some := by
  rw [← held]
  apply List.map_congr_left
  intro q member
  have there : l.dataAt q ∈ data.map some := held ▸ List.mem_map_of_mem member
  obtain ⟨x, _, same⟩ := List.mem_map.mp there
  rw [← same, becomes.kept q (sub member) x same.symm]

theorem Holds.counted (holds : Holds l c) : c.Counted := by
  obtain ⟨⟨ps, _, counted, data⟩, len⟩ := holds
  have same := congrArg List.length data
  rw [List.length_map, List.length_map] at same
  rw [CList.Counted, len, counted, same]

theorem holds_create (nodes : Heap (ListNode δ)) : Holds (create nodes) listCreate :=
  ⟨⟨[], rfl, rfl, rfl⟩, rfl⟩

theorem Holds.push (holds : Holds l c) (val : δ) : Holds (l.push val) (listPush c val) := by
  have sized := holds.counted
  obtain ⟨⟨ps, reaches, counted, data⟩, len⟩ := holds
  obtain ⟨becomes, new, _⟩ := push_becomes reaches counted val
  constructor
  · refine ⟨l.nodes.next :: ps, becomes.reaches, becomes.len, ?_⟩
    rw [nodes_listPush sized, List.map_cons, List.map_cons, new,
      becomes.map_dataAt (List.subset_cons_self ..) data]
  · rw [becomes.len, List.length_cons, ← counted, ← len]
    rfl

theorem Holds.remove (holds : Holds l c) (cmp : δ → Bool) (ran : l.remove (byData cmp) = .ok l') :
    Holds l' (listRemove c cmp) := by
  have sized := holds.counted
  obtain ⟨⟨ps, reaches, counted, data⟩, len⟩ := holds
  obtain ⟨_, removed, becomes, _⟩ := remove_becomes reaches counted (byData cmp)
  cases ran.symm.trans removed
  have erased : (ps.eraseP (Hit (byData cmp) l.nodes)).map l.dataAt =
      (c.nodes.eraseP cmp).map some := by
    rw [hit_byData, ← List.eraseP_map, data, List.eraseP_map]
    rfl
  constructor
  · refine ⟨_, becomes.reaches, becomes.len, ?_⟩
    rw [listRemove, listNodeRemove_fst]
    exact becomes.map_dataAt (List.Subset.refl _) erased
  · have shorter := congrArg List.length erased
    rw [List.length_map, List.length_map] at shorter
    have dropped := listNodeRemove_snd cmp c.nodes
    rw [CList.Counted] at sized
    rw [becomes.len, shorter]
    show c.len - _ = _
    omega

theorem Holds.clear (holds : Holds l c) (ran : l.clear = .ok l') : Holds l' (listClear c) := by
  have sized := holds.counted
  obtain ⟨⟨ps, reaches, counted, data⟩, len⟩ := holds
  obtain ⟨_, cleared, becomes⟩ := clear_becomes reaches counted
  cases ran.symm.trans cleared
  refine ⟨⟨[], becomes.reaches, becomes.len, by rw [nodes_listClear]; rfl⟩, ?_⟩
  rw [counted_listClear sized, nodes_listClear, becomes.len]
  rfl

end Calls

/-- The calls that know a node by its data alone. -/
inductive DataOp (δ : Type)
  | push (val : δ)
  | remove (cmp : δ → Bool)
  | clear

def DataOp.toListOp : DataOp δ → ListOp δ
  | push val => .push val
  | remove cmp => .remove (byData cmp)
  | clear => .clear

def DataOp.applyTo (c : CList δ) : DataOp δ → CList δ
  | push val => listPush c val
  | remove cmp => listRemove c cmp
  | clear => listClear c

theorem Holds.apply {l l' : LinkedList δ} {c : CList δ} (holds : Holds l c) {op : DataOp δ}
    (called : ListOp.Calls l op.toListOp l') : Holds l' (op.applyTo c) := by
  cases op with
  | push val =>
      cases called
      exact holds.push val
  | remove cmp => exact holds.remove cmp called
  | clear => exact holds.clear called

/-- The nodes in memory hold what the same calls leave of a list value. -/
theorem holds_throughout {nodes : Heap (ListNode δ)} {tr : List (LinkedList δ × DataOp δ)}
    {l : LinkedList δ}
    (run : Run (fun l op l' => ListOp.Calls l op.toListOp l') (create nodes) tr l) :
    Holds l ((tr.map Prod.snd).foldl DataOp.applyTo listCreate) := by
  have kept (l : LinkedList δ) (c : CList δ) (op : DataOp δ) (l' : LinkedList δ)
      (holds : Holds l c) (called : ListOp.Calls l op.toListOp l') : Holds l' (op.applyTo c) :=
    holds.apply called
  exact run.refines (holds_create nodes) kept

end LinkedList

end SolBroker
