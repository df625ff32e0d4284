import Mathlib
import SolBroker.Linked.List

/-!
# Taking a node out of a list

The recursion of `list_remove_single_node` links past the first node that compares equal and
returns the new head of what it was given. `list_remove_node` does not look at that head, so
a node that was first stays first, and the rest of the list is cut off with its `next`.
-/

namespace SolBroker

namespace LinkedList

open Heap

variable {δ : Type} {cmp : CompareFunc δ}

section Recursion

variable {nodes : Heap (ListNode δ)} {p : Nat} {node : ListNode δ} {start : Option Nat}
  {before after ps : List Nat}

theorem removeSingleNode_miss (path : Path ListNode.next nodes start ps none)
    (misses : ∀ q ∈ ps, Hit cmp nodes q = false) {fuel : Nat} (enough : ps.length ≤ fuel) :
    removeSingleNode cmp fuel nodes start none = .ok (start, none, nodes) := by
  induction ps generalizing start fuel with
  | nil =>
      obtain rfl : start = none := path
      cases fuel <;> rfl
  | cons p ps ih =>
      obtain ⟨rfl, node, live, rest⟩ := path
      obtain ⟨fuel, rfl⟩ := Nat.exists_eq_succ_of_ne_zero (by simp at enough; omega : fuel ≠ 0)
      have differs := (miss_iff live).mp (misses p (List.mem_cons_self ..))
      have later := ih rest (fun q member => misses q (List.mem_cons_of_mem _ member))
        (by simpa using enough)
      rw [removeSingleNode, deref_eq_ok.mpr live]
      change (if cmp p node = 0 ∧ none = none then _ else _) = _
      rw [if_neg fun both => differs both.1, later]
      change Except.ok (some p, none, nodes.write p node) = _
      rw [write_self live]

/-- The nodes once the one at `p`, between `before` and `after`, has been linked past. -/
structure Unlinked (nodes : Heap (ListNode δ)) (start : Option Nat) (before after : List Nat)
    (next : Option Nat) (nodes' : Heap (ListNode δ)) : Prop where
  path : Path ListNode.next nodes' next (before ++ after) none
  head : before ≠ [] → next = start
  data : ∀ q, (nodes'.get? q).map ListNode.data = (nodes.get? q).map ListNode.data
  frame : ∀ q ∉ before, nodes'.get? q = nodes.get? q

/-- A node in front is linked to what the rest becomes. -/
theorem Unlinked.cons {b : Nat} {next : Option Nat} {nodes' : Heap (ListNode δ)}
    (unlinked : Unlinked nodes start before after next nodes') (live : nodes.get? b = some node)
    (off : b ∉ before ++ after) :
    Unlinked nodes (some b) (b :: before) after (some b) (nodes'.write b { node with next }) := by
  have live' : nodes'.get? b = some node := by
    rw [unlinked.frame b fun member => off (List.mem_append_left _ member), live]
  constructor
  · exact path_write_next live' off unlinked.path
  · exact fun _ => rfl
  · intro q
    rw [get?_write live']
    by_cases same : q = b
    · rw [if_pos same, same, live]
      rfl
    · rw [if_neg same, unlinked.data q]
  · intro q outside
    obtain ⟨same, outside⟩ := not_or.mp (mt List.mem_cons.mpr outside)
    rw [get?_write live', if_neg same, unlinked.frame q outside]

theorem removeSingleNode_hit (path : Path ListNode.next nodes start (before ++ p :: after) none)
    (misses : ∀ q ∈ before, Hit cmp nodes q = false) (hit : Hit cmp nodes p = true) {fuel : Nat}
    (enough : (before ++ p :: after).length ≤ fuel) :
    ∃ next nodes', removeSingleNode cmp fuel nodes start none = .ok (next, some p, nodes') ∧
      Unlinked nodes start before after next nodes' := by
  induction before generalizing start fuel with
  | nil =>
      obtain ⟨fuel, rfl⟩ := Nat.exists_eq_succ_of_ne_zero (by simp at enough; omega : fuel ≠ 0)
      obtain ⟨rfl, node, live, rest⟩ := path
      refine ⟨node.next, nodes, ?_, rest, absurd rfl, fun _ => rfl, fun _ _ => rfl⟩
      rw [removeSingleNode, deref_eq_ok.mpr live]
      exact if_pos ⟨(hit_iff live).mp hit, rfl⟩
  | cons b before ih =>
      obtain ⟨fuel, rfl⟩ := Nat.exists_eq_succ_of_ne_zero (by simp at enough; omega : fuel ≠ 0)
      have distinct := List.nodup_cons.mp path.nodup
      obtain ⟨rfl, node, live, rest⟩ := path
      have differs := (miss_iff live).mp (misses b (List.mem_cons_self ..))
      obtain ⟨next, nodes', ran, unlinked⟩ :=
        ih rest (fun q member => misses q (List.mem_cons_of_mem _ member)) (by simpa using enough)
      have off : b ∉ before ++ after := by
        intro member
        apply distinct.1
        exact ((List.sublist_cons_self p after).append_left before).subset member
      refine ⟨some b, _, ?_, unlinked.cons live off⟩
      rw [removeSingleNode, deref_eq_ok.mpr live]
      change (if cmp b node = 0 ∧ none = none then _ else _) = _
      rw [if_neg fun both => differs both.1, ran]
      rfl

end Recursion

/-! ## What `list_remove_node` leaves -/

/-- What is to be left of the nodes at `ps`, with the node that is returned. -/
structure RemovesFirst (cmp : CompareFunc δ) (l : LinkedList δ) (ps : List Nat)
    (found : Option Nat) (l' : LinkedList δ) : Prop where
  first : found = ps.find? (Hit cmp l.nodes)
  becomes : Becomes l l' (ps.eraseP (Hit cmp l.nodes))
  returned : ∀ p, found = some p → l'.dataAt p = l.dataAt p
  unchanged : found = none → l' = l

section Operations

variable {l : LinkedList δ} {ps before after : List Nat} {p : Nat}

theorem removeNode_miss (reaches : l.Reaches ps) (misses : ∀ q ∈ ps, Hit cmp l.nodes q = false) :
    l.removeNode cmp = .ok (none, l) := by
  unfold removeNode
  split
  · rfl
  · rw [removeSingleNode_miss reaches misses reaches.length_le]
    rfl

/-- The node is taken out of the list, or if it is the first the rest of the list is. -/
theorem removeNode_hit (reaches : l.Reaches (before ++ p :: after))
    (counted : l.len = (before ++ p :: after).length)
    (misses : ∀ q ∈ before, Hit cmp l.nodes q = false) (hit : Hit cmp l.nodes p = true) :
    ∃ l', l.removeNode cmp = .ok (some p, l') ∧ l'.len = (before ++ after).length ∧
      (∀ q, l'.dataAt q = l.dataAt q) ∧
        l'.Reaches (if before = [] then [p] else before ++ after) := by
  have distinct := List.nodup_middle.mp reaches.nodup
  have off : p ∉ before ++ after := (List.nodup_cons.mp distinct).1
  obtain ⟨node, live⟩ := reaches.live (List.mem_append_right before (List.mem_cons_self ..))
  obtain ⟨next, nodes', ran, unlinked⟩ :=
    removeSingleNode_hit reaches misses hit reaches.length_le
  have live' : nodes'.get? p = some node := by
    rw [unlinked.frame p fun member => off (List.mem_append_left _ member), live]
  refine ⟨{ l with nodes := nodes'.write p { node with next := none }, len := l.len - 1 },
    ?_, ?_, fun q => ?_, ?_⟩
  · have nonempty : l.len ≠ 0 := by simp [counted]
    rw [removeNode, if_neg nonempty, ran]
    change (deref nodes' p >>= _) = _
    rw [deref_eq_ok.mpr live']
    rfl
  · show l.len - 1 = _
    rw [counted]
    simp
  · show ((nodes'.write p _).get? q).map ListNode.data = (l.nodes.get? q).map ListNode.data
    rw [get?_write live']
    by_cases same : q = p
    · rw [if_pos same, same, live]
      rfl
    · rw [if_neg same, unlinked.data q]
  · by_cases first : before = []
    · obtain rfl := first
      rw [if_pos rfl]
      refine ⟨reaches.1, { node with next := none }, ?_, rfl⟩
      rw [get?_write live', if_pos rfl]
    · have head : next = l.head := unlinked.head first
      rw [if_neg first]
      exact (head ▸ unlinked.path).write live' off

end Operations

/-- `list_remove_node` takes out the first node that compares equal, and nothing else, exactly
if that is not the first node of the list. -/
theorem removesFirst_iff (cmp : CompareFunc δ) {l : LinkedList δ} {ps : List Nat}
    (reaches : l.Reaches ps) (counted : l.len = ps.length) (nonempty : ps ≠ []) :
    (∃ found l', l.removeNode cmp = .ok (found, l') ∧ RemovesFirst cmp l ps found l') ↔
      ∀ p, ps.head? = some p → Hit cmp l.nodes p = false := by
  cases found : ps.find? (Hit cmp l.nodes) with
  | none =>
      have misses (q : Nat) (member : q ∈ ps) : Hit cmp l.nodes q = false := by
        simpa using List.find?_eq_none.mp found q member
      have kept : ps.eraseP (Hit cmp l.nodes) = ps :=
        List.eraseP_of_forall_not fun q member => by simp [misses q member]
      refine iff_of_true ⟨none, l, removeNode_miss reaches misses, found.symm, ?_, nofun,
        fun _ => rfl⟩ fun p first => misses p (List.mem_of_head? first)
      rw [kept]
      exact ⟨reaches, counted, fun _ _ _ there => there⟩
  | some p =>
      obtain ⟨hit, before, after, rfl, early⟩ := List.find?_eq_some_iff_append.mp found
      have misses (q : Nat) (member : q ∈ before) : Hit cmp l.nodes q = false := by
        simpa using early q member
      have erased : (before ++ p :: after).eraseP (Hit cmp l.nodes) = before ++ after := by
        rw [List.eraseP_append_right _ fun q member => by simp [misses q member],
          List.eraseP_cons_of_pos hit]
      obtain ⟨l', ran, len, data, left⟩ := removeNode_hit reaches counted misses hit
      cases before with
      | nil =>
          -- the head still points at the node, whose next is NULL
          refine iff_of_false ?_ fun miss => absurd hit (by simp [miss p rfl])
          rintro ⟨found', l'', ran', removes⟩
          cases ran.symm.trans ran'
          have whole := removes.becomes.reaches
          rw [erased, List.nil_append] at whole
          obtain rfl : [p] = after := left.unique whole
          exact (List.nodup_cons.mp reaches.nodup).1 (List.mem_singleton_self p)
      | cons b before =>
          refine iff_of_true ⟨some p, l', ran, found.symm, ⟨?_, ?_, ?_⟩, fun q _ => data q, nofun⟩
            fun q first => ?_
          · rw [erased]
            exact left
          · rw [erased, len]
          · exact fun q _ x there => (data q).trans there
          · obtain rfl : b = q := Option.some.inj first
            exact misses b (List.mem_cons_self ..)

/-- The second of two nodes is taken out. -/
theorem removesFirst_second :
    ∃ found l', oneTwo.removeNode (compareTo 2) = .ok (found, l') ∧
      RemovesFirst (compareTo 2) oneTwo [0, 1] found l' := by
  apply (removesFirst_iff (compareTo 2) reaches_oneTwo rfl (by decide)).mpr
  intro p first
  obtain rfl : 0 = p := Option.some.inj first
  decide

/-- Of two nodes the first is looked for, and the list is left with that node alone. -/
theorem not_removesFirst_head :
    ¬ ∀ (cmp : CompareFunc Nat) (l : LinkedList Nat) (ps : List Nat), l.Reaches ps →
      l.len = ps.length → ps ≠ [] →
        ∃ found l', l.removeNode cmp = .ok (found, l') ∧ RemovesFirst cmp l ps found l' := by
  intro always
  obtain ⟨found, l', ran, removes⟩ :=
    always (compareTo 1) oneTwo [0, 1] reaches_oneTwo rfl (by decide)
  have left : oneTwo.removeNode (compareTo 1) =
      .ok (some 0, ⟨⟨[some ⟨1, none⟩, some ⟨2, none⟩]⟩, some 0, some 1, 1⟩) := rfl
  cases left.symm.trans ran
  have rest : [0, 1].eraseP (Hit (compareTo 1) oneTwo.nodes) = [1] := by decide
  have whole := removes.becomes.reaches
  rw [rest] at whole
  cases whole.1

end LinkedList

end SolBroker
