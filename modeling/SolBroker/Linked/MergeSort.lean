import Mathlib
import SolBroker.Trie.Node
import SolBroker.Linked.List

/-!
# Sorting a list in place

`merge_sort_tnode` on nodes in memory: `bisect_list` cuts a list in two with a slow and a
fast pointer, and `merge_tnode_list` links the nodes of two lists anew, behind a dummy head
on the stack. No node is made or lost, and nodes are compared by a signed character of the
trie node that is their data. What is left is given by the sort of list values, on addresses.
-/

namespace SolBroker

namespace LinkedList

open Heap

variable {δ : Type}

/-- The loop of `bisect_list`, with where `slow` and `prev` end. -/
def bisectLoop (nodes : Heap (ListNode δ)) :
    Nat → Option Nat → Option Nat → Option Nat → Except Fault (Option Nat × Option Nat)
  | _, none, slow, prev => .ok (slow, prev)
  | 0, some _, _, _ => .error .noReturn
  | fuel + 1, some fast, slow, prev => do
      let fast ← deref nodes fast
      if fast.next = none then return (slow, prev)
      else do
        let (_, second) ← derefObj nodes fast.next
        let (slow, node) ← derefObj nodes slow
        bisectLoop nodes fuel second.next node.next (some slow)

/-- `bisect_list`, with the memory in which the list has been truncated. -/
def bisectList (nodes : Heap (ListNode δ)) (head : Option Nat) :
    Except Fault (Option Nat × Heap (ListNode δ)) := do
  let (slow, prev) ← bisectLoop nodes nodes.next head head none
  match prev with
  | none => return (slow, nodes)
  | some prev => do
      let node ← deref nodes prev
      return (slow, nodes.write prev { node with next := none })

/-- `tail->next = p`. The tail is NULL for the dummy head, whose `next` is `dummy`. -/
def linkTail (nodes : Heap (ListNode δ)) (dummy tail p : Option Nat) :
    Except Fault (Option Nat × Heap (ListNode δ)) :=
  match tail with
  | none => .ok (p, nodes)
  | some t => do
      let node ← deref nodes t
      return (dummy, nodes.write t { node with next := p })

variable (chr : δ → Int8)

/-- The loop of `merge_tnode_list` and the assignment after it, with what is then the `next`
of the dummy head. -/
def mergeLoop : Nat → Heap (ListNode δ) → Option Nat → Option Nat → Option Nat → Option Nat →
    Except Fault (Option Nat × Heap (ListNode δ))
  | _, nodes, dummy, tail, none, list2 => linkTail nodes dummy tail list2
  | _, nodes, dummy, tail, some list1, none => linkTail nodes dummy tail (some list1)
  | 0, _, _, _, some _, some _ => .error .noReturn
  | fuel + 1, nodes, dummy, tail, some list1, some list2 => do
      let node1 ← deref nodes list1
      let node2 ← deref nodes list2
      if (chr node1.data).toInt ≤ (chr node2.data).toInt then do
        let (dummy, nodes) ← linkTail nodes dummy tail (some list1)
        mergeLoop fuel nodes dummy (some list1) node1.next (some list2)
      else do
        let (dummy, nodes) ← linkTail nodes dummy tail (some list2)
        mergeLoop fuel nodes dummy (some list2) (some list1) node2.next

/-- `merge_tnode_list`. -/
def mergeTnodeList (nodes : Heap (ListNode δ)) (list1 list2 : Option Nat) :
    Except Fault (Option Nat × Heap (ListNode δ)) :=
  mergeLoop chr nodes.next nodes none none list1 list2

/-- `merge_sort_tnode` to depth `fuel`. C leaves open, at each call, which argument of the
merge is evaluated first. -/
def mergeSortUpTo (rightFirst : Nat → Nat → Bool) :
    Nat → Heap (ListNode δ) → Option Nat → Except Fault (Option Nat × Heap (ListNode δ))
  | _, nodes, none => .ok (none, nodes)
  | 0, _, some _ => .error .noReturn
  | fuel + 1, nodes, some head => do
      let node ← deref nodes head
      if node.next = none then return (some head, nodes)
      else do
        let (list2, nodes) ← bisectList nodes (some head)
        if rightFirst fuel head then do
          let (list2, nodes) ← mergeSortUpTo rightFirst fuel nodes list2
          let (list1, nodes) ← mergeSortUpTo rightFirst fuel nodes (some head)
          mergeTnodeList chr nodes list1 list2
        else do
          let (list1, nodes) ← mergeSortUpTo rightFirst fuel nodes (some head)
          let (list2, nodes) ← mergeSortUpTo rightFirst fuel nodes list2
          mergeTnodeList chr nodes list1 list2

/-- `merge_sort_tnode`, with the new head. -/
def mergeSortTnode (rightFirst : Nat → Nat → Bool) (nodes : Heap (ListNode δ))
    (head : Option Nat) : Except Fault (Option Nat × Heap (ListNode δ)) :=
  mergeSortUpTo chr rightFirst nodes.next nodes head

/-- The character of the node at an address. -/
def chrAt (nodes : Heap (ListNode δ)) (p : Nat) : Int :=
  ((nodes.get? p).map ListNode.data).elim 0 fun data => (chr data).toInt

/-! ## Linking anew -/

/-- Nodes at these addresses may have another `next`; nothing else in memory differs. -/
structure Relinked (nodes nodes' : Heap (ListNode δ)) (ps : List Nat) : Prop where
  data : ∀ q, (nodes'.get? q).map ListNode.data = (nodes.get? q).map ListNode.data
  frame : ∀ q ∉ ps, nodes'.get? q = nodes.get? q

namespace Relinked

variable {nodes nodes' nodes'' : Heap (ListNode δ)} {ps qs rs : List Nat}

theorem refl (nodes : Heap (ListNode δ)) (ps : List Nat) : Relinked nodes nodes ps :=
  ⟨fun _ => rfl, fun _ _ => rfl⟩

theorem mono (relinked : Relinked nodes nodes' ps) (sub : ps ⊆ qs) : Relinked nodes nodes' qs :=
  ⟨relinked.data, fun q off => relinked.frame q fun member => off (sub member)⟩

theorem mono_append (relinked : Relinked nodes nodes' (rs ++ ps)) (sub : ps ⊆ qs) :
    Relinked nodes nodes' (rs ++ qs) := by
  apply relinked.mono
  intro q member
  obtain early | late := List.mem_append.mp member
  · exact List.mem_append_left _ early
  · exact List.mem_append_right _ (sub late)

theorem trans_append (first : Relinked nodes nodes' ps) (second : Relinked nodes' nodes'' qs) :
    Relinked nodes nodes'' (ps ++ qs) := by
  refine ⟨fun q => (second.data q).trans (first.data q), ?_⟩
  intro q off
  obtain ⟨off1, off2⟩ := not_or.mp (mt List.mem_append.mpr off)
  exact (second.frame q off2).trans (first.frame q off1)

theorem write {p : Nat} {node : ListNode δ} (live : nodes.get? p = some node) (next : Option Nat) :
    Relinked nodes (nodes.write p { node with next }) [p] := by
  constructor
  · intro q
    rw [get?_write live]
    by_cases same : q = p
    · rw [if_pos same, same, live]
      rfl
    · rw [if_neg same]
  · intro q off
    rw [get?_write live, if_neg (mt List.mem_singleton.mpr off)]

theorem trans (first : Relinked nodes nodes' ps) (second : Relinked nodes' nodes'' ps) :
    Relinked nodes nodes'' ps :=
  (first.trans_append second).mono (List.append_subset.mpr ⟨List.Subset.refl _, List.Subset.refl _⟩)

/-- A path through other nodes is still there. -/
theorem path (relinked : Relinked nodes nodes' ps) {start stop : Option Nat}
    (path : Path ListNode.next nodes start qs stop) (apart : ps.Disjoint qs) :
    Path ListNode.next nodes' start qs stop := by
  apply path.frame
  intro q member
  exact relinked.frame q fun inside => apart inside member

theorem live (relinked : Relinked nodes nodes' ps) {p : Nat} {node : ListNode δ}
    (live : nodes.get? p = some node) : ∃ node', nodes'.get? p = some node' := by
  have kept := relinked.data p
  rw [live] at kept
  obtain ⟨node', live', _⟩ := Option.map_eq_some_iff.mp kept
  exact ⟨node', live'⟩

theorem chrAt (relinked : Relinked nodes nodes' ps) :
    LinkedList.chrAt chr nodes' = LinkedList.chrAt chr nodes := by
  funext q
  unfold LinkedList.chrAt
  rw [relinked.data q]

end Relinked

theorem chrAt_of_live {nodes : Heap (ListNode δ)} {p : Nat} {node : ListNode δ}
    (live : nodes.get? p = some node) : chrAt chr nodes p = (chr node.data).toInt := by
  rw [chrAt, live]
  rfl

/-! ## Cutting in two -/

section Bisect

variable {nodes : Heap (ListNode δ)} {fast slow prev head : Option Nat} {ps fs ss : List Nat}

theorem bisectLoop_eq (ahead : Path ListNode.next nodes fast fs none)
    (behind : Path ListNode.next nodes slow ss none) (within : fs.length ≤ ss.length)
    {fuel : Nat} (enough : fs.length ≤ fuel) :
    ∃ mid, bisectLoop nodes fuel fast slow prev =
        .ok (mid, (SolBroker.bisectLoop fs ss).1.getLast?.or prev) ∧
      Path ListNode.next nodes slow (SolBroker.bisectLoop fs ss).1 mid := by
  induction fuel generalizing fast slow prev fs ss with
  | zero =>
      obtain rfl : fs = [] := List.length_eq_zero_iff.mp (Nat.le_zero.mp enough)
      obtain rfl : fast = none := ahead
      refine ⟨slow, ?_, ?_⟩ <;> cases ss <;> rfl
  | succ fuel ih =>
      match fs, ss, ahead, behind with
      | [], ss, ahead, _ =>
          obtain rfl : fast = none := ahead
          refine ⟨slow, ?_, ?_⟩ <;> cases ss <;> rfl
      | [f], ss, ahead, _ =>
          obtain ⟨rfl, node, live, ended⟩ := ahead
          refine ⟨slow, ?_, rfl⟩
          rw [bisectLoop, deref_eq_ok.mpr live]
          exact if_pos ended
      | f :: g :: fs, [], _, _ => simp at within
      | f :: g :: fs, s :: ss, ahead, behind =>
          obtain ⟨rfl, first, live, second_, second, live', rest⟩ := ahead
          obtain ⟨rfl, node, here, behind⟩ := behind
          simp only [List.length_cons] at within enough
          obtain ⟨mid, ran, path⟩ :=
            @ih second.next node.next (some s) fs ss rest behind (by omega) (by omega)
          refine ⟨mid, ?_, rfl, node, here, path⟩
          have passed : (SolBroker.bisectLoop (f :: g :: fs) (s :: ss)).1.getLast?.or prev =
              (SolBroker.bisectLoop fs ss).1.getLast?.or (some s) := by
            show (s :: (SolBroker.bisectLoop fs ss).1).getLast?.or prev = _
            rw [List.getLast?_cons]
            cases (SolBroker.bisectLoop fs ss).1.getLast? <;> rfl
          have jumped : derefObj nodes (some g) = .ok (g, second) :=
            derefObj_eq_ok.mpr ⟨rfl, live'⟩
          have stepped : derefObj nodes (some s) = .ok (s, node) := derefObj_eq_ok.mpr ⟨rfl, here⟩
          rw [bisectLoop, deref_eq_ok.mpr live, passed, ← ran]
          change (if first.next = none then _ else _) = _
          rw [second_, if_neg (Option.some_ne_none g), jumped]
          change (derefObj nodes (some s) >>= _) = _
          rw [stepped]
          rfl

/-- A list of at least two nodes becomes the two halves of its addresses. -/
theorem bisectList_eq (path : Path ListNode.next nodes head ps none) (two : 2 ≤ ps.length) :
    ∃ list2 nodes', bisectList nodes head = .ok (list2, nodes') ∧
      Path ListNode.next nodes' head (SolBroker.bisectList ps).1 none ∧
        Path ListNode.next nodes' list2 (SolBroker.bisectList ps).2 none ∧
          Relinked nodes nodes' ps := by
  obtain ⟨mid, ran, early⟩ :=
    @bisectLoop_eq δ nodes head head none ps ps path path le_rfl _ path.length_le
  have whole := bisectLoop_append ps ps
  have half := bisectLoop_length ps ps le_rfl
  unfold SolBroker.bisectList
  generalize SolBroker.bisectLoop ps ps = halves at ran early whole half
  obtain ⟨passed, rest⟩ := halves
  obtain rfl | ⟨front, p, rfl⟩ := List.eq_nil_or_concat' passed
  · simp at half
    omega
  · obtain ⟨_, _, rfl, node, live, rfl⟩ := path_append.mp early
    rw [List.append_assoc, List.singleton_append] at whole
    subst whole
    obtain ⟨front_, rest_⟩ := @Path.cut _ _ _ _ _ _ _ _ path { node with next := none } live rfl
    refine ⟨node.next, nodes.write p { node with next := none }, ?_, front_, rest_,
      (Relinked.write live none).mono ?_⟩
    · rw [List.getLast?_concat] at ran
      rw [bisectList, ran]
      change (deref nodes p >>= _) = _
      rw [deref_eq_ok.mpr live]
      rfl
    · simp

end Bisect

/-! ## Merging -/

section Merge

variable {nodes nodes' : Heap (ListNode δ)} {dummy dummy' tail list1 list2 start : Option Nat}
  {p : Nat} {ps qs rs merged : List Nat}

/-- What the tail points at: the `next` of the dummy head, or of a node. -/
def tailNext (nodes : Heap (ListNode δ)) (dummy : Option Nat) : Option Nat → Option Nat
  | none => dummy
  | some t => (nodes.get? t).bind ListNode.next

/-- Behind the tail come the nodes at `merged`, and only the tail and the nodes at `ps` have
been linked anew. -/
structure Merged (nodes : Heap (ListNode δ)) (dummy tail : Option Nat) (ps merged : List Nat)
    (result : Option Nat × Heap (ListNode δ)) : Prop where
  path : Path ListNode.next result.2 (tailNext result.2 result.1 tail) merged none
  dummy : tail ≠ none → result.1 = dummy
  relinked : Relinked nodes result.2 (tail.toList ++ ps)

/-- The tail is linked to a list. -/
theorem linkTail_merged (ready : ∀ t ∈ tail, ∃ node, nodes.get? t = some node)
    (path : Path ListNode.next nodes start qs none) (apart : tail.toList.Disjoint qs) :
    ∃ result, linkTail nodes dummy tail start = .ok result ∧
      Merged nodes dummy tail [] qs result ∧ tailNext result.2 result.1 tail = start := by
  cases tail with
  | none => exact ⟨(start, nodes), rfl, ⟨path, absurd rfl, .refl _ _⟩, rfl⟩
  | some t =>
      obtain ⟨node, live⟩ := ready t rfl
      have relinked := Relinked.write live start
      have linked : tailNext (nodes.write t { node with next := start }) dummy (some t) =
          start := by
        rw [tailNext, get?_write live, if_pos rfl]
        rfl
      refine ⟨(dummy, nodes.write t { node with next := start }), ?_, ⟨?_, fun _ => rfl, relinked⟩,
        linked⟩
      · rw [linkTail, deref_eq_ok.mpr live]
        rfl
      · rw [linked]
        exact relinked.path path apart

/-- A node is taken from the front of its list, and what the loop goes on with is merged
behind it. -/
theorem exists_merged_cons {loop : Option Nat × Heap (ListNode δ) →
      Except Fault (Option Nat × Heap (ListNode δ))}
    (path : Path ListNode.next nodes (some p) (p :: qs) none)
    (ready : ∀ t ∈ tail, ∃ node, nodes.get? t = some node)
    (apart : tail.toList.Disjoint (p :: qs)) (off : tail.toList.Disjoint rs) (sub : p :: ps ⊆ rs)
    (goesOn : ∀ middle : Option Nat × Heap (ListNode δ), Relinked nodes middle.2 tail.toList →
      ∃ result, loop middle = .ok result ∧
        Merged middle.2 middle.1 (some p) ps merged result) :
    ∃ result, (linkTail nodes dummy tail (some p) >>= loop) = .ok result ∧
      Merged nodes dummy tail rs (p :: merged) result := by
  obtain ⟨middle, linked, done, here⟩ :=
    @linkTail_merged δ nodes dummy tail (some p) (p :: qs) ready path apart
  have moved := done.relinked
  rw [List.append_nil] at moved
  obtain ⟨result, ran, rest⟩ := goesOn middle moved
  have kept : result.1 = middle.1 := rest.dummy (Option.some_ne_none p)
  have still : tailNext result.2 result.1 tail = some p := by
    rw [← here, kept]
    cases tail with
    | none => rfl
    | some t =>
        have outside := off (List.mem_singleton_self t)
        rw [tailNext, tailNext, rest.relinked.frame t fun member => outside (sub member)]
  obtain ⟨node, live, _⟩ := path.2
  have whole := (moved.trans_append rest.relinked).mono_append sub
  obtain ⟨node', live'⟩ := whole.live live
  refine ⟨result, bind_eq_ok.mpr ⟨middle, linked, ran⟩, ?_, ?_, whole⟩
  · rw [still]
    refine ⟨rfl, node', live', ?_⟩
    have behind := rest.path
    rw [tailNext, live'] at behind
    exact behind
  · intro some_
    exact kept.trans (done.dummy some_)

theorem Merged.mono {result : Option Nat × Heap (ListNode δ)}
    (done : Merged nodes dummy tail ps merged result) (sub : ps ⊆ qs) :
    Merged nodes dummy tail qs merged result :=
  ⟨done.path, done.dummy, done.relinked.mono_append sub⟩

/-- When one list has come to its end, the tail is linked to the other one. -/
theorem mergeLoop_rest (path1 : Path ListNode.next nodes list1 ps none)
    (path2 : Path ListNode.next nodes list2 qs none)
    (ready : ∀ t ∈ tail, ∃ node, nodes.get? t = some node)
    (apart : (tail.toList ++ (ps ++ qs)).Nodup) (ended : ps = [] ∨ qs = []) (fuel : Nat) :
    ∃ result, mergeLoop chr fuel nodes dummy tail list1 list2 = .ok result ∧
      Merged nodes dummy tail (ps ++ qs)
        (ps.merge qs fun p q => decide (chrAt chr nodes p ≤ chrAt chr nodes q)) result := by
  have off := List.disjoint_of_nodup_append apart
  obtain rfl | rfl := ended
  · obtain rfl : list1 = none := path1
    obtain ⟨result, ran, done, _⟩ := @linkTail_merged δ nodes dummy tail list2 qs ready path2 off
    refine ⟨result, ?_, ?_⟩
    · rw [← ran]
      cases fuel <;> rfl
    · rw [List.nil_merge]
      exact done.mono (List.nil_subset _)
  · obtain rfl : list2 = none := path2
    rw [List.append_nil] at off
    obtain ⟨result, ran, done, _⟩ := @linkTail_merged δ nodes dummy tail list1 ps ready path1 off
    refine ⟨result, ?_, ?_⟩
    · rw [← ran]
      cases list1 <;> cases fuel <;> rfl
    · rw [List.merge_right]
      exact done.mono (List.nil_subset _)

/-- The loop merges the addresses of the two lists. -/
theorem mergeLoop_merged (path1 : Path ListNode.next nodes list1 ps none)
    (path2 : Path ListNode.next nodes list2 qs none)
    (ready : ∀ t ∈ tail, ∃ node, nodes.get? t = some node)
    (apart : (tail.toList ++ (ps ++ qs)).Nodup) {fuel : Nat}
    (enough : ps.length + qs.length ≤ fuel) :
    ∃ result, mergeLoop chr fuel nodes dummy tail list1 list2 = .ok result ∧
      Merged nodes dummy tail (ps ++ qs)
        (ps.merge qs fun p q => decide (chrAt chr nodes p ≤ chrAt chr nodes q)) result := by
  induction fuel generalizing nodes dummy tail list1 list2 ps qs with
  | zero =>
      have ended : ps = [] := List.length_eq_zero_iff.mp (by omega)
      exact mergeLoop_rest chr path1 path2 ready apart (.inl ended) 0
  | succ fuel ih =>
      match ps, qs, path1, path2 with
      | [], qs, path1, path2 => exact mergeLoop_rest chr path1 path2 ready apart (.inl rfl) _
      | p :: ps, [], path1, path2 =>
          exact mergeLoop_rest chr path1 path2 ready apart (.inr rfl) _
      | p :: ps, q :: qs, path1, path2 =>
          have whole1 := path1
          have whole2 := path2
          obtain ⟨rfl, node1, live1, rest1⟩ := path1
          obtain ⟨rfl, node2, live2, rest2⟩ := path2
          obtain ⟨_, distinct, off⟩ := List.nodup_append'.mp apart
          obtain ⟨off1, off2⟩ := List.disjoint_append_right.mp off
          simp only [List.length_cons] at enough
          rw [List.cons_merge_cons, chrAt_of_live chr live1, chrAt_of_live chr live2, mergeLoop,
            deref_eq_ok.mpr live1]
          change ∃ result, (deref nodes q >>= _) = _ ∧ _
          rw [deref_eq_ok.mpr live2]
          change ∃ result,
            (if (chr node1.data).toInt ≤ (chr node2.data).toInt then _ else _) = _ ∧ _
          by_cases first : (chr node1.data).toInt ≤ (chr node2.data).toInt
          · rw [if_pos first, if_pos (decide_eq_true first)]
            apply exists_merged_cons whole1 ready off1 off (List.Subset.refl _)
            intro middle moved
            obtain ⟨node1', live1'⟩ := moved.live live1
            have later := moved.path rest1 (List.disjoint_cons_right.mp off1).2
            rw [← moved.chrAt chr]
            refine @ih middle.2 middle.1 (some p) node1.next (some q) ps (q :: qs) later
              (moved.path whole2 off2) ?_ distinct (by rw [List.length_cons]; omega)
            rintro _ ⟨⟩
            exact ⟨node1', live1'⟩
          · have swapped : (p :: ps ++ q :: qs).Perm (q :: (p :: ps ++ qs)) := List.perm_middle
            rw [if_neg first, if_neg (by simpa using first)]
            apply exists_merged_cons whole2 ready off2 off swapped.symm.subset
            intro middle moved
            obtain ⟨node2', live2'⟩ := moved.live live2
            have later := moved.path rest2 (List.disjoint_cons_right.mp off2).2
            rw [← moved.chrAt chr]
            refine @ih middle.2 middle.1 (some q) (some p) node2.next (p :: ps) qs
              (moved.path whole1 off1) later ?_ (swapped.nodup_iff.mp distinct)
              (by rw [List.length_cons]; omega)
            rintro _ ⟨⟩
            exact ⟨node2', live2'⟩

end Merge

theorem mergeTnodeList_merged {nodes : Heap (ListNode δ)} {list1 list2 : Option Nat}
    {ps qs : List Nat} (path1 : Path ListNode.next nodes list1 ps none)
    (path2 : Path ListNode.next nodes list2 qs none) (apart : (ps ++ qs).Nodup) :
    ∃ head nodes', mergeTnodeList chr nodes list1 list2 = .ok (head, nodes') ∧
      Path ListNode.next nodes' head
        (ps.merge qs fun p q => decide (chrAt chr nodes p ≤ chrAt chr nodes q)) none ∧
      Relinked nodes nodes' (ps ++ qs) := by
  have enough : ps.length + qs.length ≤ nodes.next := by
    rw [← List.length_append]
    apply length_le_next apart
    intro p member
    obtain first | second := List.mem_append.mp member
    · exact path1.live first
    · exact path2.live second
  obtain ⟨result, ran, path, _, relinked⟩ :=
    @mergeLoop_merged δ chr nodes none none list1 list2 ps qs path1 path2 nofun apart _ enough
  exact ⟨result.1, result.2, ran, path, relinked⟩

/-! ## Sorting -/

section Sorting

variable {nodes nodes' nodes'' : Heap (ListNode δ)} {head list1 list2 : Option Nat}
  {ps qs : List Nat} {fuel : Nat}

/-- The sort of list values, on addresses. -/
abbrev sorted (nodes : Heap (ListNode δ)) (fuel : Nat) (ps : List Nat) : List Nat :=
  SolBroker.mergeSortUpTo (chrAt chr nodes) fuel ps

/-- Sorting one list and then another one leaves both of them sorted. -/
theorem sorted_both (first : Path ListNode.next nodes' list1 (sorted chr nodes fuel ps) none)
    (moved : Relinked nodes nodes' ps)
    (second : Path ListNode.next nodes'' list2 (sorted chr nodes' fuel qs) none)
    (moved' : Relinked nodes' nodes'' qs) (apart : ps.Disjoint qs) :
    Path ListNode.next nodes'' list1 (sorted chr nodes fuel ps) none ∧
      Path ListNode.next nodes'' list2 (sorted chr nodes fuel qs) none ∧
        Relinked nodes nodes'' (ps ++ qs) := by
  rw [sorted, moved.chrAt] at second
  refine ⟨moved'.path first ?_, second, moved.trans_append moved'⟩
  exact List.disjoint_of_subset_right (mergeSortUpTo_perm _ _ _).subset apart.symm

/-- The merge of two parts that have been sorted. -/
theorem mergeTnodeList_sorted (moved : Relinked nodes nodes' (ps ++ qs))
    (path1 : Path ListNode.next nodes' list1 (sorted chr nodes fuel ps) none)
    (path2 : Path ListNode.next nodes' list2 (sorted chr nodes fuel qs) none)
    (distinct : (ps ++ qs).Nodup) :
    ∃ head nodes'', mergeTnodeList chr nodes' list1 list2 = .ok (head, nodes'') ∧
      Path ListNode.next nodes'' head ((sorted chr nodes fuel ps).merge (sorted chr nodes fuel qs)
        fun p q => decide (chrAt chr nodes p ≤ chrAt chr nodes q)) none ∧
      Relinked nodes nodes'' (ps ++ qs) := by
  have same : (sorted chr nodes fuel ps ++ sorted chr nodes fuel qs).Perm (ps ++ qs) :=
    (mergeSortUpTo_perm _ _ _).append (mergeSortUpTo_perm _ _ _)
  obtain ⟨head, nodes'', ran, path, moved'⟩ :=
    mergeTnodeList_merged chr path1 path2 (same.nodup_iff.mpr distinct)
  rw [moved.chrAt] at path
  exact ⟨head, nodes'', ran, path, moved.trans (moved'.mono same.subset)⟩

/-- `merge_sort_tnode` sorts the addresses of its list, whichever half it sorts first. -/
theorem mergeSortUpTo_sorted (rightFirst : Nat → Nat → Bool)
    (path : Path ListNode.next nodes head ps none) (enough : ps.length ≤ fuel) :
    ∃ head' nodes', mergeSortUpTo chr rightFirst fuel nodes head = .ok (head', nodes') ∧
      Path ListNode.next nodes' head' (sorted chr nodes fuel ps) none ∧
      Relinked nodes nodes' ps := by
  induction fuel generalizing nodes head ps with
  | zero =>
      obtain rfl : ps = [] := List.length_eq_zero_iff.mp (Nat.le_zero.mp enough)
      obtain rfl : head = none := path
      exact ⟨none, nodes, rfl, rfl, .refl _ _⟩
  | succ fuel ih =>
      match ps, path with
      | [], path =>
          obtain rfl : head = none := path
          exact ⟨none, nodes, rfl, rfl, .refl _ _⟩
      | [p], path =>
          have whole := path
          obtain ⟨rfl, node, live, ended⟩ := path
          refine ⟨some p, nodes, ?_, whole, .refl _ _⟩
          rw [mergeSortUpTo, deref_eq_ok.mpr live]
          exact if_pos ended
      | p :: q :: ps, path =>
          have whole := path
          obtain ⟨rfl, node, live, more, _⟩ := path
          obtain ⟨short1, short2⟩ := bisectList_shorter (p :: q :: ps) (by simp)
          obtain ⟨list2, nodes₁, cut, path1, path2, moved₁⟩ := bisectList_eq whole (by simp)
          have split : (SolBroker.bisectList (p :: q :: ps)).1 ++
              (SolBroker.bisectList (p :: q :: ps)).2 = p :: q :: ps := bisectLoop_append _ _
          have distinct := split.symm ▸ whole.nodup
          have apart := List.disjoint_of_nodup_append distinct
          rw [sorted, mergeSortUpTo_halves, ← moved₁.chrAt chr, mergeSortUpTo,
            deref_eq_ok.mpr live]
          change ∃ head' nodes', (if node.next = none then _ else _) = _ ∧ _
          rw [more, if_neg (Option.some_ne_none q), cut]
          change ∃ head' nodes', (if rightFirst fuel p = true then _ else _) = _ ∧ _
          by_cases order : rightFirst fuel p = true
          · obtain ⟨list2', nodes₂, ran2, sorted2, moved₂⟩ := ih path2 (by omega)
            obtain ⟨list1', nodes₃, ran1, sorted1, moved₃⟩ :=
              ih (moved₂.path path1 apart.symm) (by omega)
            obtain ⟨sorted2, sorted1, both⟩ :=
              sorted_both chr sorted2 moved₂ sorted1 moved₃ apart.symm
            have both := both.mono List.perm_append_comm.subset
            obtain ⟨head', nodes', ran, merged, moved⟩ :=
              mergeTnodeList_sorted chr both sorted1 sorted2 distinct
            refine ⟨head', nodes', ?_, merged, moved₁.trans (split ▸ moved)⟩
            rw [if_pos order, ran2]
            change (mergeSortUpTo chr rightFirst fuel nodes₂ (some p) >>= _) = _
            rw [ran1]
            exact ran
          · obtain ⟨list1', nodes₂, ran1, sorted1, moved₂⟩ := ih path1 (by omega)
            obtain ⟨list2', nodes₃, ran2, sorted2, moved₃⟩ :=
              ih (moved₂.path path2 apart) (by omega)
            obtain ⟨sorted1, sorted2, both⟩ := sorted_both chr sorted1 moved₂ sorted2 moved₃ apart
            obtain ⟨head', nodes', ran, merged, moved⟩ :=
              mergeTnodeList_sorted chr both sorted1 sorted2 distinct
            refine ⟨head', nodes', ?_, merged, moved₁.trans (split ▸ moved)⟩
            rw [if_neg order, ran1]
            change (mergeSortUpTo chr rightFirst fuel nodes₂ list2 >>= _) = _
            rw [ran2]
            exact ran

end Sorting

/-- The nodes at `qs` are those at `ps`, ascending, and nodes with one key as they were. -/
structure SortsStably (key : Nat → Int) (ps qs : List Nat) : Prop where
  perm : qs.Perm ps
  ascends : qs.Pairwise fun p q => key p ≤ key q
  stable : ∀ c, qs.filter (fun p => key p = c) = ps.filter fun p => key p = c

/-- `merge_sort_tnode` returns on every list and sorts its nodes stably in place, and
`bisect_list` leaves two lists with nodes in both, which make up the list there was. -/
theorem mergeSortTnode_sortsStably (rightFirst : Nat → Nat → Bool) {nodes : Heap (ListNode δ)}
    {head : Option Nat} {ps : List Nat} (path : Path ListNode.next nodes head ps none) :
    (∃ head' nodes' qs, mergeSortTnode chr rightFirst nodes head = .ok (head', nodes') ∧
      Path ListNode.next nodes' head' qs none ∧ SortsStably (chrAt chr nodes) ps qs ∧
      Relinked nodes nodes' ps) ∧
    (2 ≤ ps.length → ∃ list2 nodes' front back, bisectList nodes head = .ok (list2, nodes') ∧
      front ≠ [] ∧ back ≠ [] ∧ front ++ back = ps ∧ Path ListNode.next nodes' head front none ∧
      Path ListNode.next nodes' list2 back none) := by
  have enough := path.length_le
  constructor
  · obtain ⟨head', nodes', ran, sorted, moved⟩ := mergeSortUpTo_sorted chr rightFirst path enough
    refine ⟨head', nodes', _, ran, sorted, ⟨?_, ?_, ?_⟩, moved⟩
    · exact mergeSortUpTo_perm _ _ _
    · exact SolBroker.mergeSortUpTo_sorted _ _ _ enough
    · exact mergeSortUpTo_stable _ _ _ enough
  · intro two
    obtain ⟨list2, nodes', cut, path1, path2, _⟩ := bisectList_eq path two
    have split : (SolBroker.bisectList ps).1 ++ (SolBroker.bisectList ps).2 = ps :=
      bisectLoop_append ps ps
    have half : (SolBroker.bisectList ps).1.length = ps.length / 2 :=
      bisectLoop_length ps ps le_rfl
    have whole := congrArg List.length split
    rw [List.length_append] at whole
    refine ⟨list2, nodes', _, _, cut, ?_, ?_, split, path1, path2⟩
    · exact List.length_pos_iff.mp (by omega)
    · exact List.length_pos_iff.mp (by omega)

/-- Nodes for `b`, `a` and `a` again. -/
def nodesBAA : Heap (ListNode (TrieNode Nat)) :=
  ⟨[some ⟨trieCreateNode 98, some 1⟩, some ⟨trieCreateNode 97, some 2⟩,
    some ⟨trieCreateNode 97, none⟩]⟩

theorem path_nodesBAA : Path ListNode.next nodesBAA (some 0) [0, 1, 2] none :=
  ⟨rfl, _, rfl, rfl, _, rfl, rfl, _, rfl, rfl⟩

theorem mergeSortTnode_sortsStably_nodesBAA :
    ∃ head' nodes' qs,
      mergeSortTnode TrieNode.chr (fun _ _ => true) nodesBAA (some 0) = .ok (head', nodes') ∧
        Path ListNode.next nodes' head' qs none ∧
          SortsStably (chrAt TrieNode.chr nodesBAA) [0, 1, 2] qs ∧
            Relinked nodesBAA nodes' [0, 1, 2] :=
  (mergeSortTnode_sortsStably TrieNode.chr (fun _ _ => true) path_nodesBAA).1

end LinkedList

end SolBroker
