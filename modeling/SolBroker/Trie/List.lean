import Mathlib

/-!
# Lists of nodes and their merge sort

The singly linked list of list.c, with its separately kept length. The tail pointer
and the destructor are left out: nothing here appends at the back, and the lists
below are created without a destructor. Sorting follows `merge_sort_tnode`, which
cuts a list in two with a slow and a fast pointer.
-/

namespace SolBroker

variable {α : Type*}

/-- `List`: the nodes reached from `head`, and `len`. -/
structure CList (α : Type*) where
  nodes : List α := []
  len : Nat := 0
deriving DecidableEq, Repr

/-- `list_create`. -/
def listCreate : CList α := {}

/-- `list_push`: a list of length zero is started afresh. -/
def listPush (l : CList α) (val : α) : CList α where
  nodes := if l.len = 0 then [val] else val :: l.nodes
  len := l.len + 1

/-- `list_node_remove`: drop the first node that compares equal, and say whether
there was one. -/
def listNodeRemove (cmp : α → Bool) : List α → List α × Nat
  | [] => ([], 0)
  | head :: next =>
      if cmp head then (next, 1)
      else
        let (next', counter) := listNodeRemove cmp next
        (head :: next', counter)

/-- `list_remove`. -/
def listRemove (l : CList α) (cmp : α → Bool) : CList α where
  nodes := (listNodeRemove cmp l.nodes).1
  len := l.len - (listNodeRemove cmp l.nodes).2

/-- `list_clear`. -/
def listClear (l : CList α) : CList α :=
  if l.nodes.isEmpty then l else listCreate

/-- The recorded length is the number of nodes. -/
def CList.Counted (l : CList α) : Prop :=
  l.len = l.nodes.length

theorem counted_listCreate : (listCreate : CList α).Counted := rfl

theorem CList.Counted.eq_nil {l : CList α} (counted : l.Counted) (empty : l.len = 0) :
    l.nodes = [] :=
  List.length_eq_zero_iff.mp (counted.symm.trans empty)

theorem nodes_listPush {l : CList α} (counted : l.Counted) (val : α) :
    (listPush l val).nodes = val :: l.nodes := by
  unfold listPush
  by_cases empty : l.len = 0
  · simp [empty, counted.eq_nil empty]
  · simp [empty]

theorem counted_listPush {l : CList α} (counted : l.Counted) (val : α) :
    (listPush l val).Counted := by
  rw [CList.Counted, nodes_listPush counted, List.length_cons, ← counted]
  rfl

@[simp] theorem nodes_listClear (l : CList α) : (listClear l).nodes = [] := by
  unfold listClear
  split
  · rename_i empty
    exact List.isEmpty_iff.mp empty
  · rfl

theorem counted_listClear {l : CList α} (counted : l.Counted) : (listClear l).Counted := by
  unfold listClear
  split
  · exact counted
  · exact counted_listCreate

/-- Removal stops at the first match. -/
theorem listNodeRemove_middle {cmp : α → Bool} {before after : List α} {x : α}
    (earlier : ∀ y ∈ before, cmp y = false) (match_ : cmp x = true) :
    listNodeRemove cmp (before ++ x :: after) = (before ++ after, 1) := by
  induction before with
  | nil => simp [listNodeRemove, match_]
  | cons y before ih =>
      have skip := earlier y (List.mem_cons_self ..)
      have rest := ih fun z member => earlier z (List.mem_cons_of_mem _ member)
      simp [listNodeRemove, skip, rest]

/-- The loop of `bisect_list`: what `slow` passed, and where it stops. -/
def bisectLoop : List α → List α → List α × List α
  | _ :: _ :: fast, s :: slow =>
      let (passed, rest) := bisectLoop fast slow
      (s :: passed, rest)
  | _, slow => ([], slow)

/-- `bisect_list`: the truncated list and its second half. -/
def bisectList (head : List α) : List α × List α :=
  bisectLoop head head

theorem bisectLoop_append (fast slow : List α) :
    (bisectLoop fast slow).1 ++ (bisectLoop fast slow).2 = slow := by
  fun_induction bisectLoop fast slow with
  | case1 _ _ fast s slow passed rest run ih =>
      simpa [run] using ih
  | case2 => rfl

theorem bisectLoop_length (fast slow : List α) (within : fast.length ≤ slow.length) :
    (bisectLoop fast slow).1.length = fast.length / 2 := by
  fun_induction bisectLoop fast slow with
  | case1 _ _ fast s slow passed rest run ih =>
      simp only [List.length_cons] at within ⊢
      have := ih (by omega)
      simp only [run] at this
      omega
  | case2 fast slow stop =>
      match fast, slow with
      | [], _ => simp
      | [_], _ => simp
      | _ :: _ :: _, [] => simp at within
      | a :: b :: fast, s :: slow => exact (stop a b fast s slow rfl rfl).elim

variable (chr : α → Int)

/-- The loop of `merge_tnode_list`, for at most `rounds` rounds. -/
def mergeLoop : Nat → List α → List α → List α
  | rounds + 1, x :: list1, y :: list2 =>
      if chr x ≤ chr y then x :: mergeLoop rounds list1 (y :: list2)
      else y :: mergeLoop rounds (x :: list1) list2
  | _, [], list2 => list2
  | _, list1, _ => list1

/-- `merge_tnode_list`: each round takes one node, and the first list wins ties. -/
def mergeTnodeList (list1 list2 : List α) : List α :=
  mergeLoop chr (list1.length + list2.length) list1 list2

theorem mergeLoop_eq_merge (rounds : Nat) (list1 list2 : List α)
    (enough : list1.length + list2.length ≤ rounds) :
    mergeLoop chr rounds list1 list2 = list1.merge list2 fun a b => decide (chr a ≤ chr b) := by
  induction rounds generalizing list1 list2 with
  | zero =>
      rw [List.length_eq_zero_iff.mp (by omega : list1.length = 0), List.nil_merge, mergeLoop]
  | succ rounds ih =>
      match list1, list2, enough with
      | [], list2, _ => rw [List.nil_merge, mergeLoop]
      | x :: list1, [], _ => simp [mergeLoop]
      | x :: list1, y :: list2, enough =>
          simp only [List.length_cons] at enough
          rw [mergeLoop, List.cons_merge_cons, ih _ _ (by simp only [List.length_cons]; omega),
            ih _ _ (by simp only [List.length_cons]; omega)]
          simp only [decide_eq_true_eq]

theorem mergeTnodeList_eq_merge (list1 list2 : List α) :
    mergeTnodeList chr list1 list2 = list1.merge list2 fun a b => decide (chr a ≤ chr b) :=
  mergeLoop_eq_merge chr _ list1 list2 le_rfl

/-- The recursion of `merge_sort_tnode`, to depth `fuel`. -/
def mergeSortUpTo : Nat → List α → List α
  | _, [] => []
  | _, [x] => [x]
  | 0, head => head
  | fuel + 1, head =>
      let (list1, list2) := bisectList head
      mergeTnodeList chr (mergeSortUpTo fuel list1) (mergeSortUpTo fuel list2)

/-- `merge_sort_tnode`: each half is shorter, so the length is depth enough. -/
def mergeSortTnode (head : List α) : List α :=
  mergeSortUpTo chr head.length head

/-- Both halves of a list of at least two are shorter than it. -/
theorem bisectList_shorter (head : List α) (two : 2 ≤ head.length) :
    (bisectList head).1.length < head.length ∧ (bisectList head).2.length < head.length := by
  have first := bisectLoop_length head head le_rfl
  have whole := congrArg List.length (bisectLoop_append head head)
  simp only [bisectList, List.length_append] at *
  omega

theorem mergeSortUpTo_halves (fuel : Nat) (a b : α) (head : List α) :
    mergeSortUpTo chr (fuel + 1) (a :: b :: head) =
      (mergeSortUpTo chr fuel (bisectList (a :: b :: head)).1).merge
        (mergeSortUpTo chr fuel (bisectList (a :: b :: head)).2)
        fun a b => decide (chr a ≤ chr b) :=
  mergeTnodeList_eq_merge chr _ _

/-- `merge_sort_tnode` rearranges its list. -/
theorem mergeSortUpTo_perm (fuel : Nat) (head : List α) :
    (mergeSortUpTo chr fuel head).Perm head := by
  induction fuel generalizing head with
  | zero =>
      match head with
      | [] | [_] | _ :: _ :: _ => exact .refl _
  | succ fuel ih =>
      match head with
      | [] | [_] => exact .refl _
      | a :: b :: head =>
          have halves := bisectLoop_append (a :: b :: head) (a :: b :: head)
          have sorted := (ih (bisectList (a :: b :: head)).1).append
            (ih (bisectList (a :: b :: head)).2)
          rw [mergeSortUpTo_halves]
          exact (List.merge_perm_append _).trans (sorted.trans (.of_eq halves))

/-- With depth enough the result ascends. -/
theorem mergeSortUpTo_sorted (fuel : Nat) (head : List α) (enough : head.length ≤ fuel) :
    (mergeSortUpTo chr fuel head).Pairwise fun a b => chr a ≤ chr b := by
  induction fuel generalizing head with
  | zero =>
      rw [List.length_eq_zero_iff.mp (Nat.le_zero.mp enough)]
      exact .nil
  | succ fuel ih =>
      match head, enough with
      | [], _ => exact .nil
      | [_], _ => exact List.pairwise_singleton _ _
      | a :: b :: head, enough =>
          obtain ⟨short1, short2⟩ := bisectList_shorter (a :: b :: head) (by simp)
          have sorted1 := ih (bisectList (a :: b :: head)).1 (by omega)
          have sorted2 := ih (bisectList (a :: b :: head)).2 (by omega)
          have merged := @List.pairwise_merge α (fun a b => decide (chr a ≤ chr b))
            (fun a b c => by simpa using le_trans) (fun a b => by simpa using le_total _ _)
            (mergeSortUpTo chr fuel (bisectList (a :: b :: head)).1)
            (mergeSortUpTo chr fuel (bisectList (a :: b :: head)).2)
            (by simpa using sorted1) (by simpa using sorted2)
          simp only [decide_eq_true_eq] at merged
          rw [mergeSortUpTo_halves]
          exact merged

/-- What ties keeps its order in a merge with an ascending first list: nothing of that list
is left to come before a node that was smaller. -/
theorem filter_merge {list1 : List α} (sorted : list1.Pairwise fun a b => chr a ≤ chr b)
    (list2 : List α) (c : Int) :
    (list1.merge list2 fun a b => decide (chr a ≤ chr b)).filter (fun x => chr x = c) =
      list1.filter (fun x => chr x = c) ++ list2.filter (fun x => chr x = c) := by
  induction sorted generalizing list2 with
  | nil => rw [List.nil_merge, List.filter_nil, List.nil_append]
  | @cons x list1 least _ ih =>
      induction list2 with
      | nil => rw [List.merge_right, List.filter_nil, List.append_nil]
      | cons y list2 ih' =>
          rw [List.cons_merge_cons]
          by_cases first : chr x ≤ chr y
          · rw [if_pos (decide_eq_true first), List.filter_cons, List.filter_cons, ih]
            split <;> rfl
          · rw [if_neg (by simpa using first), List.filter_cons, ih', List.filter_cons (x := y)]
            by_cases tie : chr y = c
            · have none_ : (x :: list1).filter (fun z => chr z = c) = [] := by
                rw [List.filter_eq_nil_iff]
                intro z member
                have above : chr x ≤ chr z := by
                  obtain rfl | later := List.mem_cons.mp member
                  · exact le_rfl
                  · exact least z later
                rw [decide_eq_true_eq]
                omega
              rw [none_, if_pos (decide_eq_true tie), if_pos (decide_eq_true tie)]
              rfl
            · rw [if_neg (by simpa using tie), if_neg (by simpa using tie)]

/-- Nodes with one character keep their order. -/
theorem mergeSortUpTo_stable (fuel : Nat) (head : List α) (enough : head.length ≤ fuel)
    (c : Int) :
    (mergeSortUpTo chr fuel head).filter (fun x => chr x = c) =
      head.filter (fun x => chr x = c) := by
  induction fuel generalizing head with
  | zero =>
      rw [List.length_eq_zero_iff.mp (Nat.le_zero.mp enough), mergeSortUpTo]
  | succ fuel ih =>
      match head, enough with
      | [], _ => rw [mergeSortUpTo]
      | [_], _ => rw [mergeSortUpTo]
      | a :: b :: head, enough =>
          obtain ⟨short1, short2⟩ := bisectList_shorter (a :: b :: head) (by simp)
          have sorted := mergeSortUpTo_sorted chr fuel (bisectList (a :: b :: head)).1 (by omega)
          have whole := bisectLoop_append (a :: b :: head) (a :: b :: head)
          rw [mergeSortUpTo_halves, filter_merge chr sorted, ih _ (by omega), ih _ (by omega),
            ← List.filter_append]
          exact congrArg (List.filter _) whole

theorem mergeSortTnode_perm (head : List α) : (mergeSortTnode chr head).Perm head :=
  mergeSortUpTo_perm chr _ head

theorem mergeSortTnode_sorted (head : List α) :
    (mergeSortTnode chr head).Pairwise fun a b => chr a ≤ chr b :=
  mergeSortUpTo_sorted chr _ head le_rfl

end SolBroker
