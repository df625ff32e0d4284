import Mathlib
import SolBroker.Lib.Run
import SolBroker.Linked.List

/-!
# The tail of a list

`list_push_back` writes through `tail`, and only the two pushes and `list_clear` set it.
`list_remove` moves `head` and `len` and leaves `tail` where it is, so the three fields agree
until the last of several nodes is removed; then `tail` points at freed memory.
-/

namespace SolBroker

namespace LinkedList

open Heap Transition

variable {δ : Type}

/-- The three fields agree on the nodes at `ps`. -/
structure WellFormed (l : LinkedList δ) (ps : List Nat) : Prop where
  reaches : l.Reaches ps
  len : l.len = ps.length
  tail : ps ≠ [] → l.tail = ps.getLast?

/-- `list_push_back` puts a new node with the value behind those at `ps`. -/
def Appends (l : LinkedList δ) (ps : List Nat) : Prop :=
  ∀ val, ∃ l', l.pushBack val = .ok l' ∧ Becomes l l' (ps ++ [l.nodes.next]) ∧
    l'.dataAt l.nodes.next = some val

/-- The calls that build a list. -/
inductive ListOp (δ : Type)
  | push (val : δ)
  | pushBack (val : δ)
  | remove (cmp : CompareFunc δ)
  | clear

def ListOp.apply (l : LinkedList δ) : ListOp δ → Except Fault (LinkedList δ)
  | push val => .ok (l.push val)
  | pushBack val => l.pushBack val
  | remove cmp => l.remove cmp
  | clear => l.clear

/-- A call that returns. -/
def ListOp.Calls (l : LinkedList δ) (op : ListOp δ) (l' : LinkedList δ) : Prop :=
  op.apply l = .ok l'

/-- The fields agree, what is pushed at the back is appended, and every call returns. -/
structure Represents (l : LinkedList δ) : Prop where
  appends : ∃ ps, l.WellFormed ps ∧ l.Appends ps
  returns : ∀ op, ∃ l', ListOp.Calls l op l'

/-- The node that is removed, if any, is not the last of several. -/
def KeepsTail (l : LinkedList δ) : ListOp δ → Prop
  | .remove cmp => ∀ ps, l.Reaches ps → 2 ≤ ps.length →
      ps.find? (Hit cmp l.nodes) ≠ ps.getLast?
  | .push _ | .pushBack _ | .clear => True

/-- Dropping the first hit changes the last element exactly if that is the one dropped. -/
theorem getLast?_eraseP_iff {ps : List Nat} (distinct : ps.Nodup) (hit : Nat → Bool) :
    (ps.eraseP hit ≠ [] → ps.getLast? = (ps.eraseP hit).getLast?) ↔
      (2 ≤ ps.length → ps.find? hit ≠ ps.getLast?) := by
  obtain rfl | ⟨front, t, rfl⟩ := List.eq_nil_or_concat' ps
  · simp
  · have off : t ∉ front := fun member =>
      (List.nodup_append.mp distinct).2.2 t member t (List.mem_singleton_self t) rfl
    rw [List.getLast?_concat, List.find?_append]
    cases found : front.find? hit with
    | some p =>
        -- the last node stays where it is
        have member := List.mem_of_find?_eq_some found
        rw [List.eraseP_append_left (List.find?_some found) _ member, List.getLast?_concat]
        apply iff_of_true (fun _ => rfl)
        intro _ same
        rw [Option.some_or, Option.some.injEq] at same
        exact off (same ▸ member)
    | none =>
        have none_ := List.find?_eq_none.mp found
        rw [List.eraseP_append_right _ none_, Option.none_or]
        by_cases last : hit t = true
        · rw [List.eraseP_cons_of_pos last, List.append_nil, List.find?_cons_of_pos last]
          rcases front.eq_nil_or_concat' with rfl | ⟨before, u, rfl⟩
          · simp
          · refine iff_of_false (fun same => off ?_) fun never => never (by simp) rfl
            have same := same (by simp)
            rw [List.getLast?_concat, Option.some.injEq] at same
            rw [same]
            simp
        · rw [List.eraseP_cons_of_neg last, List.eraseP_nil, List.getLast?_concat,
            List.find?_cons_of_neg last]
          simp

section Invariant

variable {l l' : LinkedList δ} {ps : List Nat}

theorem WellFormed.appends (formed : l.WellFormed ps) : l.Appends ps := by
  intro val
  obtain ⟨l', pushed, becomes, new, _⟩ :=
    pushBack_becomes formed.reaches formed.len formed.tail val
  exact ⟨l', pushed, becomes, new⟩

theorem WellFormed.returns (formed : l.WellFormed ps) (op : ListOp δ) :
    ∃ l', ListOp.Calls l op l' := by
  cases op with
  | push val => exact ⟨l.push val, rfl⟩
  | pushBack val =>
      obtain ⟨l', pushed, _⟩ := formed.appends val
      exact ⟨l', pushed⟩
  | remove cmp =>
      obtain ⟨l', removed, _⟩ := remove_becomes formed.reaches formed.len cmp
      exact ⟨l', removed⟩
  | clear =>
      obtain ⟨l', cleared, _⟩ := clear_becomes formed.reaches formed.len
      exact ⟨l', cleared⟩

theorem represents_iff : l.Represents ↔ ∃ ps, l.WellFormed ps := by
  constructor
  · rintro ⟨⟨ps, formed, _⟩, _⟩
    exact ⟨ps, formed⟩
  · rintro ⟨ps, formed⟩
    exact ⟨⟨ps, formed, formed.appends⟩, formed.returns⟩

theorem wellFormed_create (nodes : Heap (ListNode δ)) : (create nodes).WellFormed [] :=
  ⟨rfl, rfl, absurd rfl⟩

/-- What is reachable settles whether the fields agree. -/
theorem Becomes.wellFormed_iff (becomes : Becomes l l' ps) :
    (∃ qs, l'.WellFormed qs) ↔ (ps ≠ [] → l'.tail = ps.getLast?) := by
  constructor
  · rintro ⟨qs, formed⟩
    obtain rfl := formed.reaches.unique becomes.reaches
    exact formed.tail
  · intro tail
    exact ⟨ps, becomes.reaches, becomes.len, tail⟩

theorem WellFormed.push (formed : l.WellFormed ps) (val : δ) :
    (l.push val).WellFormed (l.nodes.next :: ps) := by
  obtain ⟨becomes, _, tail⟩ := push_becomes formed.reaches formed.len val
  refine ⟨becomes.reaches, becomes.len, ?_⟩
  intro _
  rw [tail]
  by_cases empty : ps = []
  · rw [if_pos empty, empty]
    rfl
  · rw [if_neg empty, formed.tail empty, List.getLast?_cons_of_ne_nil empty]

theorem WellFormed.pushBack (formed : l.WellFormed ps) {val : δ}
    (pushed : l.pushBack val = .ok l') : l'.WellFormed (ps ++ [l.nodes.next]) := by
  obtain ⟨_, pushed', becomes, _, tail⟩ :=
    pushBack_becomes formed.reaches formed.len formed.tail val
  cases pushed.symm.trans pushed'
  refine ⟨becomes.reaches, becomes.len, ?_⟩
  intro _
  rw [tail, List.getLast?_concat]

theorem WellFormed.clear (formed : l.WellFormed ps) (cleared : l.clear = .ok l') :
    l'.WellFormed [] := by
  obtain ⟨_, cleared', becomes⟩ := clear_becomes formed.reaches formed.len
  cases cleared.symm.trans cleared'
  exact ⟨becomes.reaches, becomes.len, absurd rfl⟩

/-- A removal leaves `tail` right unless it takes the node that `tail` points at and others
stay. -/
theorem WellFormed.remove_iff (formed : l.WellFormed ps) {cmp : CompareFunc δ}
    (removed : l.remove cmp = .ok l') :
    (∃ qs, l'.WellFormed qs) ↔ KeepsTail l (.remove cmp) := by
  obtain ⟨_, removed', becomes, same⟩ := remove_becomes formed.reaches formed.len cmp
  cases removed.symm.trans removed'
  have exact_ := getLast?_eraseP_iff formed.reaches.nodup (Hit cmp l.nodes)
  have tail (rest : ps.eraseP (Hit cmp l.nodes) ≠ []) : l.tail = ps.getLast? := by
    apply formed.tail
    rintro rfl
    exact rest rfl
  rw [becomes.wellFormed_iff, same]
  constructor
  · intro kept qs reaches
    obtain rfl := formed.reaches.unique reaches
    apply exact_.mp
    intro rest
    rw [← kept rest, tail rest]
  · intro keeps rest
    rw [tail rest]
    exact exact_.mpr (keeps ps formed.reaches) rest

/-- A call keeps the fields in agreement exactly if it does not remove the last of several
nodes. -/
theorem WellFormed.calls_iff (formed : l.WellFormed ps) {op : ListOp δ}
    (called : ListOp.Calls l op l') : (∃ qs, l'.WellFormed qs) ↔ KeepsTail l op := by
  cases op with
  | push val =>
      cases called
      exact iff_of_true ⟨_, formed.push val⟩ trivial
  | pushBack val => exact iff_of_true ⟨_, formed.pushBack called⟩ trivial
  | remove cmp => exact formed.remove_iff called
  | clear => exact iff_of_true ⟨_, formed.clear called⟩ trivial

end Invariant

/-- In a run of calls on a new list, `head`, `tail` and `len` agree in every state, with
`list_push_back` appending at the end, exactly if no call removes the last of several
nodes. -/
theorem represents_throughout_iff {nodes : Heap (ListNode δ)}
    {tr : List (LinkedList δ × ListOp δ)} {l : LinkedList δ}
    (run : Run ListOp.Calls (create nodes) tr l) :
    ((∀ visit ∈ tr, visit.1.Represents) ∧ l.Represents) ↔
      ∀ visit ∈ tr, KeepsTail visit.1 visit.2 := by
  refine @Run.invariant_iff _ _ _ _ (fun _ => True) Represents KeepsTail trivial
    (fun _ _ _ _ _ => trivial) ?_ ?_ _ _ run
  · exact represents_iff.mpr ⟨[], wellFormed_create nodes⟩
  · intro l op l' _ here called
    obtain ⟨ps, formed⟩ := represents_iff.mp here
    rw [represents_iff, formed.calls_iff called]

/-- Of two values pushed at the back the first is removed, and a third is pushed. -/
theorem represents_oneTwo :
    ∃ tr l, Run ListOp.Calls (create (δ := Nat) {}) tr l ∧
      tr.map Prod.snd = [.pushBack 1, .pushBack 2, .remove (compareTo 1), .pushBack 3] ∧
      l.Represents := by
  let start : LinkedList Nat := create {}
  let one : LinkedList Nat := ⟨⟨[some ⟨1, none⟩]⟩, some 0, some 0, 1⟩
  let rest : LinkedList Nat := ⟨⟨[none, some ⟨2, none⟩]⟩, some 1, some 1, 1⟩
  let final : LinkedList Nat := ⟨⟨[none, some ⟨2, some 2⟩, some ⟨3, none⟩]⟩, some 1, some 2, 2⟩
  have first : ListOp.Calls start (.pushBack 1) one := rfl
  have second : ListOp.Calls one (.pushBack 2) oneTwo := rfl
  have third : ListOp.Calls oneTwo (.remove (compareTo 1)) rest := rfl
  have fourth : ListOp.Calls rest (.pushBack 3) final := rfl
  have run := (((Run.nil.snoc first).snoc second).snoc third).snoc fourth
  refine ⟨_, final, run, rfl, ((represents_throughout_iff run).mpr ?_).2⟩
  intro visit member
  simp only [List.nil_append, List.cons_append, List.mem_cons, List.not_mem_nil, or_false]
    at member
  obtain rfl | rfl | rfl | rfl := member
  · trivial
  · trivial
  · intro ps reaches _
    obtain rfl : ps = [0, 1] := reaches.unique reaches_oneTwo
    decide
  · trivial

/-- When the second of two values is removed, `tail` still points at its node. -/
theorem not_wellFormed_oneTwo :
    ¬ ∀ tr l, Run ListOp.Calls (create (δ := Nat) {}) tr l → ∃ ps, l.WellFormed ps := by
  intro always
  let start : LinkedList Nat := create {}
  let one : LinkedList Nat := ⟨⟨[some ⟨1, none⟩]⟩, some 0, some 0, 1⟩
  let rest : LinkedList Nat := ⟨⟨[some ⟨1, none⟩, none]⟩, some 0, some 1, 1⟩
  have first : ListOp.Calls start (.pushBack 1) one := rfl
  have second : ListOp.Calls one (.pushBack 2) oneTwo := rfl
  have third : ListOp.Calls oneTwo (.remove (compareTo 2)) rest := rfl
  obtain ⟨ps, reaches, _, tail⟩ :=
    always _ rest (((Run.nil.snoc first).snoc second).snoc third)
  obtain rfl : ps = [0] := reaches.unique ⟨rfl, _, rfl, rfl⟩
  exact absurd (tail nofun) (by decide)

end LinkedList

end SolBroker
