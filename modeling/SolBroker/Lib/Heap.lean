import Mathlib

/-!
# Heaps of objects of one type

Addresses are handed out in order and never reused, so a pointer to a freed object
stays a pointer to a freed object.
-/

/-- The objects by address, `none` once freed. -/
structure Heap (α : Type*) where
  cells : List (Option α) := []
deriving DecidableEq, Repr

namespace Heap

variable {α : Type*}

/-- The object at an address, while it is allocated. -/
def get? (h : Heap α) (p : Nat) : Option α := h.cells[p]?.join

/-- The address of the next object. -/
def next (h : Heap α) : Nat := h.cells.length

def alloc (h : Heap α) (a : α) : Heap α := ⟨h.cells ++ [some a]⟩

def write (h : Heap α) (p : Nat) (a : α) : Heap α := ⟨h.cells.set p (some a)⟩

def free (h : Heap α) (p : Nat) : Heap α := ⟨h.cells.set p none⟩

/-- The objects that are allocated. -/
def objects (h : Heap α) : List α := h.cells.reduceOption

variable {h : Heap α} {p q : Nat} {a b : α}

theorem mem_objects : a ∈ h.objects ↔ ∃ p, h.get? p = some a := by
  rw [objects, List.reduceOption_mem_iff, List.mem_iff_getElem?]
  simp only [get?, Option.join_eq_some_iff]

theorem lt_next (live : h.get? p = some a) : p < h.next := by
  by_contra beyond
  rw [get?, List.getElem?_eq_none (not_lt.mp beyond)] at live
  cases live

/-- The next address has never been used. -/
@[simp] theorem get?_next : h.get? h.next = none := by
  cases fresh : h.get? h.next with
  | none => rfl
  | some a => exact absurd (lt_next fresh) (lt_irrefl _)

theorem get?_alloc : (h.alloc a).get? p = if p = h.next then some a else h.get? p := by
  unfold alloc get? next
  rcases lt_trichotomy p h.cells.length with below | rfl | above
  · rw [List.getElem?_append_left below, if_neg below.ne]
  · rw [if_pos rfl, List.getElem?_concat_length]
    rfl
  · rw [if_neg above.ne', List.getElem?_eq_none above.le, List.getElem?_eq_none]
    rw [List.length_append, List.length_singleton]
    omega

/-- An allocation fills the next cell. -/
theorem get?_alloc_eq : (h.alloc a).get? = Function.update h.get? h.next (some a) := by
  funext p
  rw [get?_alloc, Function.update_apply]

theorem get?_alloc_of_live (live : h.get? p = some b) : (h.alloc a).get? p = some b := by
  rw [get?_alloc, if_neg (lt_next live).ne, live]

theorem get?_write (live : h.get? p = some b) :
    (h.write p a).get? q = if q = p then some a else h.get? q := by
  have inside : p < h.cells.length := lt_next live
  unfold write get?
  by_cases same : q = p
  · rw [if_pos same, same, List.getElem?_set_self inside]
    rfl
  · rw [if_neg same, List.getElem?_set_ne (Ne.symm same)]

/-- The later of two writes to an address is the one that counts. -/
theorem write_write (h : Heap α) (p : Nat) (a b : α) : (h.write p a).write p b = h.write p b := by
  unfold write
  rw [List.set_set]

theorem get?_free : (h.free p).get? q = if q = p then none else h.get? q := by
  unfold free get?
  by_cases same : q = p
  · rw [if_pos same, same, List.getElem?_set_self']
    cases h.cells[p]? <;> rfl
  · rw [if_neg same, List.getElem?_set_ne (Ne.symm same)]

theorem get?_write_eq (live : h.get? p = some b) :
    (h.write p a).get? = Function.update h.get? p (some a) := by
  funext q
  rw [get?_write live, Function.update_apply]

theorem get?_free_eq : (h.free p).get? = Function.update h.get? p none := by
  funext q
  rw [get?_free, Function.update_apply]

@[simp] theorem next_alloc : (h.alloc a).next = h.next + 1 := by
  simp [next, alloc]

@[simp] theorem next_write : (h.write p a).next = h.next :=
  List.length_set

@[simp] theorem next_free : (h.free p).next = h.next :=
  List.length_set

theorem objects_alloc : (h.alloc a).objects = h.objects ++ [a] := by
  rw [objects, alloc, List.reduceOption_append, List.reduceOption_singleton]
  rfl

/-- An object among the others, and what a write and a free make of them. -/
theorem objects_split (live : h.get? p = some b) : ∃ before after,
    h.objects = before ++ b :: after ∧ (∀ a, (h.write p a).objects = before ++ a :: after) ∧
      (h.free p).objects = before ++ after := by
  have inside : p < h.cells.length := lt_next live
  have cell : h.cells[p] = some b := by
    rw [get?, List.getElem?_eq_getElem inside] at live
    exact live
  have cells (x : Option α) : (h.cells.set p x).reduceOption =
      (h.cells.take p).reduceOption ++ (x.toList ++ (h.cells.drop (p + 1)).reduceOption) := by
    rw [List.set_eq_take_append_cons_drop, if_pos inside, List.reduceOption_append]
    cases x <;> rfl
  refine ⟨(h.cells.take p).reduceOption, (h.cells.drop (p + 1)).reduceOption, ?_,
    fun a => cells (some a), cells none⟩
  have unchanged : h.cells.set p (some b) = h.cells := by
    rw [← cell, List.set_getElem_self]
  have same := cells (some b)
  rwa [unchanged] at same

end Heap
