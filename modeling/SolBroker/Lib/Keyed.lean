import Mathlib

/-!
# Lists whose elements carry distinct keys

A list stands for a finite map from keys to elements when no two of its elements
have the same key. Looking a key up then depends only on which elements there are,
not on their order, and replacing or dropping one element changes one key.
-/

namespace Keyed

variable {α κ : Type*} (key : α → κ)

/-- No two elements share a key. -/
def Distinct (xs : List α) : Prop :=
  xs.Pairwise fun x y => key x ≠ key y

/-- The first element with key `k`. -/
def find? [DecidableEq κ] (k : κ) (xs : List α) : Option α :=
  xs.find? fun x => key x = k

variable {key} {k : κ} {x y : α} {xs ys before after : List α}

theorem Distinct.perm (distinct : Distinct key xs) (same : xs.Perm ys) : Distinct key ys :=
  (same.pairwise_iff fun different => different.symm).mp distinct

theorem Distinct.middle (distinct : Distinct key (before ++ x :: after)) :
    Distinct key (x :: (before ++ after)) :=
  distinct.perm List.perm_middle

variable [DecidableEq κ]

@[simp] theorem find?_nil : find? key k [] = none := rfl

theorem find?_eq_none_iff : find? key k xs = none ↔ ∀ x ∈ xs, key x ≠ k := by
  simp [find?]

/-- With distinct keys, being found is being there. -/
theorem find?_eq_some_iff (distinct : Distinct key xs) :
    find? key k xs = some x ↔ x ∈ xs ∧ key x = k := by
  induction distinct with
  | nil => simp
  | @cons a xs fresh _ ih =>
      simp only [find?] at ih
      by_cases here : key a = k
      · simp only [find?, List.find?_cons, here, decide_true, List.mem_cons, Option.some.injEq]
        constructor
        · rintro rfl
          exact ⟨.inl rfl, here⟩
        · rintro ⟨rfl | member, keyed⟩
          · rfl
          · exact absurd (here.trans keyed.symm) (fresh x member)
      · simp only [find?, List.find?_cons, here, decide_false, List.mem_cons, ih]
        constructor
        · rintro ⟨member, keyed⟩
          exact ⟨.inr member, keyed⟩
        · rintro ⟨rfl | member, keyed⟩
          · exact absurd keyed here
          · exact ⟨member, keyed⟩

/-- A lookup does not see the order of the elements. -/
theorem find?_perm (distinct : Distinct key xs) (same : xs.Perm ys) :
    find? key k xs = find? key k ys := by
  ext x
  rw [find?_eq_some_iff distinct, find?_eq_some_iff (distinct.perm same), same.mem_iff]

theorem find?_cons : find? key k (x :: xs) = if k = key x then some x else find? key k xs := by
  simp only [find?, List.find?_cons]
  by_cases here : key x = k
  · simp [here]
  · simp [here, Ne.symm here]

/-- Replacing an element by another with the same key. -/
theorem find?_replace (distinct : Distinct key (before ++ x :: after)) (same : key y = key x) :
    find? key k (before ++ y :: after) =
      if k = key x then some y else find? key k (before ++ x :: after) := by
  have replaced : Distinct key (before ++ y :: after) := by
    obtain ⟨fresh, rest⟩ := List.pairwise_cons.mp distinct.middle
    have front : Distinct key (y :: (before ++ after)) :=
      List.pairwise_cons.mpr ⟨by rwa [same], rest⟩
    exact front.perm List.perm_middle.symm
  rw [find?_perm replaced List.perm_middle, find?_perm distinct List.perm_middle,
    find?_cons, find?_cons, same]
  split <;> rfl

/-- Dropping an element. -/
theorem find?_drop (distinct : Distinct key (before ++ x :: after)) :
    find? key k (before ++ after) =
      if k = key x then none else find? key k (before ++ x :: after) := by
  rw [find?_perm distinct List.perm_middle, find?_cons]
  split
  · rename_i here
    rw [find?_eq_none_iff, here]
    intro y member
    exact ((List.pairwise_cons.mp distinct.middle).1 y member).symm
  · rfl

end Keyed
