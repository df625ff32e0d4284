import Mathlib

/-!
# Codes that can be read as they come

A set of words none of which begins another one can be read off a stream word by word, each
as soon as it is complete. In particular a stream is made of such words in one way only.
-/

namespace Framing

open InformationTheory

variable {A : Type*} {S : Set (List A)}

/-- No word begins another. -/
def Instantaneous (S : Set (List A)) : Prop :=
  ∀ x ∈ S, ∀ y ∈ S, x <+: y → x = y

/-- Two words that begin the same stream are the same. -/
theorem Instantaneous.eq_of_append (inst : Instantaneous S) {x y r s : List A} (inX : x ∈ S)
    (inY : y ∈ S) (same : x ++ r = y ++ s) : x = y ∧ r = s := by
  have first : x = y := by
    obtain below | above := List.prefix_or_prefix_of_prefix (List.prefix_append x r)
      (same ▸ List.prefix_append y s)
    · exact inst x inX y inY below
    · exact (inst y inY x inX above).symm
  subst first
  exact ⟨rfl, List.append_cancel_left same⟩

theorem Instantaneous.uniquelyDecodable (inst : Instantaneous S) (some_ : [] ∉ S) :
    UniquelyDecodable S := by
  intro xs
  induction xs with
  | nil =>
      intro ys _ inS same
      cases ys with
      | nil => rfl
      | cons y ys =>
          have empty : y = [] := by
            have parts := same.symm
            rw [List.flatten_nil, List.flatten_cons, List.append_eq_nil_iff] at parts
            exact parts.1
          exact absurd (empty ▸ inS y List.mem_cons_self) some_
  | cons x xs ih =>
      intro ys inS inS' same
      cases ys with
      | nil =>
          have empty : x = [] := by
            rw [List.flatten_nil, List.flatten_cons, List.append_eq_nil_iff] at same
            exact same.1
          exact absurd (empty ▸ inS x List.mem_cons_self) some_
      | cons y ys =>
          obtain ⟨inX, inXs⟩ := List.forall_mem_cons.mp inS
          obtain ⟨inY, inYs⟩ := List.forall_mem_cons.mp inS'
          rw [List.flatten_cons, List.flatten_cons] at same
          obtain ⟨rfl, rest⟩ := inst.eq_of_append inX inY same
          rw [ih ys inXs inYs rest]

end Framing
