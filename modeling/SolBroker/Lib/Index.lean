import Mathlib

/-!
# Indexes by name

An index is a finite map from names to addresses that finds exactly the objects there
are, each under the name it carries. Adding an object under a new name and removing
one with its name keep it an index.
-/

variable {α β : Type*} [DecidableEq α] [DecidableEq β]

/-- `m` finds the objects whose names are given by `name`, and nothing else. -/
def Indexes (m : AList fun _ : α => β) (name : β → Option α) : Prop :=
  ∀ a p, m.lookup a = some p ↔ name p = some a

namespace Indexes

variable {m : AList fun _ : α => β} {name : β → Option α} {a : α} {p : β}

omit [DecidableEq β] in
theorem empty : Indexes (∅ : AList fun _ : α => β) fun _ => none := by
  intro a p
  rw [AList.lookup_empty]
  exact ⟨nofun, nofun⟩

variable (indexes : Indexes m name)
include indexes

/-- A new object under a name no other has. -/
theorem insert (fresh : ∀ q, name q ≠ some a) (unused : name p = none) :
    Indexes (m.insert a p) (Function.update name p (some a)) := by
  intro a' q
  rw [Function.update_apply]
  by_cases own : a' = a
  · subst own
    rw [AList.lookup_insert]
    by_cases here : q = p
    · simp [here]
    · rw [if_neg here]
      exact ⟨fun found => absurd (Option.some.inj found).symm here,
        fun held => absurd held (fresh q)⟩
  · rw [AList.lookup_insert_ne own, indexes]
    by_cases here : q = p
    · rw [if_pos here, here, unused]
      exact ⟨nofun, fun held => absurd (Option.some.inj held).symm own⟩
    · rw [if_neg here]

/-- An object goes with its name. -/
theorem erase (held : name p = some a) : Indexes (m.erase a) (Function.update name p none) := by
  intro a' q
  rw [Function.update_apply]
  by_cases own : a' = a
  · subst own
    rw [AList.lookup_erase]
    by_cases here : q = p
    · simp [here]
    · rw [if_neg here]
      refine ⟨nofun, fun held' => absurd ?_ here⟩
      exact Option.some.inj (((indexes a' q).mpr held').symm.trans ((indexes a' p).mpr held))
  · rw [AList.lookup_erase_ne own, indexes]
    by_cases here : q = p
    · rw [if_pos here, here, held]
      exact ⟨fun same => absurd (Option.some.inj same).symm own, nofun⟩
    · rw [if_neg here]

end Indexes
