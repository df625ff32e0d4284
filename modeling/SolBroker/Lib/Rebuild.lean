import Mathlib

/-!
# Rebuilding a container that is full

A container may refuse an element. It is then rebuilt in a larger one, where all it held
is put again and the refused element after that; an element refused on the way starts
another rebuild before this one is done. However deep the rebuilds are nested, what
still has to be put is one list, in front of which every rebuild writes what the
container held, and each rebuild ends a round of placing that list as far as possible.
A rebuild needs an allocation, and is refused it where the outcomes say so.
-/

namespace Rebuilding

/-- A container with placing that may fail or be refused, and what it is rebuilt in. -/
structure Store (S E ε : Type*) where
  place : S → E → Except ε (Option S)
  grown : S → S
  contents : S → List E

namespace Store

variable {S E ε : Type*} (store : Store S E ε)

/-- Placing the elements, with a rebuild for each refused one while allocations succeed:
the container in the end, what is still waiting, and the outcomes not yet used. -/
inductive Drains : S → List E → List Bool → S → List E → List Bool → Prop
  | done {s allocs} : Drains s [] allocs s [] allocs
  | placed {s e s₁ es allocs s' waiting allocs'} (found : store.place s e = .ok (some s₁))
      (rest : Drains s₁ es allocs s' waiting allocs') :
      Drains s (e :: es) allocs s' waiting allocs'
  | denied {s e es allocs} (full : store.place s e = .ok none) :
      Drains s (e :: es) (false :: allocs) s (e :: es) allocs
  | rebuilt {s e es allocs s' waiting allocs'} (full : store.place s e = .ok none)
      (granted : allocs.head? ≠ some false)
      (rest : Drains (store.grown s) (store.contents s ++ e :: es) allocs.tail s' waiting
        allocs') :
      Drains s (e :: es) allocs s' waiting allocs'

end Store

/-- The number of allocations that succeed before the first that fails. -/
def granted : List Bool → Nat
  | true :: allocs => granted allocs + 1
  | _ => 0

variable {S E ε : Type*} {store : Store S E ε} {s s₁ s' : S} {e : E}
  {es es' waiting : List E} {allocs allocs₁ allocs' : List Bool}

namespace Store.Drains

/-- What waits behind elements that are all placed. -/
theorem append (first : Drains store s es allocs s₁ [] allocs₁)
    (rest : Drains store s₁ es' allocs₁ s' waiting allocs') :
    Drains store s (es ++ es') allocs s' waiting allocs' := by
  generalize none_ : ([] : List E) = left at first
  induction first with
  | done => exact rest
  | placed found _ ih => exact .placed found (ih rest none_)
  | denied => cases none_
  | rebuilt full granted _ ih =>
      have rest := ih rest none_
      rw [List.append_assoc] at rest
      exact .rebuilt full granted rest

/-- What waits behind elements of which some are left waiting. -/
theorem append_waiting (first : Drains store s es allocs s₁ waiting allocs₁)
    (stuck : waiting ≠ []) (es' : List E) :
    Drains store s (es ++ es') allocs s₁ (waiting ++ es') allocs₁ := by
  induction first with
  | done => exact absurd rfl stuck
  | placed found _ ih => exact .placed found (ih stuck)
  | denied full => exact .denied full
  | rebuilt full granted _ ih =>
      have rest := ih stuck
      rw [List.append_assoc] at rest
      exact .rebuilt full granted rest

/-- Something is left waiting only where an allocation failed. -/
theorem denied_of_waiting (drains : Drains store s es allocs s' waiting allocs')
    (stuck : waiting ≠ []) : false ∈ allocs := by
  induction drains with
  | done => exact absurd rfl stuck
  | placed _ _ ih => exact ih stuck
  | denied => exact List.mem_cons_self
  | @rebuilt _ _ _ allocs _ _ _ _ _ _ ih =>
      cases allocs with
      | nil => exact ih stuck
      | cons answer allocs => exact List.mem_cons_of_mem _ (ih stuck)

/-- The first of those left waiting is refused. -/
theorem refused_of_waiting (drains : Drains store s es allocs s' (e :: es') allocs') :
    store.place s' e = .ok none := by
  generalize some_ : e :: es' = waiting at drains
  induction drains with
  | done => cases some_
  | placed _ _ ih => exact ih some_
  | denied full =>
      cases some_
      exact full
  | rebuilt _ _ _ ih => exact ih some_

/-- A container that doubles in every rebuild has by then doubled as often as an allocation
succeeded. -/
theorem size_of_waiting {size : S → Nat}
    (placing : ∀ s e s₁, store.place s e = .ok (some s₁) → size s₁ = size s)
    (growing : ∀ s, size (store.grown s) = 2 * size s)
    (drains : Drains store s es allocs s' waiting allocs') (stuck : waiting ≠ []) :
    size s' = size s * 2 ^ granted allocs := by
  induction drains with
  | done => exact absurd rfl stuck
  | placed found _ ih => rw [ih stuck, placing _ _ _ found]
  | denied => exact (Nat.mul_one _).symm
  | @rebuilt s _ _ allocs _ _ _ _ succeeded rest ih =>
      match allocs with
      | true :: allocs =>
          rw [ih stuck, growing, granted, pow_succ, List.tail_cons]
          ring
      | false :: _ => exact absurd rfl succeeded
      | [] => exact absurd (rest.denied_of_waiting stuck) List.not_mem_nil

/-- What is left waiting ends with the last element there was. -/
theorem getLast? (drains : Drains store s es allocs s' waiting allocs')
    (last : es.getLast? = some e)
    (stuck : waiting ≠ []) : waiting.getLast? = some e := by
  induction drains with
  | done => exact absurd rfl stuck
  | @placed s e₁ s₁ es _ _ _ _ _ rest ih =>
      cases es with
      | nil =>
          cases rest
          exact absurd rfl stuck
      | cons e₂ es => exact ih (by simpa using last) stuck
  | denied => exact last
  | rebuilt _ _ _ ih => exact ih (by simpa using last) stuck

/-- What placing and rebuilding keep. -/
theorem invariant {R : S → List E → Prop} (start : R s es)
    (placing : ∀ s e s₁ es, R s (e :: es) → store.place s e = .ok (some s₁) → R s₁ es)
    (rebuilding : ∀ s e es, R s (e :: es) → store.place s e = .ok none →
      R (store.grown s) (store.contents s ++ e :: es))
    (drains : Drains store s es allocs s' waiting allocs') : R s' waiting := by
  induction drains with
  | done => exact start
  | placed found _ ih => exact ih (placing _ _ _ _ start found)
  | denied => exact start
  | rebuilt full _ _ ih => exact ih (rebuilding _ _ _ start full)

end Store.Drains

end Rebuilding
