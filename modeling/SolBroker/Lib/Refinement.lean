import Mathlib

/-!
# Refinement between machines that answer

A machine is a step function that takes an operation and gives an answer. When a
relation between the states of two machines is kept by every operation, with equal
answers, the machines cannot be told apart by any sequence of operations.
-/

namespace Refinement

variable {S A Op Out : Type*}

/-- Run the operations in order and collect the answers. -/
def exec (step : S → Op → S × Out) : S → List Op → S × List Out
  | s, [] => (s, [])
  | s, op :: ops =>
      let (s', out) := step s op
      let (final, outs) := exec step s' ops
      (final, out :: outs)

variable {step : S → Op → S × Out} {spec : A → Op → A × Out} {rel : S → A → Prop}

/-- One operation keeps the relation and answers alike. -/
def Simulates (rel : S → A → Prop) (step : S → Op → S × Out) (spec : A → Op → A × Out) : Prop :=
  ∀ s a op, rel s a → (step s op).2 = (spec a op).2 ∧ rel (step s op).1 (spec a op).1

theorem exec_refines (simulates : Simulates rel step spec) (ops : List Op) {s : S} {a : A}
    (start : rel s a) :
    (exec step s ops).2 = (exec spec a ops).2 ∧ rel (exec step s ops).1 (exec spec a ops).1 := by
  induction ops generalizing s a with
  | nil => exact ⟨rfl, start⟩
  | cons op ops ih =>
      obtain ⟨answer, next⟩ := simulates s a op start
      obtain ⟨answers, final⟩ := ih next
      refine ⟨?_, final⟩
      simp only [exec, answer, answers]

end Refinement
