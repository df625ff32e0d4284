import Mathlib
import SolBroker.Lib.Run

/-!
# Simulation of computations and of runs

One computation mirrors another if both return related results or fail alike; some
failures of the first are excused, as an implementation may run out of what its
specification has without end. Steps that mirror each other make runs that do: each
run of the first has its counterpart, and each run of the second has one as far as the
first gets.
-/

namespace Simulation

open Transition

section Computations

/-- The first computation does what the second does, or fails with an excuse. -/
inductive Mirrors {ε : Type*} {α β : Type*} (excused : ε → Prop) (rel : α → β → Prop) :
    Except ε α → Except ε β → Prop
  | returns {a b} (related : rel a b) : Mirrors excused rel (.ok a) (.ok b)
  | fails (e) : Mirrors excused rel (.error e) (.error e)
  | excuse {e} (y) (reason : excused e) : Mirrors excused rel (.error e) y

variable {ε : Type*} {excused : ε → Prop}

theorem Mirrors.refl {α : Type*} (x : Except ε α) : Mirrors excused Eq x x := by
  cases x with
  | error e => exact .fails e
  | ok a => exact .returns rfl

theorem Mirrors.bind.{u, v} {α α' : Type u} {β β' : Type v} {rel : α → β → Prop}
    {rel' : α' → β' → Prop} {x : Except ε α} {y : Except ε β} {f : α → Except ε α'}
    {g : β → Except ε β'} (first : Mirrors excused rel x y)
    (second : ∀ a b, rel a b → Mirrors excused rel' (f a) (g b)) :
    Mirrors excused rel' (x >>= f) (y >>= g) := by
  cases first with
  | returns related => exact second _ _ related
  | fails e => exact .fails e
  | excuse y reason => exact .excuse _ reason

/-- A first part that both have in common. -/
theorem Mirrors.bind_same.{u} {α α' β' : Type u} {rel' : α' → β' → Prop} {x : Except ε α}
    {f : α → Except ε α'} {g : α → Except ε β'}
    (second : ∀ a, x = .ok a → Mirrors excused rel' (f a) (g a)) :
    Mirrors excused rel' (x >>= f) (x >>= g) := by
  cases x with
  | error e => exact .fails e
  | ok a => exact second a rfl

theorem Mirrors.foldlM.{u, v} {ι : Type*} {α : Type u} {β : Type v} {rel : α → β → Prop}
    {f : α → ι → Except ε α} {g : β → ι → Except ε β}
    (round : ∀ a b i, rel a b → Mirrors excused rel (f a i) (g b i)) (is : List ι) {a : α} {b : β}
    (start : rel a b) : Mirrors excused rel (is.foldlM f a) (is.foldlM g b) := by
  induction is generalizing a b with
  | nil => exact .returns start
  | cons i is ih =>
      rw [List.foldlM_cons, List.foldlM_cons]
      exact (round a b i start).bind fun a' b' related => ih related

section Results

variable {α β : Type*} {rel : α → β → Prop} {x : Except ε α} {y : Except ε β}

theorem Mirrors.of_ok (mirrors : Mirrors excused rel x y) {a : α} (ok : x = .ok a) :
    ∃ b, y = .ok b ∧ rel a b := by
  cases mirrors with
  | returns related =>
      obtain rfl := Except.ok.inj ok
      exact ⟨_, rfl, related⟩
  | fails e => cases ok
  | excuse y reason => cases ok

/-- What the second returns, the first has a counterpart of unless it is excused. -/
theorem Mirrors.to_ok (mirrors : Mirrors excused rel x y) {b : β} (ok : y = .ok b) :
    (∃ a, x = .ok a ∧ rel a b) ∨ ∃ e, x = .error e ∧ excused e := by
  cases mirrors with
  | returns related =>
      obtain rfl := Except.ok.inj ok
      exact .inl ⟨_, rfl, related⟩
  | fails e => cases ok
  | excuse y reason => exact .inr ⟨_, rfl, reason⟩

/-- A failure that is not excused is a failure of the second. -/
theorem Mirrors.error_iff (mirrors : Mirrors excused rel x y) {e : ε}
    (returns : ∀ e, x = .error e → ¬ excused e) : x = .error e ↔ y = .error e := by
  cases mirrors with
  | returns related => simp
  | fails e' => simp
  | excuse y reason => exact absurd reason (returns _ rfl)

end Results

end Computations

section Runs

variable {S A L : Type*} {step : S → L → S → Prop} {spec : A → L → A → Prop} {init : S} {start : A}
  {rel : S → A → Prop}

/-- Two runs under the same labels, through related states. -/
def Matched (rel : S → A → Prop) : List (S × L) → List (A × L) → Prop :=
  List.Forall₂ fun visit visit' => rel visit.1 visit'.1 ∧ visit.2 = visit'.2

theorem Matched.snoc {tr : List (S × L)} {tr' : List (A × L)} {s : S} {a : A} (l : L)
    (matched : Matched rel tr tr') (related : rel s a) :
    Matched rel (tr ++ [(s, l)]) (tr' ++ [(a, l)]) :=
  List.rel_append matched (.cons ⟨related, rfl⟩ .nil)

theorem Matched.labels {tr : List (S × L)} {tr' : List (A × L)} (matched : Matched rel tr tr') :
    tr.map Prod.snd = tr'.map Prod.snd := by
  induction matched with
  | nil => rfl
  | cons visits _ ih => rw [List.map_cons, List.map_cons, visits.2, ih]

/-- If every good step of the first system has a counterpart, so has every run of good
steps. -/
theorem Run.matched (rel : S → A → Prop) (good : S → L → Prop) (starts : rel init start)
    (simulates : ∀ s a l s', rel s a → good s l → step s l s' → ∃ a', spec a l a' ∧ rel s' a')
    {tr : List (S × L)} {s : S} (run : Run step init tr s)
    (steps : ∀ visit ∈ tr, good visit.1 visit.2) :
    ∃ tr' a, Run spec start tr' a ∧ rel s a ∧ Matched rel tr tr' := by
  induction run with
  | nil => exact ⟨[], start, .nil, starts, .nil⟩
  | @snoc tr s l s' before last ih =>
      obtain ⟨tr', a, run', related, matched⟩ :=
        ih fun visit member => steps visit (List.mem_append_left _ member)
      obtain ⟨a', last', related'⟩ := simulates s a l s' related (steps (s, l) (by simp)) last
      exact ⟨tr' ++ [(a, l)], a', .snoc run' last', related', matched.snoc l related⟩

/-- If every good step of the second system has a counterpart unless the first is stuck,
a run of good steps has one as far as the first system gets. -/
theorem Run.matched_or_stuck (rel : S → A → Prop) (good : A → L → Prop) {stuck : S → L → Prop}
    (starts : rel init start)
    (simulates : ∀ s a l a', rel s a → good a l → spec a l a' →
      (∃ s', step s l s' ∧ rel s' a') ∨ stuck s l)
    {tr' : List (A × L)} {a : A} (run : Run spec start tr' a)
    (steps : ∀ visit ∈ tr', good visit.1 visit.2) :
    (∃ tr s, Run step init tr s ∧ rel s a ∧ Matched rel tr tr') ∨
      ∃ before a₁ l after tr s, tr' = before ++ (a₁, l) :: after ∧ Run step init tr s ∧
        rel s a₁ ∧ Matched rel tr before ∧ stuck s l := by
  induction run with
  | nil => exact .inl ⟨[], init, .nil, starts, .nil⟩
  | @snoc tr' a l a' _ last ih =>
      obtain ⟨tr, s, run, related, matched⟩ |
          ⟨before, a₁, l₁, after, tr, s, rfl, run, related, matched, isStuck⟩ :=
        ih fun visit member => steps visit (List.mem_append_left _ member)
      · obtain ⟨s', last', related'⟩ | isStuck :=
          simulates s a l a' related (steps (a, l) (by simp)) last
        · exact .inl ⟨tr ++ [(s, l)], s', .snoc run last', related', matched.snoc l related⟩
        · exact .inr ⟨tr', a, l, [], tr, s, rfl, run, related, matched, isStuck⟩
      · exact .inr ⟨before, a₁, l₁, after ++ [(a, l)], tr, s, by simp, run, related, matched,
          isStuck⟩

end Runs

end Simulation
