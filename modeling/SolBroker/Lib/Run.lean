import Mathlib

/-!
# Labelled runs of a transition system

A run records every state it leaves together with the label it leaves it by, so
"every reachable state" and "every step of the run" are both statements about one
list. The two rules used everywhere are ordinary invariance and its exact form:
when a step keeps the invariant precisely if it is a good one, a run stays inside
the invariant precisely if all of its steps are good. A counter that is to follow
a total is an instance of the latter.
-/

namespace Transition

variable {S L : Type*} {step : S → L → S → Prop} {init : S}

/-- Runs from `init`, with the left state and the label of each step in order. -/
inductive Run (step : S → L → S → Prop) (init : S) : List (S × L) → S → Prop
  | nil : Run step init [] init
  | snoc {tr s l s'} (before : Run step init tr s) (last : step s l s') :
      Run step init (tr ++ [(s, l)]) s'

/-- A state some run ends in. -/
def Reachable (step : S → L → S → Prop) (init s : S) : Prop :=
  ∃ tr, Run step init tr s

theorem Run.reachable {tr : List (S × L)} {s : S} (run : Run step init tr s) :
    Reachable step init s :=
  ⟨tr, run⟩

/-- A property of the initial state kept by every step holds where a run ends. -/
theorem Run.invariant {inv : S → Prop} (start : inv init)
    (preserved : ∀ s l s', inv s → step s l s' → inv s')
    {tr : List (S × L)} {s : S} (run : Run step init tr s) : inv s := by
  induction run with
  | nil => exact start
  | snoc _ last ih => exact preserved _ _ _ ih last

/-- A relation between the state and what has been recorded so far, kept by every step,
holds where a run ends. -/
theorem Run.traced {inv : List (S × L) → S → Prop} (start : inv [] init)
    (preserved : ∀ tr s l s', inv tr s → step s l s' → inv (tr ++ [(s, l)]) s')
    {tr : List (S × L)} {s : S} (run : Run step init tr s) : inv tr s := by
  induction run with
  | nil => exact start
  | snoc _ last ih => exact preserved _ _ _ _ ih last

/-- A relation to an abstract state that follows the labels holds where a run ends,
if every step of the run keeps it. -/
theorem Run.refines {A : Type*} {abs : A → L → A} {a : A} {rel : S → A → Prop} (start : rel init a)
    (preserved : ∀ s a l s', rel s a → step s l s' → rel s' (abs a l))
    {tr : List (S × L)} {s : S} (run : Run step init tr s) :
    rel s ((tr.map Prod.snd).foldl abs a) := by
  induction run with
  | nil => exact start
  | snoc _ last ih =>
      rw [List.map_append, List.foldl_append]
      exact preserved _ _ _ _ ih last

/-- Every state a run leaves is itself reachable. -/
theorem Run.reachable_of_mem {tr : List (S × L)} {s : S} (run : Run step init tr s) :
    ∀ visit ∈ tr, Reachable step init visit.1 := by
  induction run with
  | nil => simp
  | snoc before _ ih =>
      intro visit member
      rcases List.mem_append.mp member with earlier | now
      · exact ih visit earlier
      · rw [List.mem_singleton.mp now]
        exact before.reachable

/-- A run goes on from every step of it. -/
theorem Run.since {tr : List (S × L)} {s : S} (run : Run step init tr s) {visit : S × L}
    (visited : visit ∈ tr) :
    ∃ s' tr', step visit.1 visit.2 s' ∧ Run step s' tr' s ∧ ∀ later ∈ tr', later ∈ tr := by
  induction run with
  | nil => cases visited
  | @snoc tr mid l s before last ih =>
      obtain earlier | now := List.mem_append.mp visited
      · obtain ⟨s', tr', first, rest, sub⟩ := ih earlier
        refine ⟨s', tr' ++ [(mid, l)], first, .snoc rest last, fun later member => ?_⟩
        obtain old | new := List.mem_append.mp member
        · exact List.mem_append_left _ (sub later old)
        · exact List.mem_append_right _ new
      · rw [List.mem_singleton.mp now]
        exact ⟨s, [], last, .nil, fun _ member => absurd member List.not_mem_nil⟩

/-- Invariance when only the steps of this run are known to be good. -/
theorem Run.invariant_of_good {inv : S → Prop} {good : S → L → Prop} (start : inv init)
    (preserved : ∀ s l s', inv s → good s l → step s l s' → inv s')
    {tr : List (S × L)} {s : S} (run : Run step init tr s)
    (steps : ∀ visit ∈ tr, good visit.1 visit.2) :
    (∀ visit ∈ tr, inv visit.1) ∧ inv s := by
  induction run with
  | nil => exact ⟨by simp, start⟩
  | @snoc tr s l s' before last ih =>
      obtain ⟨visited, here⟩ := ih fun visit member => steps visit (List.mem_append_left _ member)
      refine ⟨?_, preserved s l s' here (steps (s, l) (by simp)) last⟩
      intro visit member
      rcases List.mem_append.mp member with earlier | now
      · exact visited visit earlier
      · rw [List.mem_singleton.mp now]
        exact here

/-- `base` is whatever holds in every reachable state without conditions. Relative to it good
steps stay inside `inv`, and only fair ones do. -/
theorem Run.invariant_between {base inv : S → Prop} {good fair : S → L → Prop}
    (baseStart : base init) (basePreserved : ∀ s l s', base s → step s l s' → base s')
    (start : inv init)
    (enough : ∀ s l s', base s → inv s → step s l s' → good s l → inv s')
    (needed : ∀ s l s', base s → inv s → step s l s' → inv s' → fair s l)
    {tr : List (S × L)} {s : S} (run : Run step init tr s) :
    ((∀ visit ∈ tr, good visit.1 visit.2) → (∀ visit ∈ tr, inv visit.1) ∧ inv s) ∧
      ((∀ visit ∈ tr, inv visit.1) ∧ inv s → ∀ visit ∈ tr, fair visit.1 visit.2) := by
  constructor
  · intro steps
    have both (s : S) (l : L) (s' : S) (here : base s ∧ inv s) (good : good s l)
        (last : step s l s') : base s' ∧ inv s' :=
      ⟨basePreserved s l s' here.1 last, enough s l s' here.1 here.2 last good⟩
    have kept := @Run.invariant_of_good _ _ step init (fun s => base s ∧ inv s) good
      ⟨baseStart, start⟩ both tr s run steps
    exact ⟨fun visit member => (kept.1 visit member).2, kept.2.2⟩
  · induction run with
    | nil => simp
    | @snoc tr s l s' before last ih =>
        rintro ⟨visited, final⟩ visit member
        have inside : inv s := visited (s, l) (by simp)
        obtain old | now := List.mem_append.mp member
        · exact ih ⟨fun v hv => visited v (List.mem_append_left _ hv), inside⟩ visit old
        · rw [List.mem_singleton.mp now]
          exact needed s l s' (before.invariant baseStart basePreserved) inside last final

/-- The exact form: a step stays inside `inv` just when it is good. -/
theorem Run.invariant_iff {base inv : S → Prop} {good : S → L → Prop}
    (baseStart : base init) (basePreserved : ∀ s l s', base s → step s l s' → base s')
    (start : inv init)
    (exact : ∀ s l s', base s → inv s → step s l s' → (inv s' ↔ good s l))
    {tr : List (S × L)} {s : S} (run : Run step init tr s) :
    ((∀ visit ∈ tr, inv visit.1) ∧ inv s) ↔ ∀ visit ∈ tr, good visit.1 visit.2 := by
  obtain ⟨enough, needed⟩ := run.invariant_between baseStart basePreserved start
    (fun s l s' here inside last => (exact s l s' here inside last).mpr)
    (fun s l s' here inside last => (exact s l s' here inside last).mp)
  exact ⟨needed, enough⟩

/-! ## Determined steps -/

section Determined

variable (determined : ∀ s l s₁ s₂, step s l s₁ → step s l s₂ → s₁ = s₂)
include determined

/-- Where a step is determined by its label, runs with the same labels end alike. -/
theorem Run.unique {tr tr' : List (S × L)} {s s' : S} (run : Run step init tr s)
    (run' : Run step init tr' s') (labels : tr.map Prod.snd = tr'.map Prod.snd) : s = s' := by
  induction run generalizing tr' s' with
  | nil =>
      cases run' with
      | nil => rfl
      | snoc => simp at labels
  | snoc _ last ih =>
      cases run' with
      | nil => simp at labels
      | snoc before' last' =>
          rw [List.map_append, List.map_append] at labels
          obtain ⟨earlier, now⟩ := List.append_inj' labels rfl
          obtain rfl := List.singleton_inj.mp now
          obtain rfl := ih before' earlier
          exact determined _ _ _ _ last last'

/-- A run has the next step of any run whose labels it begins. -/
theorem Run.next_of_labels {tr tr' : List (S × L)} {s s' : S} {l : L} {ls : List L}
    (run : Run step init tr s) (run' : Run step init tr' s')
    (labels : tr'.map Prod.snd = tr.map Prod.snd ++ l :: ls) : ∃ s₁, step s l s₁ := by
  induction run' generalizing ls with
  | nil => simp at labels
  | @snoc tr' mid l' s' before last ih =>
      rw [List.map_append, List.map_singleton] at labels
      obtain rfl | ⟨ls', x, rfl⟩ := List.eq_nil_or_concat ls
      · obtain ⟨earlier, now⟩ := List.append_inj' labels rfl
        obtain rfl := List.singleton_inj.mp now
        obtain rfl := before.unique determined run earlier
        exact ⟨s', last⟩
      · rw [List.concat_eq_append, ← List.cons_append, ← List.append_assoc] at labels
        exact ih (List.append_inj' labels rfl).1

end Determined

/-! ## Counters -/

section Counters

variable {α : Type*} [Preorder α] {count total : S → α}

/-- What no step decreases is in ascending order along a run. -/
theorem Run.ascends (ascends : ∀ s l s', step s l s' → total s ≤ total s')
    {tr : List (S × L)} {s : S} (run : Run step init tr s) :
    (tr.map (fun visit => total visit.1) ++ [total s]).Pairwise (· ≤ ·) := by
  induction run with
  | nil => exact List.pairwise_singleton ..
  | @snoc tr s l s' before last ih =>
      have up := ascends s l s' last
      rw [List.map_append, List.map_singleton]
      refine List.pairwise_append.mpr ⟨ih, List.pairwise_singleton .., fun a member b here => ?_⟩
      rw [List.mem_singleton.mp here]
      obtain earlier | now := List.mem_append.mp member
      · have below := (List.pairwise_append.mp ih).2.2 a earlier (total s)
        exact (below (List.mem_singleton_self _)).trans up
      · rw [List.mem_singleton.mp now]
        exact up

/-- In every state of a run the counter is the total, and it never goes down. -/
structure Tracks (count total : S → α) (tr : List (S × L)) (s : S) : Prop where
  visited : ∀ visit ∈ tr, count visit.1 = total visit.1
  final : count s = total s
  ascends : (tr.map (fun visit => count visit.1) ++ [count s]).Pairwise (· ≤ ·)

/-- A counter follows a total that never goes down exactly if every step is one that takes
them along together. -/
theorem Run.tracks_iff {good : S → L → Prop} (start : count init = total init)
    (ascends : ∀ s l s', step s l s' → total s ≤ total s')
    (exact : ∀ s l s', count s = total s → step s l s' → (count s' = total s' ↔ good s l))
    {tr : List (S × L)} {s : S} (run : Run step init tr s) :
    Tracks count total tr s ↔ ∀ visit ∈ tr, good visit.1 visit.2 := by
  have throughout := @Run.invariant_iff _ _ step init (fun _ => True)
    (fun s => count s = total s) good trivial (fun _ _ _ _ _ => trivial) start
    (fun s l s' _ => exact s l s') tr s run
  constructor
  · intro tracks
    exact throughout.mp ⟨tracks.visited, tracks.final⟩
  · intro steps
    obtain ⟨visited, final⟩ := throughout.mpr steps
    refine ⟨visited, final, ?_⟩
    rw [List.map_congr_left visited, final]
    exact run.ascends ascends

end Counters

/-! ## Runs of an executable step -/

/-- The run given by its labels, if every step is defined. -/
def replay (next : S → L → Option S) : S → List L → Option (List (S × L) × S)
  | s, [] => some ([], s)
  | s, l :: ls =>
      (next s l).bind fun s' => (replay next s' ls).map fun (tr, last) => ((s, l) :: tr, last)

/-- What is replayed is a run, if every defined step is a step. -/
theorem Run.of_replay {next : S → L → Option S}
    (sound : ∀ s l s', next s l = some s' → step s l s') {ls : List L} {tr : List (S × L)} {s : S}
    (replayed : replay next init ls = some (tr, s)) :
    Run step init tr s ∧ tr.map Prod.snd = ls := by
  suffices extend : ∀ (ls : List L) (before tr : List (S × L)) (mid s : S),
      Run step init before mid → replay next mid ls = some (tr, s) →
        Run step init (before ++ tr) s ∧ tr.map Prod.snd = ls from
    extend ls [] tr init s .nil replayed
  intro ls
  induction ls with
  | nil =>
      intro before tr mid s run replayed
      cases replayed
      exact ⟨by simpa using run, rfl⟩
  | cons l ls ih =>
      intro before tr mid s run replayed
      obtain ⟨mid', now, rest⟩ := Option.bind_eq_some_iff.mp replayed
      obtain ⟨⟨tr', last⟩, later, done⟩ := Option.map_eq_some_iff.mp rest
      cases done
      obtain ⟨extended, labels⟩ := ih (before ++ [(mid, l)]) tr' mid' s
        (.snoc run (sound mid l mid' now)) later
      exact ⟨by simpa using extended, by rw [List.map_cons, labels]⟩

/-- What is evaluated of a replay is a fact about a run. -/
theorem Run.of_replay_bind {next : S → L → Option S} {β : Type*}
    (sound : ∀ s l s', next s l = some s' → step s l s') {ls : List L}
    {f : List (S × L) × S → Option β} {x : β} (replayed : (replay next init ls).bind f = some x) :
    ∃ tr s, Run step init tr s ∧ tr.map Prod.snd = ls ∧ f (tr, s) = some x := by
  obtain ⟨⟨tr, s⟩, replayed, facts⟩ := Option.bind_eq_some_iff.mp replayed
  obtain ⟨run, labels⟩ := Run.of_replay sound replayed
  exact ⟨tr, s, run, labels, facts⟩

theorem Run.of_replay_map {next : S → L → Option S} {β : Type*}
    (sound : ∀ s l s', next s l = some s' → step s l s') {ls : List L}
    {f : List (S × L) × S → β} {x : β} (replayed : (replay next init ls).map f = some x) :
    ∃ tr s, Run step init tr s ∧ tr.map Prod.snd = ls ∧ f (tr, s) = x := by
  obtain ⟨⟨tr, s⟩, replayed, facts⟩ := Option.map_eq_some_iff.mp replayed
  obtain ⟨run, labels⟩ := Run.of_replay sound replayed
  exact ⟨tr, s, run, labels, facts⟩

end Transition
