import Mathlib

/-!
# Publishing and subscribing by name

Topics are found by names, which are strings over any alphabet, and keep their subscribers
with the latest in front. A subscription is to one name, or to all topics below a name: then
a walk sets out from each of them and goes on, one character at a time, for as long as there
are topics. So a topic gets an entry for every topic that a walk comes to it from.
-/

namespace PubSub

variable {C S : Type*}

/-- The topics there are, by name, each with its subscribers. -/
abbrev Board (C S : Type*) := List C → Option (List S)

/-- What is done to a board. -/
inductive Op (C S : Type*)
  | publish (name : List C)
  | subscribe (name : List C) (below : Bool) (sub : S)
deriving DecidableEq

/-! ## Walks -/

/-- From how many places on the way to a name, its end included, all the rest of the way is
known. -/
def links (known : List C → Bool) (name : List C) : Nat :=
  (List.range (name.length + 1)).countP fun i =>
    decide (∀ j ≤ name.length, i ≤ j → known (name.take j) = true)

section Links

variable {known : List C → Bool} {name : List C}

/-- All of the way to a name is known. -/
def Way (known : List C → Bool) (name : List C) : Prop :=
  ∀ j ≤ name.length, known (name.take j) = true

instance (known : List C → Bool) (name : List C) : Decidable (Way known name) :=
  inferInstanceAs (Decidable (∀ j ≤ name.length, known (name.take j) = true))

theorem way_nil : Way known [] ↔ known [] = true := by
  constructor
  · intro way
    exact way 0 le_rfl
  · intro here j _
    rwa [List.take_nil]

theorem way_cons {c : C} :
    Way known (c :: name) ↔ known [] = true ∧ Way (fun rest => known (c :: rest)) name := by
  constructor
  · intro way
    exact ⟨way 0 (Nat.zero_le _), fun j within => way (j + 1) (Nat.succ_le_succ within)⟩
  · rintro ⟨here, way⟩ j within
    cases j with
    | zero => exact here
    | succ j => exact way j (Nat.le_of_succ_le_succ within)

theorem links_nil : links known [] = if Way known [] then 1 else 0 := by
  rw [links, List.length_nil, Nat.zero_add, List.range_one, List.countP_singleton]
  apply if_congr _ rfl rfl
  rw [decide_eq_true_iff]
  exact ⟨fun all j within => all j within (Nat.zero_le j), fun way j within _ => way j within⟩

/-- The walks to a longer name: those that set out later, and the one from the start. -/
theorem links_cons {c : C} : links known (c :: name) =
    links (fun rest => known (c :: rest)) name + if Way known (c :: name) then 1 else 0 := by
  rw [links, List.length_cons, List.range_succ_eq_map, List.countP_cons, List.countP_map, links]
  congr 1
  · apply List.countP_congr
    intro i _
    rw [Function.comp_apply, decide_eq_true_iff, decide_eq_true_iff]
    constructor
    · intro all j within later
      exact all (j + 1) (Nat.succ_le_succ within) (Nat.succ_le_succ later)
    · intro all j within later
      obtain ⟨j, rfl⟩ := Nat.exists_eq_add_of_le' (Nat.one_le_of_lt later)
      exact all j (Nat.le_of_succ_le_succ within) (Nat.le_of_succ_le_succ later)
  · apply if_congr _ rfl rfl
    rw [decide_eq_true_iff]
    exact ⟨fun all j within => all j within (Nat.zero_le j), fun way j within _ => way j within⟩

/-- One walk comes to a name, the one that sets out there, exactly if the name is known and
the one before it is not. -/
theorem links_eq_one_iff :
    links known name = 1 ↔ known name = true ∧ (name = [] ∨ known name.dropLast = false) := by
  have last : (∀ j ≤ name.length, name.length ≤ j → known (name.take j) = true) ↔
      known name = true := by
    constructor
    · intro all
      have here := all name.length le_rfl le_rfl
      rwa [List.take_length] at here
    · intro here j within beyond
      rwa [Nat.le_antisymm within beyond, List.take_length]
  rw [links, List.range_succ, List.countP_append, List.countP_singleton]
  simp only [decide_eq_true_iff, last]
  by_cases here : known name = true
  · rw [if_pos here, Nat.add_eq_right, List.countP_eq_zero]
    simp only [List.mem_range, decide_eq_true_iff, here, true_and]
    constructor
    · intro none_
      refine or_iff_not_imp_left.mpr fun some_ => ?_
      have positive : 0 < name.length := List.length_pos_iff.mpr some_
      have blocked := none_ (name.length - 1) (Nat.sub_lt positive Nat.one_pos)
      rw [List.dropLast_eq_take]
      refine Bool.eq_false_iff.mpr fun before => blocked fun j within later => ?_
      obtain rfl | rfl : j = name.length - 1 ∨ j = name.length := by omega
      · exact before
      · rwa [List.take_length]
    · rintro (rfl | gap) i less all
      · exact absurd less (Nat.not_lt_zero i)
      · have before := all (name.length - 1) (Nat.sub_le _ _) (Nat.le_sub_one_of_lt less)
        rw [← List.dropLast_eq_take, gap] at before
        cases before
  · rw [if_neg here, Nat.add_zero]
    refine iff_of_false (fun one => ?_) (fun both => here both.1)
    obtain ⟨i, inside, all⟩ := List.countP_pos_iff.mp (one ▸ Nat.one_pos)
    have whole := of_decide_eq_true all name.length le_rfl (List.mem_range.mp inside).le
    rw [List.take_length] at whole
    exact here whole

/-- A walk sets out from every name that is known. -/
theorem links_pos (here : known name = true) : 0 < links known name := by
  rw [links, List.countP_pos_iff]
  refine ⟨name.length, List.mem_range.mpr (Nat.lt_succ_self _), decide_eq_true ?_⟩
  intro j within beyond
  rwa [Nat.le_antisymm within beyond, List.take_length]

end Links

/-! ## Boards -/

namespace Board

/-- Whom a message under a name goes to. -/
def audience (board : Board C S) (name : List C) : List S :=
  (board name).getD []

variable [DecidableEq C]

/-- The topic of a name is there, made if it was not. -/
def publish (board : Board C S) (name : List C) : Board C S :=
  Function.update board name (some (board.audience name))

/-- A subscriber more for a name. -/
def push (board : Board C S) (name : List C) (sub : S) : Board C S :=
  Function.update board name (some (sub :: board.audience name))

/-- A topic that is made and subscribed to. -/
theorem push_publish (board : Board C S) (name : List C) (sub : S) :
    (board.publish name).push name sub = board.push name sub := by
  have same : (board.publish name).audience name = board.audience name := by
    rw [audience, publish, Function.update_self]
    rfl
  rw [push, push, same, publish, Function.update_idem]

/-- A walk from every topic below a root. -/
def pushBelow (board : Board C S) (root : List C) (sub : S) : Board C S := fun name =>
  (board name).map fun subs =>
    if root <+: name then
      List.replicate (links (fun rest => (board (root ++ rest)).isSome) (name.drop root.length))
        sub ++ subs
    else subs

/-- Subscribing to a name; topics below it are visited only if it has a topic itself. -/
def subscribe (board : Board C S) (name : List C) (below : Bool) (sub : S) : Board C S :=
  (if below && (board name).isSome then board.pushBelow name sub else board).push name sub

section Below

variable {board : Board C S} {root name : List C} {sub : S}

/-- A subscription to what is below a root, for any topic but the root's own. -/
theorem audience_subscribe_below (known : (board root).isSome = true) (other : name ≠ root) :
    (board.subscribe root true sub).audience name = (board.pushBelow root sub).audience name := by
  rw [subscribe, known, Bool.and_self, if_pos rfl, audience, audience, push,
    Function.update_of_ne other]

/-- The topic of the root itself is pushed to by the walk, and once more. -/
theorem audience_subscribe_root (known : (board root).isSome = true) :
    (board.subscribe root true sub).audience root = sub :: sub :: board.audience root := by
  obtain ⟨subs, held⟩ := Option.isSome_iff_exists.mp known
  have way : Way (fun rest => (board (root ++ rest)).isSome) [] := by
    rw [way_nil, List.append_nil]
    exact known
  rw [subscribe, known, Bool.and_self, if_pos rfl, audience, push, Function.update_self,
    Option.getD_some, audience, pushBelow, held, Option.map_some, if_pos (List.prefix_refl root),
    List.drop_length, links_nil, if_pos way, audience, held]
  rfl

/-- A topic below the root has one entry more for each walk to it. -/
theorem audience_pushBelow (rest : List C) (held : (board (root ++ rest)).isSome = true) :
    (board.pushBelow root sub).audience (root ++ rest) =
      List.replicate (links (fun rest => (board (root ++ rest)).isSome) rest) sub ++
        board.audience (root ++ rest) := by
  obtain ⟨subs, held⟩ := Option.isSome_iff_exists.mp held
  rw [audience, pushBelow, held, Option.map_some, if_pos (List.prefix_append root rest),
    List.drop_left, audience, held]
  rfl

theorem audience_pushBelow_elsewhere (elsewhere : ¬ root <+: name) :
    (board.pushBelow root sub).audience name = board.audience name := by
  rw [audience, pushBelow, audience]
  simp only [if_neg elsewhere]
  cases board name <;> rfl

end Below

def apply (board : Board C S) : Op C S → Board C S
  | .publish name => board.publish name
  | .subscribe name below sub => board.subscribe name below sub

end Board

end PubSub
