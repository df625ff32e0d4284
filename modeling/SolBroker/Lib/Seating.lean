import Mathlib
import SolBroker.Lib.Probe

/-!
# Seats along paths

Keys take slots one after the other, each the first slot on its path that no other key
has. Where one finds none, all start again on other paths, those that had a slot in the
order of the slots and the others behind them. Who comes past whom on the way is told here
from the keys and their paths alone: the slots hold nothing, and nothing is looked up.
-/

namespace Probing

variable {κ : Type*}

/-- The keys by their seats. -/
def inOrder (seats : List (κ × Nat)) : List κ :=
  (seats.insertionSort fun a b => a.2 ≤ b.2).map Prod.fst

/-- A list of keys and slots in the order of the slots is the order of the seats in it. -/
theorem inOrder_of_pairwise {seats listed : List (κ × Nat)} (same : listed.Perm seats)
    (sorted : listed.Pairwise fun a b => a.2 < b.2) : inOrder seats = listed.map Prod.fst := by
  have : Std.Total fun a b : κ × Nat => a.2 ≤ b.2 := ⟨fun a b => Nat.le_total a.2 b.2⟩
  have : IsTrans (κ × Nat) fun a b => a.2 ≤ b.2 := ⟨fun _ _ _ => Nat.le_trans⟩
  have apart : (listed.map Prod.snd).Nodup :=
    List.pairwise_map.mpr (sorted.imp fun before => before.ne)
  have perm := (List.perm_insertionSort (fun a b : κ × Nat => a.2 ≤ b.2) seats).trans same.symm
  have ascends := List.pairwise_insertionSort (fun a b : κ × Nat => a.2 ≤ b.2) seats
  have equal := perm.eq_of_pairwise (fun a b memberA memberB le ge =>
    List.inj_on_of_nodup_map apart (perm.mem_iff.mp memberA) memberB (Nat.le_antisymm le ge))
    ascends (sorted.imp fun before => before.le)
  rw [inOrder, equal]

variable [DecidableEq κ]

/-- No other key has the slot. -/
def Open (seats : List (κ × Nat)) (k : κ) (i : Nat) : Prop :=
  ∀ e ∈ seats, e.2 = i → e.1 = k

instance (seats : List (κ × Nat)) (k : κ) (i : Nat) : Decidable (Open seats k i) :=
  inferInstanceAs (Decidable (∀ e ∈ seats, e.2 = i → e.1 = k))

/-- The slot a key takes. -/
def seat (path : List Nat) (seats : List (κ × Nat)) (k : κ) : Option Nat :=
  path.find? fun i => Open seats k i

/-- The slots it comes past on the way. -/
def passed (path : List Nat) (seats : List (κ × Nat)) (k : κ) : List Nat :=
  path.takeWhile fun i => ¬ Open seats k i

/-- The seats that are taken in turn, up to the first key that finds none, and the keys that
are left then. -/
def seating (path : κ → List Nat) : List (κ × Nat) → List κ → List (κ × Nat) × List κ
  | seats, [] => (seats, [])
  | seats, k :: ks =>
      match seat (path k) seats k with
      | some i => seating path (seats.insert (k, i)) ks
      | none => (seats, k :: ks)

/-- The order in which the keys come in a round. -/
def turn (path : Nat → κ → List Nat) (ks : List κ) : Nat → List κ
  | 0 => ks
  | d + 1 =>
      let (seats, left) := seating (path d) [] (turn path ks d)
      inOrder seats ++ left

/-- The seats of a round and the keys that are left in it. -/
def seated (path : Nat → κ → List Nat) (ks : List κ) (d : Nat) : List (κ × Nat) × List κ :=
  seating (path d) [] (turn path ks d)

/-- A round comes, as some key is left in each before it. -/
def Comes (path : Nat → κ → List Nat) (ks : List κ) (d : Nat) : Prop :=
  ∀ c < d, (seated path ks c).2 ≠ []

/-- No key comes past the seat of one that it would be taken for. -/
def Unmistaken (path : κ → List Nat) (mistaken : κ → κ → Prop) :
    List (κ × Nat) → List κ → Prop
  | _, [] => True
  | seats, k :: ks =>
      (∀ e ∈ seats, e.2 ∈ passed (path k) seats k → ¬ mistaken e.1 k) ∧
        ∀ i, seat (path k) seats k = some i →
          Unmistaken path mistaken (seats.insert (k, i)) ks

def decideUnmistaken (path : κ → List Nat) (mistaken : κ → κ → Prop) [DecidableRel mistaken] :
    (seats : List (κ × Nat)) → (ks : List κ) → Decidable (Unmistaken path mistaken seats ks)
  | _, [] => isTrue trivial
  | seats, k :: ks =>
      have later : Decidable (∀ i, seat (path k) seats k = some i →
          Unmistaken path mistaken (seats.insert (k, i)) ks) :=
        match seat (path k) seats k with
        | none => isTrue fun _ none_ => nomatch none_
        | some i =>
            have rest := decideUnmistaken path mistaken (seats.insert (k, i)) ks
            decidable_of_iff (Unmistaken path mistaken (seats.insert (k, i)) ks) (by simp)
      inferInstanceAs (Decidable (_ ∧ _))

instance {mistaken : κ → κ → Prop} [DecidableRel mistaken] (path : κ → List Nat)
    (seats : List (κ × Nat)) (ks : List κ) : Decidable (Unmistaken path mistaken seats ks) :=
  decideUnmistaken path _ seats ks

section Rounds

variable {path : Nat → κ → List Nat} {ks left : List κ} {seats : List (κ × Nat)} {d : Nat}

theorem seating_found {path : κ → List Nat} {k : κ} {i : Nat}
    (found : seat (path k) seats k = some i) (ks : List κ) :
    seating path seats (k :: ks) = seating path (seats.insert (k, i)) ks := by
  rw [seating, found]

theorem seating_refused {path : κ → List Nat} {k : κ} (full : seat (path k) seats k = none)
    (ks : List κ) : seating path seats (k :: ks) = (seats, k :: ks) := by
  rw [seating, full]

theorem turn_succ (here : seated path ks d = (seats, left)) :
    turn path ks (d + 1) = inOrder seats ++ left := by
  rw [seated] at here
  rw [turn, here]

theorem comes_zero : Comes path ks 0 :=
  fun _ before => absurd before (Nat.not_lt_zero _)

theorem Comes.succ (comes : Comes path ks d) (waiting : (seated path ks d).2 ≠ []) :
    Comes path ks (d + 1) := by
  intro c before
  obtain earlier | rfl := Nat.lt_succ_iff_lt_or_eq.mp before
  · exact comes c earlier
  · exact waiting

end Rounds

section Paths

variable {path : List Nat} {seats : List (κ × Nat)} {k : κ} {i : Nat}

/-- Where a seat is, and what is passed before it. -/
theorem seat_eq_some_iff : seat path seats k = some i ↔ Open seats k i ∧
    ∃ before after, path = before ++ i :: after ∧ ∀ j ∈ before, ¬ Open seats k j := by
  rw [seat, List.find?_eq_some_iff_append]
  simp

theorem seat_eq_none_iff : seat path seats k = none ↔ ∀ i ∈ path, ¬ Open seats k i := by
  simp [seat]

theorem mem_passed {before after : List Nat} (split : path = before ++ i :: after)
    (taken : ∀ j ∈ before, ¬ Open seats k j) (here : ¬ Open seats k i) :
    i ∈ passed path seats k := by
  rw [passed, split, List.takeWhile_append_of_pos (by simpa using taken),
    List.takeWhile_cons_of_pos (by simpa using here)]
  simp

theorem passed_of_seat {before after : List Nat} (split : path = before ++ i :: after)
    (taken : ∀ j ∈ before, ¬ Open seats k j) (here : Open seats k i) :
    passed path seats k = before := by
  rw [passed, split, List.takeWhile_append_of_pos (by simpa using taken),
    List.takeWhile_cons_of_neg (by simpa using here), List.append_nil]

end Paths

/-- Everyone's seat is still the first slot that is open to them. -/
def Steady (path : κ → List Nat) (seats : List (κ × Nat)) : Prop :=
  ∀ e ∈ seats, seat (path e.1) seats e.1 = some e.2

section Steady

variable {path : κ → List Nat} {seats : List (κ × Nat)} {k : κ} {i : Nat}

theorem Steady.unique (steady : Steady path seats) {j : Nat} (atI : (k, i) ∈ seats)
    (atJ : (k, j) ∈ seats) : i = j :=
  Option.some.inj ((steady _ atI).symm.trans (steady _ atJ))

/-- A seat is open to the key that takes it, and nothing that was not becomes open. -/
theorem Open.insert_iff {p : κ} {j : Nat} :
    Open (seats.insert (k, i)) p j ↔ Open seats p j ∧ (i = j → k = p) := by
  simp only [Open, List.mem_insert_iff, forall_eq_or_imp]
  exact and_comm

theorem Steady.insert (steady : Steady path seats) (found : seat (path k) seats k = some i) :
    Steady path (seats.insert (k, i)) := by
  obtain ⟨here, before, after, split, taken⟩ := seat_eq_some_iff.mp found
  intro e member
  obtain rfl | old := List.mem_insert_iff.mp member
  · refine seat_eq_some_iff.mpr ⟨Open.insert_iff.mpr ⟨here, fun _ => rfl⟩, before, after, split, ?_⟩
    exact fun j inside open_ => taken j inside (Open.insert_iff.mp open_).1
  · obtain ⟨own, before', after', split', taken'⟩ := seat_eq_some_iff.mp (steady e old)
    refine seat_eq_some_iff.mpr ⟨Open.insert_iff.mpr ⟨own, ?_⟩, before', after', split', ?_⟩
    · rintro rfl
      exact (here e old rfl).symm
    · exact fun j inside open_ => taken' j inside (Open.insert_iff.mp open_).1

end Steady

end Probing
