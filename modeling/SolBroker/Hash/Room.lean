import Mathlib
import SolBroker.Lib.Along
import SolBroker.Hash.Growth

/-!
# Room for a put

Whether the rounds of a put come to an end depends on the order in which the entries come,
which the earlier rounds determine. But a put returns if at some size no key can find its
eight slots filled in any order, and it does not return unless at some size there is a slot
for each key. Nine keys of one CRC have the same eight slots at every size.
-/

namespace SolBroker

open Rebuilding Transition

variable {V : Type*} {table table' t : HashTable V} {key q : CString} {val : V}

/-- At `n` slots, eight of the entries could fill the eight slots of `q` between them, each in
one of its own, with keys that `q` does not begin with. -/
def Fillable (n : Nat) (entries : List (CString × V)) (q : CString) : Prop :=
  ∃ others, others.Subperm entries ∧
    List.Forall₂ (fun i e => i ∈ slots n e.1 ∧ ¬ e.1.CasePrefix q) (slots n q) others

theorem Fillable.mono {n : Nat} {entries entries' : List (CString × V)}
    (fillable : Fillable n entries q) (more : entries.Subperm entries') :
    Fillable n entries' q := by
  obtain ⟨others, sub, fill⟩ := fillable
  exact ⟨others, sub.trans more, fill⟩

/-- It takes eight entries to fill the slots of a key. -/
theorem Fillable.length_le {n : Nat} {entries : List (CString × V)}
    (fillable : Fillable n entries q) :
    maxChainLength ≤ (entries.filter fun e => ¬ e.1.CasePrefix q ∧
      ∃ i ∈ slots n q, i ∈ slots n e.1).length := by
  obtain ⟨others, sub, fill⟩ := fillable
  have turned : List.Forall₂ (fun e i => i ∈ slots n e.1 ∧ ¬ e.1.CasePrefix q) others
      (slots n q) := fill.flip
  have all : ∀ e ∈ others, ¬ e.1.CasePrefix q ∧ ∃ i ∈ slots n q, i ∈ slots n e.1 := by
    intro e member
    obtain ⟨i, here, onPath, begins⟩ := turned.exists_of_mem member
    exact ⟨begins, i, here, onPath⟩
  have kept := sub.filter fun e => decide (¬ e.1.CasePrefix q ∧ ∃ i ∈ slots n q, i ∈ slots n e.1)
  rw [List.filter_eq_self.mpr fun e member => decide_eq_true (all e member)] at kept
  calc maxChainLength = (slots n q).length := (Probing.length_path ..).symm
    _ = others.length := fill.length_eq
    _ ≤ _ := kept.length_le

/-- What a round starts with, so many rebuilds before the size at which there is room. -/
structure RoomAhead (table : HashTable V) (e : CString × V) (d left : Nat) (t : HashTable V)
    (waiting : List (CString × V)) : Prop where
  sound : Sound t
  size : ∃ c, t.tableSize = table.tableSize * 2 ^ (c + 1) ∧ c + left = d
  few : (t.contents ++ waiting).Subperm (table.contents ++ [e])
  last : waiting ≠ [] → waiting.getLast? = some e

namespace RoomAhead

variable {e e' : CString × V} {d left : Nat} {waiting : List (CString × V)}

/-- The entries that are there are old ones, as the new one is the last. -/
theorem contents (ahead : RoomAhead table e d left t (e' :: waiting)) :
    t.contents.Subperm table.contents := by
  obtain ⟨front, back⟩ : ∃ front, e' :: waiting = front ++ [e] :=
    List.getLast?_eq_some_iff.mp (ahead.last (List.cons_ne_nil _ _))
  have few := ahead.few
  rw [back, ← List.append_assoc, List.subperm_append_right] at few
  exact (List.sublist_append_left _ _).subperm.trans few

theorem place {i : Nat} (ahead : RoomAhead table e d left t (e' :: waiting))
    (hash : hashtableHash t e'.1 = some i) :
    RoomAhead table e d left (t.place i e'.1 e'.2) waiting where
  sound := ahead.sound.place e'.2 hash
  size := by simpa using ahead.size
  few := by
    have one : (t.place i e'.1 e'.2).contents.Subperm (e' :: t.contents) :=
      Probing.reduceOption_set_some_subperm t.entries i e'
    have more := (List.subperm_append_right waiting).mpr one
    exact (more.trans List.perm_middle.symm.subperm).trans ahead.few
  last := by
    intro some_
    have last := ahead.last (List.cons_ne_nil _ _)
    cases waiting with
    | nil => exact absurd rfl some_
    | cons e₂ rest => simpa using last

theorem rebuild (ahead : RoomAhead table e d (left + 1) t (e' :: waiting)) :
    RoomAhead table e d left (.zeroed (2 * t.tableSize)) (t.contents ++ e' :: waiting) where
  sound := sound_zeroed (by have := ahead.sound.positive; omega)
  size := by
    obtain ⟨c, size, rounds⟩ := ahead.size
    refine ⟨c + 1, ?_, by omega⟩
    rw [HashTable.tableSize_zeroed, size, pow_succ _ (c + 1)]
    ring
  few := by
    rw [HashTable.contents_zeroed, List.nil_append]
    exact ahead.few
  last := by
    intro _
    rw [List.getLast?_append_of_ne_nil _ (List.cons_ne_nil _ _)]
    exact ahead.last (List.cons_ne_nil _ _)

/-- Fewer than half of the slots are taken while an entry is to be put. -/
theorem room (ahead : RoomAhead table e d left t (e' :: waiting)) (sound : Sound table)
    (load : table.size ≤ table.tableSize / 2) : t.size < t.tableSize / 2 := by
  obtain ⟨c, size, _⟩ := ahead.size
  have few := ahead.contents.length_le
  rw [← ahead.sound.counted, ← sound.counted] at few
  have positive := sound.positive
  have larger : table.tableSize ≤ table.tableSize * 2 ^ c :=
    Nat.le_mul_of_pos_right _ (Nat.two_pow_pos c)
  rw [size, pow_succ, ← Nat.mul_assoc, Nat.mul_div_cancel _ (by decide)]
  omega

end RoomAhead

section Needed

variable {es waiting : List (CString × V)} {allocs allocs' : List Bool}

end Needed

def eightIds : List CString :=
  [cstr [97, 97, 97, 97, 97, 97, 97, 97, 97, 97, 97, 97],
   cstr [107, 101, 101, 99, 99, 97, 105, 99, 99, 107, 97, 105],
   cstr [103, 109, 101, 101, 97, 97, 101, 109, 107, 111, 101, 99],
   cstr [109, 105, 97, 103, 99, 97, 109, 111, 105, 101, 101, 107],
   cstr [107, 111, 107, 105, 107, 107, 99, 97, 99, 105, 105, 97],
   cstr [97, 107, 111, 107, 105, 107, 107, 99, 97, 99, 105, 105],
   cstr [109, 99, 111, 109, 107, 107, 103, 109, 105, 103, 109, 99],
   cstr [103, 103, 107, 111, 105, 107, 111, 111, 107, 109, 109, 107]]

def ninthId : CString := cstr [103, 107, 111, 107, 107, 107, 111, 99, 105, 103, 99, 97]

/-- The table of the first eight: at 16 slots their path is 15, 0, .., 6. -/
def eightClients : HashTable Nat where
  entries := [2, 3, 1, 4, 5, 6, 7].map (fun i => eightIds[i]?.map (·, 0)) ++
    List.replicate 8 none ++ [eightIds.head?.map (·, 0)]
  size := 8

theorem eightClients_replay :
    (replay (tableNext 4) hashtableCreate (eightIds.map (.put · 0))).map Prod.snd =
      some eightClients := by
  decide +kernel

theorem eightClients_reachable : Reachable TableStep hashtableCreate eightClients := by
  obtain ⟨⟨tr, last⟩, replayed, rfl⟩ := Option.map_eq_some_iff.mp eightClients_replay
  exact (Run.of_replay (tableNext_step 4) replayed).1.reachable

end SolBroker
