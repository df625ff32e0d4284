import Mathlib
import SolBroker.Hash.Exact

/-!
# Walking and releasing a table

`hashtable_map`, `hashtable_map2` and `hashtable_release`. The function they are given
changes a state of its own; it gets a copy of each taken entry in the order of the
slots, and its first status that is not `HASHTABLE_OK` ends the walk. Under the
discipline of the callers the entries are those of the finite map, each once.
-/

namespace SolBroker

open Transition

variable {V S P : Type}

/-- A call for each element in turn, up to the first that does not answer
`HASHTABLE_OK`. -/
def walk {E : Type*} (func : E → S → Except Fault (Int × S)) : List E → S → Except Fault (Int × S)
  | [], s => .ok (hashtableOk, s)
  | e :: es, s => do
      let (status, s) ← func e s
      if status ≠ hashtableOk then return (status, s)
      else walk func es s

/-- The loop of `hashtable_map` and of `hashtable_map2`. -/
def mapLoop (func : CString × V → S → Except Fault (Int × S)) :
    List (Option (CString × V)) → S → Except Fault (Int × S)
  | [], s => .ok (hashtableOk, s)
  | none :: entries, s => mapLoop func entries s
  | some e :: entries, s => do
      let (status, s) ← func e s
      if status ≠ hashtableOk then return (status, s)
      else mapLoop func entries s

/-- `hashtable_map`, of a table that is not NULL; the function may be. -/
def hashtableMap (table : HashTable V) (func : Option (CString × V → S → Except Fault (Int × S)))
    (s : S) : Except Fault (Int × S) :=
  match func with
  | none => .ok (-hashtableErr, s)
  | some func =>
      if table.size ≤ 0 then .ok (-hashtableErr, s) else mapLoop func table.entries s

/-- `hashtable_map2`, of a table that is not NULL. -/
def hashtableMap2 (table : HashTable V)
    (func : Option (CString × V → P → S → Except Fault (Int × S))) (param : P) (s : S) :
    Except Fault (Int × S) :=
  match func with
  | none => .error .assertFailed
  | some func =>
      if table.size ≤ 0 then .ok (-hashtableErr, s)
      else mapLoop (fun e => func e param) table.entries s

/-- `hashtable_release`, of a table that has entries: what the destructor leaves. The
table itself is gone. -/
def hashtableRelease (table : HashTable V) (destructor : CString × V → S → Except Fault (Int × S))
    (s : S) : Except Fault S :=
  (hashtableMap table (some destructor) s).map Prod.snd

section Loop

variable {func : CString × V → S → Except Fault (Int × S)}

/-- The loop walks the taken entries. -/
theorem mapLoop_eq_walk (entries : List (Option (CString × V))) (s : S) :
    mapLoop func entries s = walk func entries.reduceOption s := by
  induction entries generalizing s with
  | nil => rfl
  | cons entry entries ih =>
      cases entry with
      | none => exact ih s
      | some e =>
          rw [mapLoop, List.reduceOption_cons_of_some, walk]
          congr 1
          funext p
          obtain ⟨status, s'⟩ := p
          dsimp only
          rw [ih s']

theorem mapLoop_eq_walk_contents (table : HashTable V) (s : S) :
    mapLoop func table.entries s = walk func table.contents s :=
  mapLoop_eq_walk table.entries s

/-- A walk in which each call answers `HASHTABLE_OK` and keeps what the rest of the walk
needs. -/
theorem walk_of_ok {E : Type*} {func : E → S → Except Fault (Int × S)} {inv : List E → S → Prop}
    (round : ∀ e es s, inv (e :: es) s → ∃ s', func e s = .ok (hashtableOk, s') ∧ inv es s')
    {es : List E} {s : S} (start : inv es s) :
    ∃ s', walk func es s = .ok (hashtableOk, s') ∧ inv [] s' := by
  induction es generalizing s with
  | nil => exact ⟨s, rfl, start⟩
  | cons e es ih =>
      obtain ⟨s₁, now, kept⟩ := round e es s start
      obtain ⟨s', rest, last⟩ := ih kept
      refine ⟨s', ?_, last⟩
      rw [walk, now]
      exact rest

end Loop

namespace Represented

variable {keys : Set CString} {table : HashTable V} {m : KeyMap V}

/-- No entry is in the table twice. -/
theorem contents_nodup (rep : Represented keys table m) : table.contents.Nodup := by
  apply List.Nodup.of_map Prod.fst
  apply Probing.nodup_reduceOption
  intro i j a b atI atJ same
  obtain ⟨k, v⟩ := a
  obtain ⟨k', w⟩ := b
  obtain rfl : k = k' := same
  exact (rep.single k (rep.known.within i k v atI)).unique i j v w atI atJ

theorem mem_contents_iff (rep : Represented keys table m) {k : CString} {v : V} :
    (k, v) ∈ table.contents ↔ m.lookup k = some v := by
  rw [HashTable.mem_contents]
  constructor
  · rintro ⟨i, held⟩
    exact ((rep.single k (rep.known.within i k v held)).held v).mpr ⟨i, held⟩
  · intro found
    have inside := rep.within k (AList.lookup_isSome.mp (by simp [found]))
    exact ((rep.single k inside).held v).mp found

/-- The taken entries are those of the map, each once. -/
theorem contents_perm (rep : Represented keys table m) :
    table.contents.Perm (m.entries.map fun e => (e.1, e.2)) := by
  have nodup' : (m.entries.map fun e => (e.1, e.2)).Nodup := by
    refine (AList.nodupKeys m).nodup.map ?_
    rintro ⟨k, v⟩ ⟨k', v'⟩ same
    obtain ⟨rfl, rfl⟩ := Prod.mk.inj same
    rfl
  rw [List.perm_ext_iff_of_nodup rep.contents_nodup nodup']
  rintro ⟨k, v⟩
  have stored : (k, v) ∈ m.entries.map (fun e => (e.1, e.2)) ↔ m.lookup k = some v := by
    have entry : m.lookup k = some v ↔ ⟨k, v⟩ ∈ m.entries := AList.mem_lookup_iff
    rw [entry, List.mem_map]
    constructor
    · rintro ⟨⟨k', v'⟩, member, same⟩
      obtain ⟨rfl, rfl⟩ := Prod.mk.inj same
      exact member
    · intro member
      exact ⟨_, member, rfl⟩
  rw [stored, rep.mem_contents_iff]

end Represented

/-- Wherever a disciplined run has come, the walks of the table go through the entries of
the finite map, each once and in an order that does not depend on what is done with them. -/
theorem disciplined_walks {keys : Set CString} (prefixFree : PrefixFree keys)
    {tr : List (HashTable V × TableOp V)} {table : HashTable V}
    (run : Run (DisciplinedStep keys) hashtableCreate tr table) :
    let m := (tr.map Prod.snd).foldl TableOp.onMap ∅
    ∃ order : List (CString × V), order.Perm (m.entries.map fun e => (e.1, e.2)) ∧
      ∀ (S P : Type) (s : S) (param : P),
        (∀ func, hashtableMap table (some func) s =
          if order = [] then .ok (-hashtableErr, s) else walk func order s) ∧
        (∀ func, hashtableMap2 table (some func) param s =
          if order = [] then .ok (-hashtableErr, s) else walk (fun e => func e param) order s) := by
  intro m
  have kept (t : HashTable V) (m : KeyMap V) (op : TableOp V) (t' : HashTable V)
      (rep : Represented keys t m) (step : DisciplinedStep keys t op t') :
      Represented keys t' (op.onMap m) := rep.step prefixFree step
  have rep : Represented keys table m := run.refines (represented_hashtableCreate keys) kept
  refine ⟨table.contents, rep.contents_perm, fun S P s param => ⟨fun func => ?_, fun func => ?_⟩⟩
  all_goals
    simp only [hashtableMap, hashtableMap2, mapLoop_eq_walk_contents, Nat.le_zero_eq,
      rep.known.sound.counted, List.length_eq_zero_iff]

theorem walk_log {E : Type} (es log : List E) :
    walk (fun e log => .ok (hashtableOk, log ++ [e])) es log = .ok (hashtableOk, log ++ es) := by
  induction es generalizing log with
  | nil => rw [walk, List.append_nil]
  | cons e es ih =>
      rw [walk]
      exact (ih (log ++ [e])).trans (by rw [List.append_assoc, List.singleton_append])

/-- Both walks of a table that has been rebuilt come to its three clients in one order. -/
theorem threeClients_walked :
    ∃ order : List (CString × Nat), order.Perm [(clientC, 3), (clientB, 2), (clientA, 1)] ∧
      hashtableMap threeClients (some fun e log => .ok (hashtableOk, log ++ [e])) [] =
        .ok (hashtableOk, order) ∧
      hashtableMap2 threeClients (some fun e () log => .ok (hashtableOk, log ++ [e])) () [] =
        .ok (hashtableOk, order) := by
  obtain ⟨tr, run, calls⟩ := threeClients_run
  obtain ⟨order, perm, walks⟩ := disciplined_walks threeKeys_prefixFree run
  rw [calls] at perm
  have some_ : order ≠ [] := by
    rintro rfl
    cases perm.length_eq
  obtain ⟨first, second⟩ := walks (List (CString × Nat)) Unit [] ()
  refine ⟨order, perm, ?_, ?_⟩
  · rw [first, if_neg some_, walk_log, List.nil_append]
  · rw [second, if_neg some_, walk_log, List.nil_append]

end SolBroker
