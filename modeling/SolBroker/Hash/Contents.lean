import Mathlib
import SolBroker.Hash.Table

/-!
# The entries of the table as a collection

Whatever keys are used, a put adds at most the entry it is given and a deletion takes
away the one it found. A put may lose entries, over which it or a rebuild places others,
and which ones it loses is determined by the table and the entry, not by the fuel.
-/

namespace SolBroker

variable {V : Type*} {table table' : HashTable V} {key : CString} {v : V}

/-! ## What is there afterwards -/

theorem Moves.contents_subperm {es : List (CString × V)}
    (moves : Moves (fun t e t' => t'.contents.Subperm (e :: t.contents)) es table table') :
    table'.contents.Subperm (es ++ table.contents) := by
  induction moves with
  | nil => exact .refl _
  | @cons e es t t₁ t₂ first rest ih =>
      have behind : (es ++ t₁.contents).Subperm (es ++ e :: t.contents) :=
        (List.subperm_append_left es).mpr first
      exact (ih.trans behind).trans List.perm_middle.subperm

/-- A put adds no entry but its own, and none twice. -/
theorem PutReturns.contents_subperm (returns : PutReturns table key v table') :
    table'.contents.Subperm ((key, v) :: table.contents) := by
  refine returns.rule (R := fun t e t' => t'.contents.Subperm (e :: t.contents)) ?_ ?_
  · intro t k i w _
    exact Probing.reduceOption_set_some_subperm t.entries i (k, w)
  · intro t t₁ t' e _ moves last
    have rebuilt := moves.contents_subperm
    have empty : (HashTable.zeroed (2 * t.tableSize) : HashTable V).contents = [] := by
      simp [HashTable.zeroed, HashTable.contents, List.reduceOption]
    rw [empty, List.append_nil] at rebuilt
    exact last.trans ((List.subperm_cons e).mpr rebuilt)

theorem PutReturns.mem_contents (returns : PutReturns table key v table') {e : CString × V}
    (member : e ∈ table'.contents) : e = (key, v) ∨ e ∈ table.contents :=
  List.mem_cons.mp (returns.contents_subperm.subset member)

theorem PutReturns.mem_self (returns : PutReturns table key v table') (sound : Sound table) :
    (key, v) ∈ table'.contents := by
  refine (returns.rule (R := fun t e t' => Sound t → Sound t' ∧ e ∈ t'.contents) ?_ ?_ sound).2
  · intro t k i w hash sound
    refine ⟨sound.place w hash, HashTable.mem_contents.mpr ⟨i, ?_⟩⟩
    rw [HashTable.at?_place (sound.hash_lt hash), if_pos rfl]
  · intro t t₁ t' e _ moves last sound
    have empty : Sound (.zeroed (2 * t.tableSize) : HashTable V) :=
      sound_zeroed (by have := sound.positive; omega)
    exact last (moves.invariant empty fun _ _ _ _ sound step => (step sound).1)

/-- A deletion takes away the entry it finds. -/
theorem contents_clear_perm {i : Nat} {e : CString × V} (held : table.at? i = some e) :
    table.contents.Perm (e :: (table.clear i).contents) :=
  Probing.reduceOption_set_none_perm held

/-- Where no two entries have the same key, or the same value, it takes away the key, or value. -/
theorem apart_clear {α : Type*} {f : CString × V → α} {i : Nat} {e : CString × V}
    (apart : (table.contents.map f).Nodup) (held : table.at? i = some e) :
    f e ∉ (table.clear i).contents.map f ∧ ((table.clear i).contents.map f).Nodup := by
  have apart := ((contents_clear_perm held).map f).nodup_iff.mp apart
  rwa [List.map_cons, List.nodup_cons] at apart

/-- What is found is the value of the entry where the loop stops. -/
theorem hashtableGet_of_located {i : Nat} {e : CString × V}
    (located : hashtableLocate table key = some i)
    (held : table.at? i = some e) : hashtableGet table key = some e.2 := by
  rw [hashtableGet, located]
  show (table.at? i).map Prod.snd = some e.2
  rw [held]
  rfl

/-! ## A put has one outcome -/

theorem rehashLoop_mono {put put' : HashTable V → CString → V → List Bool → Except Fault (Put V)}
    (mono : ∀ t k w as r, put t k w as = .ok r → put' t k w as = .ok r)
    {entries : List (Option (CString × V))} {allocs : List Bool} {r : Put V}
    (run : rehashLoop put entries table allocs = .ok r) :
    rehashLoop put' entries table allocs = .ok r := by
  induction entries generalizing table allocs with
  | nil => exact run
  | cons entry entries ih =>
      cases entry with
      | none => exact ih run
      | some e =>
          obtain ⟨k, w⟩ := e
          obtain ⟨⟨status, t, as⟩, first, rest⟩ := bind_eq_ok.mp run
          refine bind_eq_ok.mpr ⟨(status, t, as), mono _ _ _ _ _ first, ?_⟩
          dsimp only at rest ⊢
          split at rest
          · rename_i failed
            rw [if_pos failed]
            exact rest
          · rename_i fine
            rw [if_neg fine]
            exact ih rest

theorem hashtableRehash_mono
    {put put' : HashTable V → CString → V → List Bool → Except Fault (Put V)}
    (mono : ∀ t k w as r, put t k w as = .ok r → put' t k w as = .ok r) {allocs : List Bool}
    {r : Put V} (run : hashtableRehash put table allocs = .ok r) :
    hashtableRehash put' table allocs = .ok r := by
  match allocs with
  | false :: _ => exact run
  | true :: _ => exact rehashLoop_mono mono run
  | [] => exact rehashLoop_mono mono run

/-- More fuel changes nothing about a put that returns. -/
theorem hashtablePut_succ {fuel : Nat} {allocs : List Bool} {r : Put V}
    (run : hashtablePut fuel table key v allocs = .ok r) :
    hashtablePut (fuel + 1) table key v allocs = .ok r := by
  induction fuel generalizing table key v allocs r with
  | zero => cases run
  | succ fuel ih =>
      rw [hashtablePut] at run ⊢
      cases hash : hashtableHash table key with
      | some index =>
          rw [hash] at run
          exact run
      | none =>
          rw [hash] at run
          obtain ⟨⟨status, t, as⟩, rebuilt, rest⟩ := bind_eq_ok.mp run
          have rebuilt' := hashtableRehash_mono (fun _ _ _ _ _ put => ih put) rebuilt
          refine bind_eq_ok.mpr ⟨(status, t, as), rebuilt', ?_⟩
          dsimp only at rest ⊢
          split at rest
          · rename_i failed
            rw [if_pos failed]
            exact rest
          · rename_i fine
            rw [if_neg fine]
            exact ih rest

theorem hashtablePut_mono {fuel fuel' : Nat} (le : fuel ≤ fuel') {allocs : List Bool} {r : Put V}
    (run : hashtablePut fuel table key v allocs = .ok r) :
    hashtablePut fuel' table key v allocs = .ok r := by
  induction le with
  | refl => exact run
  | step _ ih => exact hashtablePut_succ ih

theorem PutReturns.unique {table₁ table₂ : HashTable V} (first : PutReturns table key v table₁)
    (second : PutReturns table key v table₂) : table₁ = table₂ := by
  obtain ⟨fuel₁, status₁, run₁⟩ := first
  obtain ⟨fuel₂, status₂, run₂⟩ := second
  have same := (hashtablePut_mono (le_max_left fuel₁ fuel₂) run₁).symm.trans
    (hashtablePut_mono (le_max_right fuel₁ fuel₂) run₂)
  exact (Prod.mk.inj (Prod.mk.inj (Except.ok.inj same)).2).1

end SolBroker
