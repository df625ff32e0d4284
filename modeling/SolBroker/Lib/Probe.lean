import Mathlib

/-!
# Linear probing

Slots are an array of optional elements; a probe walks a bounded number of slots
from a start, wrapping at the end, and stops at the first one a test accepts. All
that is needed of such a walk is where it stopped and what it passed.
-/

namespace Probing

variable {α : Type*}

/-- The positions visited in `steps` probes of `n` slots from `curr`. -/
def path (n : Nat) : Nat → Nat → List Nat
  | 0, _ => []
  | steps + 1, curr => curr :: path n steps ((curr + 1) % n)

theorem lt_of_mem_path {n steps start i : Nat} (within : start < n)
    (member : i ∈ path n steps start) : i < n := by
  induction steps generalizing start with
  | zero => simp [path] at member
  | succ steps ih =>
      rcases List.mem_cons.mp member with rfl | later
      · exact within
      · exact ih (Nat.mod_lt _ (by omega)) later

@[simp] theorem length_path (n steps start : Nat) : (path n steps start).length = steps := by
  induction steps generalizing start with
  | zero => rfl
  | succ steps ih => rw [path, List.length_cons, ih]

theorem mem_path_iff {n steps start i : Nat} (within : start < n) :
    i ∈ path n steps start ↔ ∃ j < steps, i = (start + j) % n := by
  induction steps generalizing start with
  | zero => simp [path]
  | succ steps ih =>
      rw [path, List.mem_cons, ih (Nat.mod_lt _ (by omega))]
      constructor
      · rintro (rfl | ⟨j, before, rfl⟩)
        · exact ⟨0, by omega, (Nat.mod_eq_of_lt within).symm⟩
        · exact ⟨j + 1, by omega, by rw [Nat.mod_add_mod, Nat.add_assoc, Nat.add_comm 1]⟩
      · rintro ⟨j, before, rfl⟩
        cases j with
        | zero => exact .inl (Nat.mod_eq_of_lt within)
        | succ j =>
            exact .inr ⟨j, by omega, by rw [Nat.mod_add_mod, Nat.add_assoc, Nat.add_comm 1]⟩

/-- What a slot holds; nothing lies beyond the last one. -/
def slot (slots : List (Option α)) (i : Nat) : Option α :=
  slots[i]?.join

/-- The first of `steps` slots from `curr` that passes the test. -/
def search (hit : Option α → Bool) (slots : List (Option α)) : Nat → Nat → Option Nat
  | 0, _ => none
  | steps + 1, curr =>
      if hit (slot slots curr) then some curr
      else search hit slots steps ((curr + 1) % slots.length)

section Slots

variable {slots : List (Option α)} {i j : Nat} {a : α}

theorem lt_of_slot (held : slot slots i = some a) : i < slots.length := by
  by_contra beyond
  simp [slot, List.getElem?_eq_none (not_lt.mp beyond)] at held

theorem slot_set (within : i < slots.length) (e : Option α) :
    slot (slots.set i e) j = if j = i then e else slot slots j := by
  by_cases same : j = i
  · subst same
    simp [slot, within]
  · rw [if_neg same, slot, slot, List.getElem?_set_ne (Ne.symm same)]

@[simp] theorem slot_replicate (n : Nat) : slot (List.replicate n (none : Option α)) i = none := by
  rw [slot, List.getElem?_replicate]
  split <;> rfl

theorem slot_eq_some_iff : (∃ i, slot slots i = some a) ↔ some a ∈ slots := by
  simp [slot, List.mem_iff_getElem?, Option.join_eq_some_iff]

/-- The elements in the order of the slots. -/
theorem reduceOption_eq_filterMap (slots : List (Option α)) :
    slots.reduceOption = (List.range slots.length).filterMap (slot slots) := by
  have all : (List.range slots.length).map (slot slots) = slots := by
    refine List.ext_getElem (by simp) fun i _ within => ?_
    simp [slot, within]
  conv_lhs => rw [← all]
  rw [List.reduceOption, List.filterMap_map]
  rfl

/-- Filling a slot adds an element unless it replaces one. -/
theorem length_reduceOption_set_some (within : i < slots.length) (a : α) :
    (slots.set i (some a)).reduceOption.length =
      if (slot slots i).isNone then slots.reduceOption.length + 1
      else slots.reduceOption.length := by
  induction slots generalizing i with
  | nil => simp at within
  | cons e slots ih =>
      cases i with
      | zero => cases e <;> simp [slot, List.reduceOption_cons_of_some,
          List.reduceOption_cons_of_none]
      | succ i =>
          have rest := ih (Nat.lt_of_succ_lt_succ within)
          simp only [slot] at rest
          cases e with
          | none => simpa [slot, List.reduceOption_cons_of_none] using rest
          | some b =>
              simp only [List.set_cons_succ, List.reduceOption_cons_of_some, List.length_cons,
                slot, List.getElem?_cons_succ, rest]
              exact apply_ite (· + 1) _ _ _

/-- Emptying a slot removes one. -/
theorem length_reduceOption_set_none (held : slot slots i = some a) :
    (slots.set i none).reduceOption.length + 1 = slots.reduceOption.length := by
  induction slots generalizing i with
  | nil => simp [slot] at held
  | cons e slots ih =>
      cases i with
      | zero =>
          obtain rfl : e = some a := by simpa [slot] using held
          simp [List.reduceOption_cons_of_some, List.reduceOption_cons_of_none]
      | succ i =>
          have rest := ih (i := i) (by simpa [slot] using held)
          cases e <;> simp [List.reduceOption_cons_of_some, List.reduceOption_cons_of_none, rest]

/-- The elements around a slot's own in the order of the slots. -/
theorem reduceOption_split (held : slot slots i = some a) :
    ∃ before after, slots.reduceOption = before ++ a :: after ∧
      ∀ b, b ∈ before ∨ b ∈ after → ∃ j ≠ i, slot slots j = some b := by
  induction slots generalizing i with
  | nil => simp [slot] at held
  | cons e slots ih =>
      cases i with
      | zero =>
          obtain rfl : e = some a := by simpa [slot] using held
          refine ⟨[], slots.reduceOption, List.reduceOption_cons_of_some _ _, ?_⟩
          rintro b (none_ | member)
          · simp at none_
          · obtain ⟨j, found⟩ := slot_eq_some_iff.mpr (List.reduceOption_mem_iff.mp member)
            exact ⟨j + 1, by omega, by simpa [slot] using found⟩
      | succ i =>
          obtain ⟨before, after, split, others⟩ := ih (i := i) (by simpa [slot] using held)
          have shifted : ∀ b, b ∈ before ∨ b ∈ after → ∃ j ≠ i + 1,
            slot (e :: slots) j = some b := by
            intro b member
            obtain ⟨j, other, found⟩ := others b member
            exact ⟨j + 1, by omega, by simpa [slot] using found⟩
          cases e with
          | none =>
              exact ⟨before, after, (List.reduceOption_cons_of_none _).trans split, shifted⟩
          | some c =>
              refine ⟨c :: before, after, ?_, ?_⟩
              · rw [List.reduceOption_cons_of_some, split, List.cons_append]
              · rintro b (member | member)
                · rcases List.mem_cons.mp member with rfl | member
                  · exact ⟨0, by omega, by simp [slot]⟩
                  · exact shifted b (.inl member)
                · exact shifted b (.inr member)

/-- Elements that `key` tells apart by their slots are listed without repetition. -/
theorem nodup_reduceOption {κ : Type*} {key : α → κ}
    (apart : ∀ i j a b, slot slots i = some a → slot slots j = some b → key a = key b → i = j) :
    (slots.reduceOption.map key).Nodup := by
  induction slots with
  | nil => simp
  | cons e slots ih =>
      have rest := ih fun i j a b atI atJ same => by
        have := apart (i + 1) (j + 1) a b (by simpa [slot] using atI)
          (by simpa [slot] using atJ) same
        omega
      cases e with
      | none => simpa [List.reduceOption_cons_of_none] using rest
      | some a =>
          rw [List.reduceOption_cons_of_some, List.map_cons, List.nodup_cons]
          refine ⟨fun member => ?_, rest⟩
          obtain ⟨b, stored, same⟩ := List.mem_map.mp member
          obtain ⟨j, found⟩ := slot_eq_some_iff.mpr (List.reduceOption_mem_iff.mp stored)
          have := apart 0 (j + 1) a b (by simp [slot]) (by simpa [slot] using found) same.symm
          omega

/-- What is there after filling a slot was there before, its element apart. -/
theorem reduceOption_set_some_subperm (slots : List (Option α)) (i : Nat) (a : α) :
    (slots.set i (some a)).reduceOption.Subperm (a :: slots.reduceOption) := by
  induction slots generalizing i with
  | nil => exact List.nil_subperm
  | cons e slots ih =>
      cases i with
      | zero =>
          have kept : slots.reduceOption.Sublist (List.reduceOption (e :: slots)) := by
            cases e with
            | none => exact .refl _
            | some b => exact List.sublist_cons_self b _
          exact (kept.cons_cons a).subperm
      | succ i =>
          cases e with
          | none => exact ih i
          | some b =>
              show (b :: (slots.set i (some a)).reduceOption).Subperm (a :: b :: slots.reduceOption)
              exact ((List.subperm_cons b).mpr (ih i)).trans (List.Perm.swap a b _).subperm

/-- Emptying a slot takes its element away and nothing else. -/
theorem reduceOption_set_none_perm (held : slot slots i = some a) :
    slots.reduceOption.Perm (a :: (slots.set i none).reduceOption) := by
  induction slots generalizing i with
  | nil => simp [slot] at held
  | cons e slots ih =>
      cases i with
      | zero =>
          obtain rfl : e = some a := by simpa [slot] using held
          exact .refl _
      | succ i =>
          have rest := ih (i := i) (by simpa [slot] using held)
          cases e with
          | none => exact rest
          | some b => exact (rest.cons b).trans (.swap a b _)

end Slots

section Search

variable {hit : Option α → Bool} {slots : List (Option α)} {steps start i : Nat}

theorem search_eq_find? :
    search hit slots steps start =
      (path slots.length steps start).find? fun i => hit (slot slots i) := by
  induction steps generalizing start with
  | zero => rfl
  | succ steps ih =>
      rw [search, path, List.find?_cons]
      cases hit (slot slots start) <;> simp [ih]

/-- Where a successful search stopped, and that it passed no hit before. -/
theorem search_eq_some_iff :
    search hit slots steps start = some i ↔ hit (slot slots i) = true ∧
      ∃ before after, path slots.length steps start = before ++ i :: after ∧
        ∀ j ∈ before, hit (slot slots j) = false := by
  rw [search_eq_find?, List.find?_eq_some_iff_append]
  simp

theorem search_eq_none_iff :
    search hit slots steps start = none ↔
      ∀ i ∈ path slots.length steps start, hit (slot slots i) = false := by
  simp [search_eq_find?]

end Search

/-- A further accepted position is found if nothing before it was. -/
theorem find?_or_self {p : Nat → Bool} {xs before after : List Nat} {i : Nat}
    (split : xs = before ++ i :: after) (passed : ∀ j ∈ before, p j = false) :
    (xs.find? fun j => decide (j = i) || p j) = some i := by
  rw [split, List.find?_append]
  cases found : before.find? fun j => decide (j = i) || p j with
  | none => simp
  | some j =>
      have accepted := List.find?_some found
      rw [passed j (List.mem_of_find?_eq_some found)] at accepted
      simpa using accepted

/-- It makes no difference where another position comes first. -/
theorem find?_or_of_passed {p : Nat → Bool} {xs : List Nat} {i : Nat}
    (earlier : ∀ before after, xs = before ++ i :: after → ∃ j ∈ before, p j = true) :
    (xs.find? fun j => decide (j = i) || p j) = xs.find? p := by
  induction xs with
  | nil => rfl
  | cons x xs ih =>
      by_cases here : p x = true
      · simp [here]
      · have notSelf : x ≠ i := by
          rintro rfl
          obtain ⟨j, member, _⟩ := earlier [] xs rfl
          simp at member
        have rest := ih fun before after split => by
          obtain ⟨j, member, accepted⟩ :=
            earlier (x :: before) after (by rw [split, List.cons_append])
          rcases List.mem_cons.mp member with rfl | member
          · exact absurd accepted here
          · exact ⟨j, member, accepted⟩
        simp [notSelf, here, rest]

/-- Nor does it to refuse a position that was not the one found. -/
theorem find?_and_of_ne {p : Nat → Bool} {xs : List Nat} {i : Nat} (other : xs.find? p ≠ some i) :
    (xs.find? fun j => !decide (j = i) && p j) = xs.find? p := by
  induction xs with
  | nil => rfl
  | cons x xs ih =>
      by_cases here : p x = true
      · have notSelf : x ≠ i := by
          rintro rfl
          simp [here] at other
        simp [here, notSelf]
      · have rest := ih (by simpa [here] using other)
        simp [here, rest]

/-- Of two places on one path, either they agree or one comes first. -/
theorem split_cases {before after before' after' : List Nat} {i j : Nat}
    (same : before ++ i :: after = before' ++ j :: after') :
    i = j ∨ i ∈ before' ∨ j ∈ before := by
  rcases List.append_eq_append_iff.mp same with ⟨mid, rfl, rest⟩ | ⟨mid, rfl, rest⟩
  · cases mid with
    | nil => exact .inl (List.cons.inj rest).1
    | cons m mid =>
        obtain rfl := (List.cons.inj rest).1
        exact .inr (.inl (by simp))
  · cases mid with
    | nil => exact .inl (List.cons.inj rest).1.symm
    | cons m mid =>
        obtain rfl := (List.cons.inj rest).1
        exact .inr (.inr (by simp))

end Probing
