import Mathlib

/-!
# Lists as loops go through them

A property of every element of a list together with the elements in front of it, as a
loop over the list meets them. It is taken apart from the back, which is how a fold is.
What a loop makes of each element is found again for any of them.
-/

namespace List

variable {α β γ ε : Type*} {P Q : List α → α → Prop} {l : List α} {x : α}

/-- Every element has `P` with the elements before it. -/
def Along (P : List α → α → Prop) (l : List α) : Prop :=
  ∀ before x after, l = before ++ x :: after → P before x

@[simp] theorem along_nil : Along P [] := by
  intro before x after split
  simp at split

theorem along_snoc : Along P (l ++ [x]) ↔ Along P l ∧ P l x := by
  constructor
  · intro each
    refine ⟨fun before y after split => ?_, each l x [] rfl⟩
    apply each before y (after ++ [x])
    rw [split, append_assoc, cons_append]
  · rintro ⟨each, last⟩ before y after split
    obtain rfl | ⟨after', z, rfl⟩ := eq_nil_or_concat after
    · obtain ⟨rfl, same⟩ := append_inj' split rfl
      cases same
      exact last
    · rw [concat_eq_append, ← cons_append, ← append_assoc] at split
      obtain ⟨split, same⟩ := append_inj' split rfl
      exact each before y after' split

theorem Forall₂.exists_of_mem {R : α → β → Prop} {l' : List β} (each : Forall₂ R l l')
    (member : x ∈ l) : ∃ y ∈ l', R x y := by
  induction each with
  | nil => cases member
  | cons first _ ih =>
      obtain rfl | later := mem_cons.mp member
      · exact ⟨_, mem_cons_self .., first⟩
      · obtain ⟨y, member, related⟩ := ih later
        exact ⟨y, mem_cons_of_mem _ member, related⟩

/-- Every round of a fold that returns has returned. -/
theorem foldlM_ok_of_mem {f : β → α → Except ε β} {b b' : β} (run : l.foldlM f b = .ok b')
    (member : x ∈ l) : ∃ mid mid', f mid x = .ok mid' := by
  induction l generalizing b with
  | nil => cases member
  | cons y l ih =>
      rw [foldlM_cons] at run
      cases first : f b y with
      | error e =>
          rw [first] at run
          cases run
      | ok mid =>
          rw [first] at run
          obtain rfl | later := mem_cons.mp member
          · exact ⟨b, mid, first⟩
          · exact ih run later

/-- A loop over a list returns what each round is to return. -/
theorem mapM_eq_ok_map_iff {f : α → Except ε β} {g : α → β} :
    l.mapM f = .ok (l.map g) ↔ ∀ x ∈ l, f x = .ok (g x) := by
  induction l with
  | nil => exact iff_of_true rfl fun _ member => nomatch member
  | cons y l ih =>
      rw [mapM_cons, forall_mem_cons, ← ih]
      cases f y with
      | error e => exact ⟨nofun, fun both => nomatch both.1⟩
      | ok b =>
          cases l.mapM f with
          | error e => exact ⟨nofun, fun both => nomatch both.2⟩
          | ok bs =>
              show Except.ok (b :: bs) = .ok (g y :: l.map g) ↔ _
              simp

/-- The last round of a fold. -/
theorem foldlM_snoc_eq_ok {f : β → α → Except ε β} {b b' : β} :
    (l ++ [x]).foldlM f b = .ok b' ↔ ∃ mid, l.foldlM f b = .ok mid ∧ f mid x = .ok b' := by
  rw [foldlM_append]
  cases l.foldlM f b with
  | error e => exact ⟨nofun, nofun⟩
  | ok mid =>
      show [x].foldlM f mid = .ok b' ↔ _
      have single : [x].foldlM f mid = f mid x := by
        rw [foldlM_cons]
        cases f mid x <;> rfl
      rw [single]
      constructor
      · intro last
        exact ⟨mid, rfl, last⟩
      · rintro ⟨mid', same, last⟩
        cases same
        exact last

/-- A loop whose rounds return for what they accept, whatever came before, returns exactly if
it is given nothing else. -/
theorem exists_foldlM_eq_ok_iff {f : β → α → Except ε β} {accepts : α → Prop}
    (round : ∀ b x, (∃ b', f b x = .ok b') ↔ accepts x) (b : β) :
    (∃ b', l.foldlM f b = .ok b') ↔ ∀ x ∈ l, accepts x := by
  induction l using reverseRecOn with
  | nil => exact iff_of_true ⟨b, rfl⟩ fun _ member => nomatch member
  | append_singleton l x ih =>
      rw [forall_mem_append, forall_mem_singleton, ← ih]
      constructor
      · rintro ⟨b', run⟩
        obtain ⟨mid, before, last⟩ := foldlM_snoc_eq_ok.mp run
        exact ⟨⟨mid, before⟩, (round mid x).mp ⟨b', last⟩⟩
      · rintro ⟨⟨mid, before⟩, accepted⟩
        obtain ⟨b', last⟩ := (round mid x).mpr accepted
        exact ⟨b', foldlM_snoc_eq_ok.mpr ⟨mid, before, last⟩⟩

/-- What a loop leaves in a cell is what the last round put there that wrote it. -/
theorem foldlM_lastWrite {f : β → α → Except ε β} {cell : β → γ} (wrote : α → Option γ)
    (round : ∀ {b x b'}, f b x = .ok b' → cell b' = (wrote x).getD (cell b)) {b b' : β}
    (run : l.foldlM f b = .ok b') :
    cell b' = (l.filterMap wrote).getLast?.getD (cell b) := by
  induction l using reverseRecOn generalizing b' with
  | nil =>
      cases run
      rfl
  | append_singleton l x ih =>
      obtain ⟨mid, before, last⟩ := foldlM_snoc_eq_ok.mp run
      rw [round last, ih before, filterMap_append]
      cases written : wrote x <;> simp [written]

/-- What a loop takes out that stops at the first hit, and what it leaves. -/
theorem perm_find?_eraseP (p : α → Bool) (l : List α) :
    l.Perm ((l.find? p).toList ++ l.eraseP p) := by
  induction l with
  | nil => exact Perm.refl _
  | cons x l ih =>
      cases hit : p x with
      | true =>
          rw [find?_cons_of_pos hit, eraseP_cons_of_pos hit]
          exact Perm.refl _
      | false =>
          have miss : ¬ p x = true := by simp [hit]
          rw [find?_cons_of_neg miss, eraseP_cons_of_neg miss]
          exact (ih.cons x).trans perm_middle.symm

end List
