import Mathlib

/-!
# Words of a list

The maximal stretches of a list without a separator, leaving out empty ones. A separator
between two lists keeps their words apart, so the words can be read off from the front:
pass the separators, take everything up to the next one, and go on.
-/

namespace Words

variable {α : Type*} {p : α → Bool}

/-- The stretches between separators that are not empty. -/
def words (p : α → Bool) (l : List α) : List (List α) :=
  (l.splitOnP p).filter fun w => !w.isEmpty

@[simp] theorem words_nil : words p [] = [] := rfl

/-- A separator keeps words apart. -/
theorem words_append_cons (l r : List α) {sep : α} (separates : p sep = true) :
    words p (l ++ sep :: r) = words p l ++ words p r := by
  rw [words, List.splitOnP_append_cons l r separates, List.filter_append]
  rfl

theorem words_cons (r : List α) {sep : α} (separates : p sep = true) :
    words p (sep :: r) = words p r :=
  words_append_cons [] r separates

/-- A separator at the end makes no difference. -/
theorem words_concat (l : List α) {sep : α} (separates : p sep = true) :
    words p (l ++ [sep]) = words p l := by
  rw [words_append_cons l [] separates, words_nil, List.append_nil]

theorem words_singleton {w : List α} (nonempty : w ≠ []) (word : ∀ x ∈ w, p x = false) :
    words p w = [w] := by
  rw [words, List.splitOnP_eq_singleton word]
  simp [nonempty]

/-- Separators in front are passed. -/
theorem words_dropWhile (l : List α) : words p (l.dropWhile p) = words p l := by
  induction l with
  | nil => rfl
  | cons x l ih =>
      cases separates : p x with
      | true => rw [List.dropWhile_cons_of_pos separates, ih, words_cons l separates]
      | false => rw [List.dropWhile_cons_of_neg (by simp [separates])]

theorem of_dropWhile_eq_cons {q : α → Bool} {l r : List α} {x : α}
    (stopped : l.dropWhile q = x :: r) : q x = false := by
  have first := List.head_dropWhile_not q (by rw [stopped]; exact List.cons_ne_nil x r)
  simpa [stopped] using first

/-- The first word, and where it ends. -/
theorem words_eq_cons {l : List α} (more : l.dropWhile p ≠ []) :
    words p l = (l.dropWhile p).takeWhile (fun x => !p x) ::
      words p ((l.dropWhile p).dropWhile fun x => !p x) := by
  obtain ⟨x, r, front⟩ := List.exists_cons_of_ne_nil more
  have first : p x = false := of_dropWhile_eq_cons front
  have whole := List.takeWhile_append_dropWhile (p := fun x => !p x) (l := l.dropWhile p)
  rw [← words_dropWhile l]
  generalize word : (l.dropWhile p).takeWhile (fun x => !p x) = w at whole
  have inside : ∀ y ∈ w, p y = false := by
    intro y member
    rw [← word] at member
    simpa using List.mem_takeWhile_imp member
  have nonempty : w ≠ [] := by
    rw [← word, front, List.takeWhile_cons_of_pos (by simp [first])]
    exact List.cons_ne_nil _ _
  cases after : (l.dropWhile p).dropWhile (fun x => !p x) with
  | nil =>
      rw [after, List.append_nil] at whole
      rw [← whole, words_nil, words_singleton nonempty inside]
  | cons sep rest =>
      have separates : p sep = true := by simpa using of_dropWhile_eq_cons after
      rw [after] at whole
      rw [← whole, words_append_cons w rest separates, words_cons rest separates,
        words_singleton nonempty inside, List.singleton_append]

/-- A list without words is one of separators. -/
theorem words_eq_nil_iff (l : List α) : words p l = [] ↔ l.dropWhile p = [] := by
  constructor
  · intro none_
    by_contra more
    rw [words_eq_cons more] at none_
    cases none_
  · intro passed
    rw [← words_dropWhile, passed, words_nil]

end Words
