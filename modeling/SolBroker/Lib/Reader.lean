import Mathlib

/-!
# Readers over a finite buffer

A reader consumes tokens from the front of a buffer or fails; running off the
end is the failure given to `next` and `take`. What a reader leaves is always a
suffix of what it was given (`Sequential`), so the tokens it read are exactly the
ones in front of that suffix, and a composite reader is sequential because its
parts are.
-/

namespace Reading

variable {ε τ α β : Type}

abbrev Reader (ε τ : Type) := StateT (List τ) (Except ε)

theorem bind_ok {x : Reader ε τ α} {f : α → Reader ε τ β} {buf rest : List τ} {a : α}
    (h : x buf = .ok (a, rest)) : (x >>= f) buf = f a rest := by
  change (x buf >>= fun r => f r.1 r.2) = _
  rw [h]
  rfl

theorem bind_error {x : Reader ε τ α} {f : α → Reader ε τ β} {buf : List τ} {e : ε}
    (h : x buf = .error e) : (x >>= f) buf = .error e := by
  change (x buf >>= fun r => f r.1 r.2) = _
  rw [h]
  rfl

theorem bind_eq_ok_iff {x : Reader ε τ α} {f : α → Reader ε τ β} {buf : List τ}
    {result : β × List τ} :
    (x >>= f) buf = .ok result ↔
      ∃ a rest, x buf = .ok (a, rest) ∧ f a rest = .ok result := by
  constructor
  · intro h
    cases hx : x buf with
    | error e => simp [bind_error hx] at h
    | ok r => exact ⟨r.1, r.2, rfl, by rwa [bind_ok hx] at h⟩
  · rintro ⟨a, rest, hx, hf⟩
    rwa [bind_ok hx]

theorem pure_apply (a : α) (buf : List τ) : (pure a : Reader ε τ α) buf = .ok (a, buf) :=
  rfl

/-- Read one token. -/
def next (e : ε) : Reader ε τ τ
  | [] => .error e
  | t :: rest => .ok (t, rest)

/-- Read `n` tokens. -/
def take (e : ε) (n : Nat) : Reader ε τ (List τ) := fun buf =>
  if n ≤ buf.length then .ok (buf.take n, buf.drop n) else .error e

theorem take_append (e : ε) (own rest : List τ) :
    take e own.length (own ++ rest) = .ok (own, rest) := by
  rw [take, if_pos (by simp)]
  simp

theorem next_eq_ok_iff {e : ε} {buf rest : List τ} {t : τ} :
    next e buf = .ok (t, rest) ↔ buf = t :: rest := by
  cases buf <;> simp [next]

theorem take_eq_ok_iff {e : ε} {n : Nat} {buf own rest : List τ} :
    take e n buf = .ok (own, rest) ↔ own.length = n ∧ buf = own ++ rest := by
  constructor
  · intro run
    rw [take] at run
    split at run
    · rename_i enough
      cases run
      exact ⟨List.length_take_of_le enough, (List.take_append_drop n buf).symm⟩
    · cases run
  · rintro ⟨rfl, rfl⟩
    exact take_append e own rest

/-- What is left is a suffix of what was there. -/
def Sequential (x : Reader ε τ α) : Prop :=
  ∀ ⦃buf a rest⦄, x buf = .ok (a, rest) → rest <:+ buf

namespace Sequential

theorem pure (a : α) : Sequential (ε := ε) (τ := τ) (Pure.pure a) := by
  intro buf b rest h
  cases h
  exact List.suffix_refl _

theorem next (e : ε) : Sequential (Reading.next (τ := τ) e) := by
  intro buf t rest h
  cases buf with
  | nil => cases h
  | cons u tail =>
      cases h
      exact List.suffix_cons _ _

theorem take (e : ε) (n : Nat) : Sequential (Reading.take (τ := τ) e n) := by
  intro buf own rest h
  unfold Reading.take at h
  split at h
  · cases h
    exact List.drop_suffix _ _
  · cases h

theorem bind {x : Reader ε τ α} {f : α → Reader ε τ β} (first : Sequential x)
    (second : ∀ a, Sequential (f a)) : Sequential (x >>= f) := by
  intro buf b rest h
  obtain ⟨a, middle, hx, hf⟩ := bind_eq_ok_iff.mp h
  exact (second a hf).trans (first hx)

theorem length_le {x : Reader ε τ α} (h : Sequential x) {buf rest : List τ} {a : α}
    (run : x buf = .ok (a, rest)) : rest.length ≤ buf.length :=
  (h run).length_le

end Sequential

/-- A reader that begins with a token leaves strictly less than it was given. -/
theorem length_lt_of_next {e : ε} {f : τ → Reader ε τ β} (tail : ∀ t, Sequential (f t))
    {buf rest : List τ} {b : β} (run : (next e >>= f) buf = .ok (b, rest)) :
    rest.length < buf.length := by
  obtain ⟨t, middle, first, second⟩ := bind_eq_ok_iff.mp run
  have shorter := (tail t).length_le second
  cases buf with
  | nil => cases first
  | cons u tokens =>
      cases first
      simpa using Nat.lt_succ_of_le shorter

end Reading
