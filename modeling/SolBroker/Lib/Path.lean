import Mathlib
import SolBroker.Lib.Heap

/-!
# Paths through a heap

The objects of a singly linked structure are followed from pointer to pointer. A path
names the addresses on the way, so it is kept by every change of the heap that leaves the
pointers in these objects as they are. A path that ends in NULL is determined by where it
starts, and so never comes back to an address.
-/

namespace Heap

variable {α : Type*}

/-- The addresses on the way from one pointer to another. -/
def Path (next : α → Option Nat) (h : Heap α) : Option Nat → List Nat → Option Nat → Prop
  | start, [], stop => start = stop
  | start, p :: ps, stop => start = some p ∧ ∃ a, h.get? p = some a ∧ Path next h (next a) ps stop

variable {next : α → Option Nat} {h h' : Heap α} {start stop : Option Nat} {p : Nat}
  {ps qs : List Nat} {a : α}

theorem path_nil : Path next h start [] stop ↔ start = stop := Iff.rfl

theorem path_cons :
    Path next h start (p :: ps) stop ↔
      start = some p ∧ ∃ a, h.get? p = some a ∧ Path next h (next a) ps stop :=
  Iff.rfl

theorem path_append :
    Path next h start (ps ++ qs) stop ↔
      ∃ mid, Path next h start ps mid ∧ Path next h mid qs stop := by
  induction ps generalizing start with
  | nil => simp [path_nil]
  | cons p ps ih =>
      rw [List.cons_append, path_cons]
      simp only [ih, path_cons]
      constructor
      · rintro ⟨here, a, live, mid, first, rest⟩
        exact ⟨mid, ⟨here, a, live, first⟩, rest⟩
      · rintro ⟨mid, ⟨here, a, live, first⟩, rest⟩
        exact ⟨here, a, live, mid, first, rest⟩

theorem Path.live (path : Path next h start ps stop) (member : p ∈ ps) :
    ∃ a, h.get? p = some a := by
  induction ps generalizing start with
  | nil => cases member
  | cons q ps ih =>
      obtain ⟨_, a, live, rest⟩ := path
      obtain rfl | later := List.mem_cons.mp member
      · exact ⟨a, live⟩
      · exact ih rest later

/-- A path does not see what is off it. -/
theorem Path.frame (path : Path next h start ps stop)
    (same : ∀ p ∈ ps, h'.get? p = h.get? p) : Path next h' start ps stop := by
  induction ps generalizing start with
  | nil => exact path
  | cons q ps ih =>
      obtain ⟨here, a, live, rest⟩ := path
      refine ⟨here, a, (same q (List.mem_cons_self ..)).trans live, ih rest fun p member => ?_⟩
      exact same p (List.mem_cons_of_mem _ member)

theorem Path.write (path : Path next h start ps stop) {b : α} (live : h.get? p = some b)
    (off : p ∉ ps) : Path next (h.write p a) start ps stop := by
  apply path.frame
  intro q member
  rw [get?_write live, if_neg]
  rintro rfl
  exact off member

theorem Path.free (path : Path next h start ps stop) (off : p ∉ ps) :
    Path next (h.free p) start ps stop := by
  apply path.frame
  intro q member
  rw [get?_free, if_neg]
  rintro rfl
  exact off member

/-- A new object is off every path. -/
theorem Path.alloc (path : Path next h start ps stop) :
    Path next (h.alloc a) start ps stop := by
  apply path.frame
  intro q member
  obtain ⟨b, live⟩ := path.live member
  rw [get?_alloc_of_live live, live]

theorem Path.unique (path : Path next h start ps none) (other : Path next h start qs none) :
    ps = qs := by
  induction ps generalizing start qs with
  | nil =>
      cases qs with
      | nil => rfl
      | cons q qs => cases path.symm.trans other.1
  | cons p ps ih =>
      obtain ⟨here, a, live, rest⟩ := path
      cases qs with
      | nil => cases here.symm.trans other
      | cons q qs =>
          obtain ⟨here', a', live', rest'⟩ := other
          obtain rfl : p = q := Option.some.inj (here.symm.trans here')
          obtain rfl : a = a' := Option.some.inj (live.symm.trans live')
          rw [ih rest rest']

/-- A path to NULL does not come back to an address. -/
theorem Path.nodup (path : Path next h start ps none) : ps.Nodup := by
  induction ps generalizing start with
  | nil => exact .nil
  | cons p ps ih =>
      obtain ⟨_, a, live, rest⟩ := path
      refine List.nodup_cons.mpr ⟨fun again => ?_, ih rest⟩
      obtain ⟨early, late, split⟩ := List.append_of_mem again
      have whole : Path next h (some p) (p :: ps) none := ⟨rfl, a, live, rest⟩
      rw [split] at rest
      obtain ⟨mid, _, back⟩ := path_append.mp rest
      obtain rfl : mid = some p := back.1
      -- the way on from the second visit would be as long as that from the first
      have same := congrArg List.length (whole.unique back)
      rw [split] at same
      simp at same
      omega

/-- There are no more objects than addresses that have been handed out. -/
theorem length_le_next (distinct : ps.Nodup) (live : ∀ p ∈ ps, ∃ a, h.get? p = some a) :
    ps.length ≤ h.next := by
  have inside : ps ⊆ List.range h.next := by
    intro p member
    obtain ⟨a, live⟩ := live p member
    exact List.mem_range.mpr (lt_next live)
  simpa using (List.subperm_of_subset distinct inside).length_le

theorem Path.length_le (path : Path next h start ps none) : ps.length ≤ h.next :=
  length_le_next path.nodup fun _ => path.live

/-- A new object is linked behind one of a path, in place of what follows it. -/
theorem Path.relink (path : Path next h start (ps ++ p :: qs) none) {b c : α}
    (live : h.get? p = some a) (linked : next b = some h.next) (last : next c = none) :
    Path next ((h.alloc c).write p b) start (ps ++ [p] ++ [h.next]) none := by
  have live' : (h.alloc c).get? p = some a := get?_alloc_of_live live
  have off : p ∉ ps := fun member =>
    (List.nodup_append.mp path.nodup).2.2 p member p (List.mem_cons_self ..) rfl
  have there : ((h.alloc c).write p b).get? p = some b := by
    rw [get?_write live', if_pos rfl]
  have fresh : ((h.alloc c).write p b).get? h.next = some c := by
    rw [get?_write live', if_neg (lt_next live).ne', get?_alloc, if_pos rfl]
  obtain ⟨mid, early, rfl, _⟩ := path_append.mp path
  rw [List.append_assoc]
  exact path_append.mpr ⟨some p, early.alloc.write live' off, rfl, b, there, linked, c, fresh, last⟩

/-- A new object is linked behind the last one. -/
theorem Path.link (path : Path next h start (ps ++ [p]) none) {b c : α}
    (live : h.get? p = some a) (linked : next b = some h.next) (last : next c = none) :
    Path next ((h.alloc c).write p b) start (ps ++ [p] ++ [h.next]) none :=
  path.relink live linked last

/-- A path is cut in two behind an object whose pointer becomes NULL. -/
theorem Path.cut (path : Path next h start (ps ++ p :: qs) none) {b : α}
    (live : h.get? p = some a) (ends : next b = none) :
    Path next (h.write p b) start (ps ++ [p]) none ∧
      Path next (h.write p b) (next a) qs none := by
  have distinct := List.nodup_middle.mp path.nodup
  have off := (List.nodup_cons.mp distinct).1
  obtain ⟨mid, early, rfl, a', live', late⟩ := path_append.mp path
  obtain rfl : a' = a := Option.some.inj (live'.symm.trans live)
  have there : (h.write p b).get? p = some b := by
    rw [get?_write live, if_pos rfl]
  constructor
  · apply path_append.mpr
    exact ⟨some p, early.write live fun member => off (List.mem_append_left _ member), rfl, b,
      there, ends⟩
  · exact late.write live fun member => off (List.mem_append_right _ member)

/-- Writing what is there already changes nothing. -/
theorem write_self (live : h.get? p = some a) : h.write p a = h := by
  have held : h.cells[p]? = some (some a) := Option.join_eq_some_iff.mp live
  obtain ⟨cells⟩ := h
  refine congrArg Heap.mk (List.ext_getElem? fun q => ?_)
  by_cases same : q = p
  · rw [same, List.getElem?_set_self (lt_next live), held]
  · rw [List.getElem?_set_ne (Ne.symm same)]

/-! ## The addresses in use -/

/-- The addresses of the objects that are allocated. -/
def addresses (h : Heap α) : List Nat := (List.range h.next).filter fun p => (h.get? p).isSome

theorem mem_addresses : p ∈ h.addresses ↔ ∃ a, h.get? p = some a := by
  rw [addresses, List.mem_filter, List.mem_range, Option.isSome_iff_exists]
  exact and_iff_right_of_imp fun ⟨_, live⟩ => lt_next live

theorem nodup_addresses : h.addresses.Nodup := List.nodup_range.filter _

theorem addresses_alloc : (h.alloc a).addresses.Perm (h.next :: h.addresses) := by
  have fresh : h.next ∉ h.addresses := by
    rw [mem_addresses, get?_next]
    rintro ⟨_, live⟩
    cases live
  apply (List.perm_ext_iff_of_nodup nodup_addresses
    (List.nodup_cons.mpr ⟨fresh, nodup_addresses⟩)).mpr
  intro q
  rw [List.mem_cons, mem_addresses, mem_addresses, get?_alloc]
  by_cases new : q = h.next
  · simp [new]
  · simp [new]

theorem addresses_write {b : α} (live : h.get? p = some b) :
    (h.write p a).addresses.Perm h.addresses := by
  apply (List.perm_ext_iff_of_nodup nodup_addresses nodup_addresses).mpr
  intro q
  rw [mem_addresses, mem_addresses, get?_write live]
  by_cases here : q = p
  · simp [here, live]
  · simp [here]

theorem addresses_free (live : h.get? p = some a) :
    h.addresses.Perm (p :: (h.free p).addresses) := by
  have gone : p ∉ (h.free p).addresses := by
    rw [mem_addresses, get?_free, if_pos rfl]
    rintro ⟨_, live⟩
    cases live
  apply (List.perm_ext_iff_of_nodup nodup_addresses
    (List.nodup_cons.mpr ⟨gone, nodup_addresses⟩)).mpr
  intro q
  rw [List.mem_cons, mem_addresses, mem_addresses, get?_free]
  by_cases here : q = p
  · simp [here, live]
  · simp [here]

end Heap
