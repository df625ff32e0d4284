import Mathlib
import SolBroker.Hash.Exact

/-!
# The tables of the broker

The broker keeps its clients and its closures in hash tables and uses them through
four calls. It is modelled over any type with these calls, so that a statement about
the broker can be made for the hash table it has, or for an exact finite map in the
table's place.
-/

namespace SolBroker

/-- The calls on `sol.clients` and `sol.closures`. A put may fail to return, whatever
the fuel; a deletion also tells which entry its destructor is called on. -/
class KeyTable (T : Type → Type) where
  create {V : Type} : T V
  put {V : Type} (fuel : Nat) (table : T V) (key : CString) (val : V) : Except Fault (Int × T V)
  get {V : Type} (table : T V) (key : CString) : Option V
  del {V : Type} (table : T V) (key : CString) : Int × T V × Option (CString × V)

namespace KeyTable

def contains {T : Type → Type} [KeyTable T] {V : Type} (table : T V) (key : CString) : Bool :=
  (get table key).isSome

end KeyTable

/-- The hash table, with every allocation succeeding. -/
instance : KeyTable HashTable where
  create := hashtableCreate
  put fuel table key val := do
    let (status, table, _) ← hashtablePut fuel table key val []
    return (status, table)
  get := hashtableGet
  del := hashtableDel

/-- A put of the broker is a put that returns. -/
theorem putReturns_of_keyTable {V : Type} {fuel : Nat} {table table' : HashTable V}
    {key : CString} {val : V}
    {status : Int} (put : KeyTable.put fuel table key val = .ok (status, table')) :
    PutReturns table key val table' := by
  obtain ⟨⟨status, t, allocs⟩, run, done⟩ := bind_eq_ok.mp put
  cases done
  obtain ⟨_, rfl, _⟩ := hashtablePut_rule (R := fun _ _ _ => True) (fun _ _ => trivial)
    (fun _ _ _ => trivial) run
  exact ⟨fuel, _, run⟩

/-- An exact finite map, which always returns. -/
instance : KeyTable KeyMap where
  create := ∅
  put _ table key val := .ok (hashtableOk, table.insert key val)
  get table key := table.lookup key
  del table key :=
    match table.lookup key with
    | some val => (hashtableOk, table.erase key, some (key, val))
    | none => (-hashtableErr, table, none)

end SolBroker
