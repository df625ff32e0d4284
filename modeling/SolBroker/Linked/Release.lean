import Mathlib
import SolBroker.Lib.Along
import SolBroker.Linked.RemoveNode
import SolBroker.Linked.Tail

/-!
# The memory of a list

`list_release` frees as many nodes as `len` says. It leaves nothing of a list behind, and
nothing else is freed with it, as long as `head` and `len` belong together. Over the whole
life of a list that is so unless a value is pushed behind a `tail` that is no longer the last
node, or `list_remove_node` is to take out the first one. What it takes out it hands to its
caller, whom the node belongs to from then on. Lists are without a destructor, as all that
the program creates.
-/

namespace SolBroker

namespace LinkedList

open Heap Transition

variable {δ : Type}

/-- The loop of `list_release`, with the data that it frees along with the nodes. -/
def releaseLoop (deep : Bool) :
    Nat → Heap (ListNode δ) → Option Nat → Except Fault (List δ × Heap (ListNode δ))
  | 0, nodes, _ => .ok ([], nodes)
  | len + 1, nodes, h => do
      let (p, node) ← derefObj nodes h
      let (freed, nodes) ← releaseLoop deep len (nodes.free p) node.next
      return (if deep then node.data :: freed else freed, nodes)

/-- `list_release`. -/
def release (l : LinkedList δ) (deep : Bool) : Except Fault (List δ × Heap (ListNode δ)) :=
  releaseLoop deep l.len l.nodes l.head

/-- The calls in the life of a list. -/
inductive LifeOp (δ : Type)
  | call (op : ListOp δ)
  | removeNode (cmp : CompareFunc δ)

/-- A call that returns, on a list and the nodes that have been handed out. -/
def LifeOp.Calls (s : LinkedList δ × List Nat) (op : LifeOp δ) (s' : LinkedList δ × List Nat) :
    Prop :=
  match op with
  | call op => op.Calls s.1 s'.1 ∧ s'.2 = s.2
  | removeNode cmp => ∃ found, s.1.removeNode cmp = .ok (found, s'.1) ∧ s'.2 = s.2 ++ found.toList

/-- Releasing the list would free its nodes, each once and with its data if that is asked for,
and would leave what was allocated before the list and what has been handed out. -/
def Releases (base : Heap (ListNode δ)) (s : LinkedList δ × List Nat) : Prop :=
  ∃ ps, s.1.Reaches ps ∧ s.1.len = ps.length ∧
    ∀ deep, ∃ nodes, s.1.release deep = .ok (if deep then ps.filterMap s.1.dataAt else [], nodes) ∧
      nodes.addresses.Perm (base.addresses ++ s.2)

/-- What is pushed at the back goes behind the last node, and what is taken out is not the
first. -/
def Orderly (l : LinkedList δ) : LifeOp δ → Prop
  | .call (.pushBack _) => ∀ ps, l.Reaches ps → ps ≠ [] → l.tail = ps.getLast?
  | .removeNode cmp => ∀ ps p, l.Reaches ps → ps.head? = some p → Hit cmp l.nodes p = false
  | .call (.push _) | .call (.remove _) | .call .clear => True

/-! ## Releasing -/

section Loop

variable {nodes : Heap (ListNode δ)} {start : Option Nat} {ps : List Nat}

/-- As many nodes as there are on the way are freed. -/
theorem releaseLoop_ok (deep : Bool) (path : Path ListNode.next nodes start ps none) :
    ∃ nodes', releaseLoop deep ps.length nodes start =
        .ok (if deep then ps.filterMap fun q => (nodes.get? q).map ListNode.data else [], nodes') ∧
      nodes.addresses.Perm (ps ++ nodes'.addresses) := by
  induction ps generalizing nodes start with
  | nil => exact ⟨nodes, by cases deep <;> rfl, List.Perm.refl _⟩
  | cons p ps ih =>
      have off := (List.nodup_cons.mp path.nodup).1
      obtain ⟨rfl, node, live, rest⟩ := path
      obtain ⟨nodes', ran, perm⟩ := ih (rest.free off)
      refine ⟨nodes', ?_, (addresses_free live).trans (perm.cons p)⟩
      have same : (ps.filterMap fun q => ((nodes.free p).get? q).map ListNode.data) =
          ps.filterMap fun q => (nodes.get? q).map ListNode.data := by
        apply List.filterMap_congr
        intro q member
        rw [get?_free, if_neg]
        rintro rfl
        exact off member
      rw [List.length_cons, releaseLoop, derefObj, deref, live]
      change (releaseLoop deep ps.length (nodes.free p) node.next >>= _) = _
      rw [ran, same, List.filterMap_cons, live]
      cases deep <;> rfl

/-- The loop of `list_clear` frees the nodes alone. -/
theorem clearLoop_eq (len : Nat) (nodes : Heap (ListNode δ)) (start : Option Nat) :
    clearLoop len nodes start = (releaseLoop false len nodes start).map Prod.snd := by
  induction len generalizing nodes start with
  | zero => rfl
  | succ len ih =>
      rw [clearLoop, releaseLoop]
      cases derefObj nodes start with
      | error e => rfl
      | ok found =>
          change clearLoop len (nodes.free found.1) found.2.next = _
          rw [ih]
          change _ = (releaseLoop false len (nodes.free found.1) found.2.next >>= _).map Prod.snd
          cases releaseLoop false len (nodes.free found.1) found.2.next <;> rfl

end Loop

section Accounts

variable {base : Heap (ListNode δ)} {l l' : LinkedList δ} {ps taken taken' : List Nat}

/-- The addresses in use are those before the list, those of its nodes and those handed out. -/
structure Accounts (base : Heap (ListNode δ)) (l : LinkedList δ) (taken ps : List Nat) : Prop where
  reaches : l.Reaches ps
  len : l.len = ps.length
  addresses : l.nodes.addresses.Perm (base.addresses ++ (ps ++ taken))

/-- The list can be released exactly if the addresses are accounted for. -/
theorem releases_iff : Releases base (l, taken) ↔ ∃ ps, Accounts base l taken ps := by
  apply exists_congr
  intro ps
  constructor
  · rintro ⟨reaches, len, releases⟩
    obtain ⟨nodes, ran, left⟩ := releases false
    obtain ⟨nodes', ran', perm⟩ := releaseLoop_ok false reaches
    rw [← len] at ran'
    cases ran.symm.trans ran'
    refine ⟨reaches, len, perm.trans ((left.append_left ps).trans ?_)⟩
    exact List.perm_append_comm_assoc ..
  · rintro ⟨reaches, len, perm⟩
    refine ⟨reaches, len, fun deep => ?_⟩
    obtain ⟨nodes', ran, freed⟩ := releaseLoop_ok deep reaches
    rw [← len] at ran
    refine ⟨nodes', ran, (List.perm_append_left_iff ps).mp (freed.symm.trans (perm.trans ?_))⟩
    exact List.perm_append_comm_assoc ..

/-! ## What a call does to the accounts -/

/-- A new node. -/
theorem Accounts.alloc (accounts : Accounts base l taken ps) {nodes : Heap (ListNode δ)}
    (allocated : nodes.addresses.Perm (l.nodes.next :: l.nodes.addresses)) {qs : List Nat}
    (added : qs.Perm (l.nodes.next :: ps)) :
    nodes.addresses.Perm (base.addresses ++ (qs ++ taken)) := by
  refine allocated.trans (((accounts.addresses.cons _).trans ?_).trans
    ((added.symm.append_right taken).append_left _))
  exact List.perm_middle.symm

theorem Accounts.push (accounts : Accounts base l taken ps) (val : δ) :
    Accounts base (l.push val) taken (l.nodes.next :: ps) := by
  obtain ⟨becomes, _, _⟩ := push_becomes accounts.reaches accounts.len val
  refine ⟨becomes.reaches, becomes.len, accounts.alloc ?_ (List.Perm.refl _)⟩
  unfold LinkedList.push
  split <;> exact addresses_alloc

/-- What `list_push_back` allocates and writes. -/
theorem addresses_pushBack {val : δ} (pushed : l.pushBack val = .ok l') :
    l'.nodes.addresses.Perm (l.nodes.next :: l.nodes.addresses) := by
  unfold pushBack at pushed
  split at pushed
  · cases pushed
    exact addresses_alloc
  · obtain ⟨⟨tail, node⟩, found, stored⟩ := bind_eq_ok.mp pushed
    cases stored
    exact (addresses_write (derefObj_eq_ok.mp found).2).trans addresses_alloc

theorem Accounts.clear (accounts : Accounts base l taken ps) (cleared : l.clear = .ok l') :
    Accounts base l' taken [] := by
  obtain ⟨_, cleared', becomes⟩ := clear_becomes accounts.reaches accounts.len
  cases cleared.symm.trans cleared'
  refine ⟨becomes.reaches, becomes.len, ?_⟩
  unfold LinkedList.clear at cleared
  split at cleared
  · rename_i empty
    obtain rfl : ps = [] := accounts.reaches.unique (empty ▸ path_nil.mpr rfl)
    cases cleared
    exact accounts.addresses
  · obtain ⟨nodes, ran, made⟩ := bind_eq_ok.mp cleared
    cases made
    obtain ⟨nodes', ran', freed⟩ := releaseLoop_ok false accounts.reaches
    rw [clearLoop_eq, accounts.len, ran'] at ran
    cases ran
    refine (List.perm_append_left_iff ps).mp (freed.symm.trans (accounts.addresses.trans ?_))
    exact List.perm_append_comm_assoc ..

/-- `list_node_remove` frees the node that it links past. -/
theorem nodeRemove_addresses {cmp : CompareFunc δ} {nodes : Heap (ListNode δ)}
    {start : Option Nat} (path : Path ListNode.next nodes start ps none) {fuel : Nat}
    (enough : ps.length ≤ fuel) {result : Option Nat × Nat × Heap (ListNode δ)}
    (ran : nodeRemove cmp fuel nodes start = .ok result) :
    nodes.addresses.Perm ((ps.find? (Hit cmp nodes)).toList ++ result.2.2.addresses) := by
  induction ps generalizing start fuel result with
  | nil =>
      obtain rfl : start = none := path
      cases fuel <;> (cases ran; exact List.Perm.refl _)
  | cons p ps ih =>
      have off := (List.nodup_cons.mp path.nodup).1
      obtain ⟨rfl, node, live, rest⟩ := path
      obtain ⟨fuel, rfl⟩ := Nat.exists_eq_succ_of_ne_zero (by simp at enough; omega : fuel ≠ 0)
      have enough : ps.length ≤ fuel := by simpa using enough
      rw [nodeRemove, deref_eq_ok.mpr live] at ran
      change (if cmp p node = 0 then _ else _) = _ at ran
      by_cases equal : cmp p node = 0
      · rw [if_pos equal] at ran
        cases ran
        rw [List.find?_cons_of_pos ((hit_iff live).mpr equal)]
        exact addresses_free live
      · rw [if_neg equal] at ran
        obtain ⟨later, ran', same⟩ := bind_eq_ok.mp ran
        obtain ⟨_, ran'', removed⟩ := @nodeRemove_removed δ cmp nodes _ ps rest fuel enough
        cases ran'.symm.trans ran''
        cases same
        rw [List.find?_cons_of_neg (mt (hit_iff live).mp equal)]
        have live' := (removed.frame p off).trans live
        refine (ih rest enough ran').trans (List.Perm.append_left _ ?_)
        exact (addresses_write live').symm

theorem Accounts.remove (accounts : Accounts base l taken ps) {cmp : CompareFunc δ}
    (removed : l.remove cmp = .ok l') :
    Accounts base l' taken (ps.eraseP (Hit cmp l.nodes)) := by
  obtain ⟨_, removed', becomes, _⟩ := remove_becomes accounts.reaches accounts.len cmp
  cases removed.symm.trans removed'
  refine ⟨becomes.reaches, becomes.len, ?_⟩
  obtain ⟨result, ran, same⟩ := bind_eq_ok.mp removed
  cases same
  have freed := nodeRemove_addresses accounts.reaches accounts.reaches.length_le ran
  apply (List.perm_append_left_iff (ps.find? (Hit cmp l.nodes)).toList).mp
  refine freed.symm.trans (accounts.addresses.trans ?_)
  have split := List.perm_find?_eraseP (Hit cmp l.nodes) ps
  refine ((split.append_right taken).append_left base.addresses).trans ?_
  rw [List.append_assoc]
  exact List.perm_append_comm_assoc ..

/-- A value that is pushed at the back is found again exactly if `tail` is right. -/
theorem Accounts.pushBack_iff (accounts : Accounts base l taken ps) {val : δ}
    (pushed : l.pushBack val = .ok l') :
    (∃ qs, Accounts base l' taken qs) ↔ (ps ≠ [] → l.tail = ps.getLast?) := by
  have allocated := addresses_pushBack pushed
  constructor
  · rintro ⟨qs, there⟩ nonempty
    have positive : l.len ≠ 0 := by
      rw [accounts.len]
      exact mt List.length_eq_zero_iff.mp nonempty
    rw [LinkedList.pushBack, if_neg positive] at pushed
    obtain ⟨⟨t, node⟩, found, stored⟩ := bind_eq_ok.mp pushed
    obtain ⟨(tail : l.tail = some t), (live : (l.nodes.alloc _).get? t = some node)⟩ :=
      derefObj_eq_ok.mp found
    cases stored
    by_cases member : t ∈ ps
    · obtain ⟨before, after, rfl⟩ := List.append_of_mem member
      obtain ⟨node', live'⟩ := accounts.reaches.live member
      obtain rfl : node = node' := Option.some.inj (live.symm.trans (get?_alloc_of_live live'))
      have path : Path ListNode.next ((l.nodes.alloc ⟨val, none⟩).write t
          { node with next := some l.nodes.next }) l.head (before ++ [t] ++ [l.nodes.next]) none :=
        accounts.reaches.relink live' rfl rfl
      obtain rfl := there.reaches.unique path
      have counted := there.len
      have len := accounts.len
      simp only [List.length_append, List.length_cons, List.length_nil] at counted len
      obtain rfl : after = [] := List.length_eq_zero_iff.mp (by omega)
      rw [tail, List.getLast?_concat]
    · -- the node pushed on is not reached
      have path : Path ListNode.next ((l.nodes.alloc ⟨val, none⟩).write t
          { node with next := some l.nodes.next }) l.head ps none :=
        accounts.reaches.alloc.write live member
      obtain rfl := there.reaches.unique path
      have counted := there.len
      have len := accounts.len
      simp only at counted
      omega
  · intro last
    obtain ⟨_, pushed', becomes, _, _⟩ := pushBack_becomes accounts.reaches accounts.len last val
    cases pushed.symm.trans pushed'
    exact ⟨_, becomes.reaches, becomes.len,
      accounts.alloc allocated (List.perm_append_singleton ..)⟩

/-- The nodes with data are those that are allocated. -/
theorem addresses_of_dataAt (same : ∀ q, l'.dataAt q = l.dataAt q) :
    l'.nodes.addresses.Perm l.nodes.addresses := by
  have live (l : LinkedList δ) (q : Nat) : q ∈ l.nodes.addresses ↔ (l.dataAt q).isSome := by
    rw [mem_addresses, dataAt, Option.isSome_map, Option.isSome_iff_exists]
  apply (List.perm_ext_iff_of_nodup nodup_addresses nodup_addresses).mpr
  intro q
  rw [live, live, same]

/-- What is taken out changes hands exactly if it is not the first node. -/
theorem Accounts.removeNode_iff (accounts : Accounts base l taken ps) {cmp : CompareFunc δ}
    {found : Option Nat} (removed : l.removeNode cmp = .ok (found, l')) :
    (∃ qs, Accounts base l' (taken ++ found.toList) qs) ↔
      ∀ p, ps.head? = some p → Hit cmp l.nodes p = false := by
  cases first : ps.find? (Hit cmp l.nodes) with
  | none =>
      have misses (q : Nat) (member : q ∈ ps) : Hit cmp l.nodes q = false := by
        simpa using List.find?_eq_none.mp first q member
      cases removed.symm.trans (removeNode_miss accounts.reaches misses)
      refine iff_of_true ⟨ps, ?_⟩ fun p head => misses p (List.mem_of_head? head)
      rw [Option.toList_none, List.append_nil]
      exact accounts
  | some p =>
      obtain ⟨hit, before, after, rfl, early⟩ := List.find?_eq_some_iff_append.mp first
      have misses (q : Nat) (member : q ∈ before) : Hit cmp l.nodes q = false := by
        simpa using early q member
      obtain ⟨_, removed', len, data, left⟩ :=
        removeNode_hit accounts.reaches accounts.len misses hit
      cases removed.symm.trans removed'
      have same := addresses_of_dataAt data
      cases before with
      | nil =>
          -- the node would be both in the list and handed out
          refine iff_of_false ?_ fun miss => absurd hit (by simp [miss p rfl])
          rintro ⟨qs, there⟩
          obtain rfl := there.reaches.unique left
          have distinct := there.addresses.nodup_iff.mp nodup_addresses
          have apart := (List.nodup_append.mp (List.nodup_append.mp distinct).2.1).2.2
          exact apart p (List.mem_singleton_self p) p (by simp) rfl
      | cons b before =>
          refine iff_of_true ⟨b :: before ++ after, left, len, ?_⟩ fun q head => ?_
          · refine same.trans (accounts.addresses.trans (List.Perm.append_left _ ?_))
            rw [Option.toList_some, ← List.append_assoc]
            refine (List.perm_middle.append_right taken).trans ?_
            exact (List.perm_append_singleton ..).symm
          · obtain rfl : b = q := Option.some.inj head
            exact misses b (List.mem_cons_self ..)

end Accounts

/-- A call keeps the addresses accounted for exactly if it is orderly. -/
theorem releases_calls_iff {base : Heap (ListNode δ)} {s s' : LinkedList δ × List Nat}
    {op : LifeOp δ} (here : Releases base s) (called : LifeOp.Calls s op s') :
    Releases base s' ↔ Orderly s.1 op := by
  obtain ⟨l, taken⟩ := s
  obtain ⟨l', taken'⟩ := s'
  obtain ⟨ps, accounts⟩ := releases_iff.mp here
  rw [releases_iff]
  cases op with
  | call op =>
      obtain ⟨called, same⟩ := called
      have same : taken' = taken := same
      rw [same]
      cases op with
      | push val =>
          cases called
          exact iff_of_true ⟨_, accounts.push val⟩ trivial
      | pushBack val =>
          refine (accounts.pushBack_iff called).trans ⟨fun last qs reaches => ?_, fun last =>
            last ps accounts.reaches⟩
          rw [reaches.unique accounts.reaches]
          exact last
      | remove cmp => exact iff_of_true ⟨_, accounts.remove called⟩ trivial
      | clear => exact iff_of_true ⟨_, accounts.clear called⟩ trivial
  | removeNode cmp =>
      obtain ⟨found, called, same⟩ := called
      have same : taken' = taken ++ found.toList := same
      rw [same, accounts.removeNode_iff called]
      refine ⟨fun miss qs p reaches => ?_, fun miss p => miss ps p accounts.reaches⟩
      rw [reaches.unique accounts.reaches]
      exact miss p

/-- In a run of calls on a new list, releasing the list would at any moment free its nodes,
each once, and leave what was allocated before it and what has been handed out, exactly if
nothing is pushed behind a `tail` that is not the last node and the first node is never the
one to be taken out. -/
theorem releases_throughout_iff {base : Heap (ListNode δ)}
    {tr : List ((LinkedList δ × List Nat) × LifeOp δ)} {s : LinkedList δ × List Nat}
    (run : Run LifeOp.Calls (create base, []) tr s) :
    ((∀ visit ∈ tr, Releases base visit.1) ∧ Releases base s) ↔
      ∀ visit ∈ tr, Orderly visit.1.1 visit.2 := by
  refine @Run.invariant_iff _ _ _ _ (fun _ => True) (Releases base) (fun s => Orderly s.1) trivial
    (fun _ _ _ _ _ => trivial) ?_ ?_ _ _ run
  · refine releases_iff.mpr ⟨[], rfl, rfl, ?_⟩
    rw [List.append_nil, List.append_nil]
    exact List.Perm.refl _
  · intro s op s' _ here called
    exact releases_calls_iff here called

/-- Of two values pushed at the back the second is taken out, and a third is pushed. -/
theorem releases_oneTwo :
    ∃ tr s, Run LifeOp.Calls (create (δ := Nat) {}, []) tr s ∧
      tr.map Prod.snd = [.call (.pushBack 1), .call (.pushBack 2), .removeNode (compareTo 2),
        .call (.push 3)] ∧
      Releases {} s := by
  let start : LinkedList Nat := create {}
  let one : LinkedList Nat := ⟨⟨[some ⟨1, none⟩]⟩, some 0, some 0, 1⟩
  let rest : LinkedList Nat := ⟨⟨[some ⟨1, none⟩, some ⟨2, none⟩]⟩, some 0, some 1, 1⟩
  let final : LinkedList Nat :=
    ⟨⟨[some ⟨1, none⟩, some ⟨2, none⟩, some ⟨3, some 0⟩]⟩, some 2, some 1, 2⟩
  have first : LifeOp.Calls (start, []) (.call (.pushBack 1)) (one, []) := ⟨rfl, rfl⟩
  have second : LifeOp.Calls (one, []) (.call (.pushBack 2)) (oneTwo, []) := ⟨rfl, rfl⟩
  have third : LifeOp.Calls (oneTwo, []) (.removeNode (compareTo 2)) (rest, [1]) :=
    ⟨some 1, rfl, rfl⟩
  have fourth : LifeOp.Calls (rest, [1]) (.call (.push 3)) (final, [1]) := ⟨rfl, rfl⟩
  have run := (((Run.nil.snoc first).snoc second).snoc third).snoc fourth
  refine ⟨_, (final, [1]), run, rfl, ((releases_throughout_iff run).mpr ?_).2⟩
  intro visit member
  simp only [List.nil_append, List.cons_append, List.mem_cons, List.not_mem_nil, or_false]
    at member
  obtain rfl | rfl | rfl | rfl := member
  · intro ps reaches nonempty
    have there : start.Reaches [] := rfl
    exact absurd (reaches.unique there) nonempty
  · intro ps reaches _
    have there : one.Reaches [0] := ⟨rfl, _, rfl, rfl⟩
    obtain rfl := reaches.unique there
    rfl
  · intro ps p reaches head
    obtain rfl := reaches.unique reaches_oneTwo
    obtain rfl : 0 = p := Option.some.inj head
    decide
  · trivial

end LinkedList

end SolBroker
