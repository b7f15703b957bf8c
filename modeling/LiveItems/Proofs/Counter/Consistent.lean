import LiveItems.Proofs.Counter.Accounts
set_option autoImplicit false

/-!
# Counters survive misuse

Calls that match nothing make the records of a counter differ from what is held, but not from each
other: whatever has been recorded, there are contents and roots that the counter accounts for. So
each call either goes through, as it would with these, or is refused before anything has changed.
Leaves have no identity, and with them alone a call can take away what was never there.
-/

namespace LiveItems.Counter

def Rootless (c : Counter) : Prop := ∀ a ∈ c.candidates.keys, c.rootCount a = 0

/-- The records fit together: they are those of some contents and some roots, and `n` of the roots
are leaves. -/
structure Consistent (n : Nat) (c : Counter) : Prop where
  recorded : ∃ contents roots, c.Accounts False Set.univ contents roots ∧ leafOccurrences roots = n
  rootless : c.Rootless

variable {n : Nat} {h : Heap} {c c' : Counter}

theorem Rootless.registers {pending : List ItemId} (rootless : c.Rootless)
    (registers : Registers h pending c c') : c'.Rootless := by
  intro a ha
  rw [registers.roots]
  rcases (registers.candidates a).1 ha with known | ⟨-, none, -⟩
  · exact rootless a known
  · exact none

theorem Rootless.links {parent : ItemId} {xs : List Item} {new : List ItemId}
    (rootless : c.Rootless) (links : Links parent xs new c c') : c'.Rootless := by
  intro a ha
  rw [links.roots]
  rcases (links.candidates a).1 ha with known | ⟨-, none, -⟩
  · exact rootless a known
  · exact none

theorem Rootless.sheds {seeds touched : Set ItemId} {gone : Finset ItemId} (rootless : c.Rootless)
    (sheds : Sheds seeds touched gone c c') : c'.Rootless := by
  intro a ha
  rcases (sheds.candidates a).1 ha with ⟨known, stays⟩ | ⟨tracked, none, -⟩
  · rw [sheds.rootCount stays]
    exact rootless a known
  · rw [sheds.rootCount (sheds.mem_ids.1 tracked).2]
    exact none

theorem Rootless.dropRoot (rootless : c.Rootless) (id : ItemId) : (c.dropRoot id).Rootless := by
  intro a ha
  have none := rootless a ha
  rw [rootCount_eq, Counter.dropRoot, entry_setEntry]
  split
  · subst_vars
    simp only [none]
  · rwa [rootCount_eq] at none

theorem Rootless.dropEdge (rootless : c.Rootless) (p id : ItemId) :
    (c.dropEdge p id).Rootless := by
  intro a ha
  have none := rootless a ha
  rw [rootCount_eq, Counter.dropEdge, entry_setEntry]
  rw [rootCount_eq] at none
  split
  · subst_vars
    exact none
  · exact none

theorem Rootless.dropLeaf (rootless : c.Rootless) (p : ItemId) : (c.dropLeaf p).Rootless := by
  intro a ha
  have none := rootless a ha
  change ((c.setEntry p { c.entry p with leaves := c.leafCount p - 1 }).rootCount a) = 0
  rw [rootCount_eq, entry_setEntry]
  rw [rootCount_eq] at none
  split
  · subst_vars
    exact none
  · exact none

theorem Rootless.track (rootless : c.Rootless) (closed : h.Closed) (id : ItemId) :
    (c.track h id).Rootless := by
  obtain ⟨⟨-, same⟩ | ⟨new, registers⟩, -⟩ := track_registers closed c id
  · rwa [same]
  · refine Rootless.registers (fun a ha => ?_) registers
    rw [rootCount_eq, entry_insertEntry new, ← rootCount_eq]
    exact rootless a ha

theorem removeRoot_refused {id : ItemId} (unrooted : c.rootCount id = 0) (kind : ObjectKind) :
    ∃ why, (removeRoot (.object kind id)).apply c = (.error (.invariantViolation why), c) := by
  rw [rootCount] at unrooted
  cases entry : c.get? id with
  | none =>
    refine ⟨.rootOfUntracked id, ?_⟩
    simp only [removeRoot, Item.id?, Action.apply_bind, Action.apply_get, entry,
      Action.apply_violate]
  | some e =>
    have none : e.roots = 0 := by simpa [entry] using unrooted
    refine ⟨.negativeRoots id, ?_⟩
    simp only [removeRoot, Item.id?, Action.apply_bind, Action.apply_get, entry, if_pos none,
      Action.apply_violate]

namespace Consistent

theorem coherent (consistent : c.Consistent n) : Coherent (fun _ => 0) c := by
  obtain ⟨contents, roots, acc, -⟩ := consistent.recorded
  exact acc.coherent

theorem covered (consistent : c.Consistent n) : c.Covered ∅ := by
  obtain ⟨contents, roots, acc, -⟩ := consistent.recorded
  exact acc.mirrors.covered

theorem enlisted (consistent : c.Consistent n) : c.Enlisted := by
  obtain ⟨contents, roots, acc, -⟩ := consistent.recorded
  exact acc.enlisted

theorem count (consistent : c.Consistent n) : c.count = c.weight + n := by
  obtain ⟨contents, roots, acc, rfl⟩ := consistent.recorded
  exact acc.mirrors.count

/-- What nothing holds is waiting for a pass, since no edge leads to it. -/
theorem candidate_of_unheld (consistent : c.Consistent n) {a : ItemId} (tracked : a ∈ c.ids)
    (unrooted : c.rootCount a = 0) (loose : c.referenceCount a = 0) : a ∈ c.candidates.keys := by
  obtain ⟨r, source, path⟩ := consistent.covered a tracked
  rcases Relation.ReflTransGen.cases_tail path with rfl | ⟨p, -, edge⟩
  · rcases source with rooted | candidate | none
    · exact absurd unrooted rooted.ne'
    · exact candidate
    · exact absurd none (Set.notMem_empty _)
  · exact absurd (consistent.coherent.no_flow loose p) edge.ne'

/-- Untracked objects may be taken to hold what is stored in them. -/
theorem stored (consistent : c.Consistent n) (h : Heap) :
    ∃ contents roots, c.Accounts False Set.univ contents roots ∧ leafOccurrences roots = n ∧
      ∀ p, p ∉ c.ids → contents p = h.children p := by
  classical
  obtain ⟨contents, roots, acc, leaves⟩ := consistent.recorded
  refine ⟨fun p => if p ∈ c.ids then contents p else h.children p, roots,
    acc.congr (fun p hp => (if_pos hp).symm) fun _ _ => trivial, leaves, fun p hp => if_neg hp⟩

theorem fresh : Counter.fresh.Consistent 0 :=
  ⟨⟨fun _ => 0, 0, accounts_fresh False Set.univ _, leafOccurrences_zero⟩,
    fun _ ha => absurd ha List.not_mem_nil⟩

theorem resetPeak (consistent : c.Consistent n) : c.resetPeak.Consistent n := by
  obtain ⟨contents, roots, acc, leaves⟩ := consistent.recorded
  exact ⟨⟨contents, roots, acc.resetPeak, leaves⟩, consistent.rootless⟩

theorem inWords (consistent : c.Consistent n) : c.inWords.Consistent n := by
  obtain ⟨contents, roots, ⟨hc, m, within, enlisted⟩, leaves⟩ := consistent.recorded
  exact ⟨⟨contents, roots, ⟨hc.congr rfl rfl,
    ⟨m.flow, m.leaves, m.rooted, m.count, m.covered, m.firm⟩, within, enlisted⟩, leaves⟩,
    consistent.rootless⟩

section Register

variable (consistent : c.Consistent n) (closed : h.Closed)
include consistent closed

theorem addRoots (x : Item) {k : Nat} (hk : k ≠ 0) (exact : (c.addRoots h x k).Unwrapped) :
    (c.addRoots h x k).Consistent (n + if x.id? = none then k else 0) := by
  obtain ⟨contents, roots, acc, leaves, stored⟩ := consistent.stored h
  have grown := acc.addRoots closed stored (fun _ _ _ _ => trivial) (x := x)
    (fun _ _ => trivial) hk exact
  refine ⟨⟨contents, _, grown, ?_⟩, ?_⟩
  · rw [leafOccurrences_add, leafOccurrences_replicate, leaves, Nat.add_comm]
  · cases x with
    | leaf l => exact consistent.rootless
    | object kind id =>
      intro a ha
      obtain ⟨known, ne⟩ := (mem_candidates_dropCandidate _ id a).1 ha
      have none := consistent.rootless.track closed id a known
      have kept : (c.addRoots h (.object kind id) k).get? a = (c.track h id).get? a :=
        (get?_modifyEntry ..).trans (if_neg ne)
      rwa [rootCount, kept]

theorem suspect (x : Item) (exact : (c.suspect h x).Unwrapped) :
    (c.suspect h x).Consistent n := by
  obtain ⟨contents, roots, acc, leaves, stored⟩ := consistent.stored h
  have grown := acc.suspect closed stored (fun _ _ _ _ => trivial) (x := x)
    (fun _ _ => trivial) id exact
  refine ⟨⟨contents, roots, grown, leaves⟩, ?_⟩
  cases x with
  | leaf l => exact consistent.rootless
  | object kind id =>
    have tracked := consistent.rootless.track closed id
    have step : c.suspect h (.object kind id) =
      if (c.track h id).rootCount id = 0 then (c.track h id).addCandidate id
      else c.track h id := rfl
    rw [step]
    split
    · intro a ha
      rcases (mem_candidates_addCandidate _ id a).1 ha with rfl | known
      · assumption
      · exact tracked a known
    · exact tracked

theorem addOccurrence {x : Item} (known : ∀ id, x.id? = some id → id ∈ h.ids) (parent : ItemId)
    (exact : (c.addOccurrence h x parent).Unwrapped) :
    (c.addOccurrence h x parent).Consistent n := by
  by_cases hp : parent ∈ c.ids
  · obtain ⟨contents, roots, acc, leaves, stored⟩ := consistent.stored h
    have grown := acc.addOccurrence closed stored known hp (fun _ _ _ _ => trivial) exact
    obtain ⟨new, d, links, registers, -⟩ := addOccurrence_registers closed hp known
    exact ⟨⟨_, roots, grown, leaves⟩, (consistent.rootless.links links).registers registers⟩
  · rw [addOccurrence_untracked hp]
    exact consistent

end Register

theorem exists_root (consistent : c.Consistent n) {id : ItemId} (rooted : 0 < c.rootCount id) :
    ∃ kind contents roots, c.Accounts False Set.univ contents (.object kind id ::ₘ roots) ∧
      leafOccurrences roots = n := by
  obtain ⟨contents, roots, acc, leaves⟩ := consistent.recorded
  rw [acc.mirrors.rooted] at rooted
  obtain ⟨x, hx, hid⟩ := occurrences_pos.1 rooted
  obtain ⟨rest, rfl⟩ := Multiset.exists_cons_of_mem hx
  cases x with
  | leaf l => exact absurd hid (by simp [Item.id?])
  | object kind a =>
    obtain rfl : a = id := Option.some.inj hid
    rw [leafOccurrences_cons_object] at leaves
    exact ⟨kind, contents, rest, acc, leaves⟩

theorem exists_held (consistent : c.Consistent n) {p id : ItemId} (edge : 0 < c.flow p id) :
    ∃ kind contents roots rest, c.Accounts False Set.univ contents roots ∧
      leafOccurrences roots = n ∧ contents p = .object kind id ::ₘ rest := by
  obtain ⟨contents, roots, acc, leaves⟩ := consistent.recorded
  rw [acc.mirrors.flow p (mem_ids_of_flow edge) (by simp)] at edge
  obtain ⟨x, hx, hid⟩ := occurrences_pos.1 edge
  obtain ⟨rest, held⟩ := Multiset.exists_cons_of_mem hx
  cases x with
  | leaf l => exact absurd hid (by simp [Item.id?])
  | object kind a =>
    obtain rfl : a = id := Option.some.inj hid
    exact ⟨kind, contents, roots, rest, acc, leaves, held⟩

theorem removeRoot_object (consistent : c.Consistent n) (kind : ObjectKind) (id : ItemId) :
    (∃ why, (removeRoot (.object kind id)).apply c = (.error (.invariantViolation why), c)) ∨
      ∃ c', (removeRoot (.object kind id)).apply c = (.ok (), c') ∧ c'.Consistent n := by
  by_cases rooted : 0 < c.rootCount id
  · obtain ⟨kind', contents, roots, acc, leaves⟩ := consistent.exists_root rooted
    obtain ⟨c', run, acc', -⟩ := acc.removeRoot
    obtain ⟨gone, d, run', -, sheds, -⟩ := removeRoot_sheds (k := kind') acc.coherent rooted
    obtain ⟨-, rfl⟩ := Prod.mk.inj (run.symm.trans run')
    exact .inr ⟨c', run, ⟨contents, roots, acc', leaves⟩,
      (consistent.rootless.dropRoot id).sheds sheds⟩
  · exact .inl (removeRoot_refused (Nat.eq_zero_of_not_pos rooted) kind)

/-- A root of a leaf is taken away as long as anything is counted. What is left is consistent when
there was such a root. -/
theorem removeRoot_leaf (consistent : c.Consistent n) (l : Leaf) :
    (∃ why, (removeRoot (.leaf l)).apply c = (.error (.invariantViolation why), c)) ∨
      ∃ c', (removeRoot (.leaf l)).apply c = (.ok (), c') ∧ (0 < n → c'.Consistent (n - 1)) := by
  have unfolded : (removeRoot (.leaf l)).apply c = (decrease 1).apply c := rfl
  rw [unfolded, apply_decrease]
  by_cases empty : c.count < 1
  · rw [if_pos empty]
    exact .inl ⟨_, rfl⟩
  · rw [if_neg empty]
    refine .inr ⟨_, rfl, fun held => ?_⟩
    obtain ⟨contents, roots, acc, leaves⟩ := consistent.recorded
    obtain ⟨x, hx, hid⟩ := Multiset.countP_pos.1 (leaves.symm ▸ held : 0 < leafOccurrences roots)
    obtain ⟨rest, rfl⟩ := Multiset.exists_cons_of_mem hx
    cases x with
    | object kind a => exact absurd hid (by simp [Item.id?])
    | leaf l' =>
      obtain ⟨c', run, acc', -⟩ := acc.removeRoot
      have run' : (removeRoot (.leaf l')).apply c = (.ok (), { c with count := c.count - 1 }) :=
        (apply_decrease c 1).trans (if_neg empty)
      obtain ⟨-, rfl⟩ := Prod.mk.inj (run.symm.trans run')
      rw [leafOccurrences_cons_leaf] at leaves
      exact ⟨⟨contents, rest, acc', by omega⟩, consistent.rootless⟩

theorem removeOccurrence (consistent : c.Consistent n) (x : Item) (p : ItemId) :
    (∃ why, (removeOccurrence x p).apply c = (.error (.invariantViolation why), c)) ∨
      ∃ c', (removeOccurrence x p).apply c = (.ok (), c') ∧ c'.Consistent n := by
  by_cases hp : p ∈ c.ids
  · cases x with
    | leaf l =>
      by_cases held : 0 < c.leafCount p
      · obtain ⟨contents, roots, acc, leaves⟩ := consistent.recorded
        have some_leaf := held
        rw [acc.mirrors.leaves p hp (by simp)] at some_leaf
        obtain ⟨x, hx, hid⟩ := Multiset.countP_pos.1 some_leaf
        obtain ⟨rest, here⟩ := Multiset.exists_cons_of_mem hx
        cases x with
        | object kind a => exact absurd hid (by simp [Item.id?])
        | leaf l' =>
          obtain ⟨c', run, acc', -⟩ := acc.removeOccurrence hp here
          have run' := removeOccurrence_leaf (l := l') acc.coherent held
          obtain ⟨-, rfl⟩ := Prod.mk.inj (run.symm.trans run')
          exact .inr ⟨_, run, ⟨_, roots, acc', leaves⟩, consistent.rootless.dropLeaf p⟩
      · have none : (c.entry p).leaves = 0 := Nat.eq_zero_of_not_pos held
        refine .inl ⟨.valueNotHeld p, ?_⟩
        simp only [Counter.removeOccurrence, Action.apply_bind, Action.apply_get, get?_of_mem hp,
          Item.id?, if_pos none, Action.apply_violate]
    | object kind id =>
      by_cases edge : 0 < c.flow p id
      · obtain ⟨kind', contents, roots, rest, acc, leaves, held⟩ := consistent.exists_held edge
        obtain ⟨c', run, acc', -⟩ := acc.removeOccurrence hp held
        obtain ⟨gone, d, run', -, sheds⟩ := removeOccurrence_sheds (k := kind') acc.coherent edge
        obtain ⟨-, rfl⟩ := Prod.mk.inj (run.symm.trans run')
        exact .inr ⟨c', run, ⟨_, roots, acc', leaves⟩,
          (consistent.rootless.dropEdge p id).sheds sheds⟩
      · rw [flow_eq] at edge
        have none : (c.entry p).edges.multiplicity id = 0 := Nat.eq_zero_of_not_pos edge
        refine .inl ⟨.negativeEdge p id, ?_⟩
        simp only [Counter.removeOccurrence, Action.apply_bind, Action.apply_get, get?_of_mem hp,
          Item.id?, if_pos none, Action.apply_violate]
  · exact .inr ⟨c, removeOccurrence_untracked hp, consistent⟩

theorem sweep (consistent : c.Consistent n) :
    ∃ c' collected, Pass.sweep.apply { counter := c } = (.ok (), { counter := c', collected }) ∧
      c'.Consistent n := by
  obtain ⟨contents, roots, acc, leaves⟩ := consistent.recorded
  obtain ⟨c', collected, run, acc', swept⟩ := acc.sweep
  exact ⟨c', collected, run, ⟨contents, roots, acc', leaves⟩,
    fun a ha => absurd ha (Pass.isEmpty_iff.1 swept.candidates a)⟩

end Consistent

end LiveItems.Counter
