import LiveItems.Proofs.Unobserved
set_option autoImplicit false

namespace LiveItems.Counter

/-- The counter `c'` has come from `c` by a root for the object `id`, which had no entry, and by
further items in `id`. -/
structure Admits (id : ItemId) (c c' : Counter) : Prop where
  subset : c.ids ⊆ c'.ids
  entered : id ∈ c'.ids
  grows : ∀ p a, c.flow p a ≤ c'.flow p a
  roots : ∀ a, c'.rootCount a = c.rootCount a + if a = id then 1 else 0
  references : ∀ a, c.referenceCount a ≤ c'.referenceCount a
  count : c.count ≤ c'.count
  highest : ∀ n, c'.count ≤ n → max c'.highest n = max c.highest n
  stats : c'.stats = c.stats
  small : c'.sums = .small
  candidates : ∀ a, a ∈ c'.candidates.keys ↔ a ≠ id ∧ (a ∈ c.candidates.keys ∨
    (c.referenceCount a = 0 ∧ c.rootCount a = 0 ∧ 0 < c'.referenceCount a))
  least : ∀ S : Set ItemId, (∀ a ∈ c.ids, a ∈ S) → id ∈ S →
    (∀ p ∈ S, ∀ a, 0 < c'.flow p a → a ∈ S) → ∀ a ∈ c'.ids, a ∈ S

variable {h : Heap} {c c' d : Counter} {id : ItemId} {x : Item}

theorem flow_insertEntry (new : id ∉ c.ids) (p a : ItemId) :
    (c.insertEntry id).flow p a = c.flow p a := by
  rw [flow_eq, entry_insertEntry new, ← flow_eq]

theorem referenceCount_insertEntry (new : id ∉ c.ids) (a : ItemId) :
    (c.insertEntry id).referenceCount a = c.referenceCount a := by
  rw [referenceCount_eq, entry_insertEntry new, ← referenceCount_eq]

theorem rootCount_insertEntry (new : id ∉ c.ids) (a : ItemId) :
    (c.insertEntry id).rootCount a = c.rootCount a := by
  rw [rootCount_eq, entry_insertEntry new, ← rootCount_eq]

theorem ids_addRoot (h : Heap) (c : Counter) (k : ObjectKind) (id : ItemId) :
    (c.addRoots h (.object k id) 1).ids = (c.track h id).ids := ids_modifyEntry _ _ _

theorem addRoot_eq (h : Heap) (c : Counter) (k : ObjectKind) (id : ItemId) :
    c.addRoots h (.object k id) 1 = ((c.track h id).gainRoots id 1).dropCandidate id := rfl

section

variable (tracked : id ∈ (c.track h id).ids) (small : c.sums = .small) (k : ObjectKind)
include tracked small

theorem entry_addRoot (a : ItemId) : (c.addRoots h (.object k id) 1).entry a =
    { (c.track h id).entry a with
      roots := ((c.track h id).entry a).roots + if a = id then 1 else 0 } := by
  have grows := (grows_track h id c).trans (grows_gainRoots _ id 1)
  rw [addRoot_eq, entry_dropCandidate, entry_gainRoots tracked (grows.unwrapped_of_small small)]

theorem flow_addRoot (p a : ItemId) :
    (c.addRoots h (.object k id) 1).flow p a = (c.track h id).flow p a := by
  rw [flow_eq, entry_addRoot tracked small, ← flow_eq]

theorem referenceCount_addRoot (a : ItemId) :
    (c.addRoots h (.object k id) 1).referenceCount a = (c.track h id).referenceCount a := by
  rw [referenceCount_eq, entry_addRoot tracked small, ← referenceCount_eq]

theorem rootCount_addRoot (a : ItemId) : (c.addRoots h (.object k id) 1).rootCount a =
    (c.track h id).rootCount a + if a = id then 1 else 0 := by
  rw [rootCount_eq, entry_addRoot tracked small, ← rootCount_eq]

end

theorem mem_candidates_addRoot (h : Heap) (c : Counter) (k : ObjectKind) (id a : ItemId) :
    a ∈ (c.addRoots h (.object k id) 1).candidates.keys ↔
      a ≠ id ∧ a ∈ (c.track h id).candidates.keys := by
  rw [addRoot_eq, mem_candidates_dropCandidate, and_comm]
  rfl

/-- A root for an object without an entry reads all that is stored below it. -/
theorem Admits.root (closed : h.Closed) (small : c.sums = .small) (new : id ∉ c.ids)
    (k : ObjectKind) : Admits id c (c.addRoots h (.object k id) 1) := by
  obtain ⟨⟨old, -⟩ | ⟨-, registers⟩, -⟩ := track_registers closed c id
  · exact absurd old new
  have inserted : (c.insertEntry id).ids ⊆ (c.track h id).ids := registers.subset
  rw [ids_insertEntry] at inserted
  have tracked : id ∈ (c.track h id).ids := inserted (Finset.mem_insert_self id _)
  have exact : (c.track h id).Unwrapped := (grows_track h id c).unwrapped_of_small small
  have one : (c.insertEntry id).count = c.count + 1 :=
    count_increase ((grows_insertEntry c id).unwrapped_of_small small)
  have counted : c.count + 1 ≤ (c.track h id).count := one ▸ registers.count exact
  exact {
    subset := by
      rw [ids_addRoot]
      exact (Finset.subset_insert _ _).trans inserted
    entered := by rwa [ids_addRoot]
    grows := fun p a => by
      rw [flow_addRoot tracked small, ← flow_insertEntry new]
      exact registers.grows p a
    roots := fun a => by
      rw [rootCount_addRoot tracked small, registers.roots, rootCount_insertEntry new]
    references := fun a => by
      rw [referenceCount_addRoot tracked small, ← referenceCount_insertEntry new]
      exact registers.references a
    count := Nat.le_of_succ_le counted
    highest := fun n hn => by
      change (c.track h id).count ≤ n at hn
      have through : max (c.track h id).highest n = max (max c.highest (c.count + 1)) n := by
        rw [registers.highest exact n hn, ← one]
        rfl
      change max (c.track h id).highest n = _
      omega
    stats := registers.stats
    small := (grows_addRoots h (.object k id) 1 c).small small
    candidates := fun a => by
      rw [mem_candidates_addRoot, registers.candidates, referenceCount_addRoot tracked small,
        referenceCount_insertEntry new, rootCount_insertEntry new]
      rfl
    least := fun S old hid leads a ha => by
      rw [ids_addRoot] at ha
      by_cases was : a ∈ (c.insertEntry id).ids
      · rw [ids_insertEntry] at was
        rcases Finset.mem_insert.1 was with rfl | was
        · exact hid
        · exact old a was
      · refine registers.least S (fun b hb => (List.mem_singleton.1 hb).symm ▸ hid)
          (fun p hp b edge => leads p hp b ?_) a ha was
        rwa [flow_addRoot tracked small] }

/-- What comes to be referenced by three steps is known as a candidate already or comes to be
referenced by one of them. -/
theorem newly_referenced {known : Prop} {first linked more last roots : Nat}
    (grown : first ≤ linked) (grown' : linked + more ≤ last) :
    ((known ∨ first = 0 ∧ roots = 0 ∧ 0 < linked) ∨ linked = 0 ∧ roots = 0 ∧ 0 < more) ∨
        linked + more = 0 ∧ roots = 0 ∧ 0 < last ↔
      known ∨ first = 0 ∧ roots = 0 ∧ 0 < last := by
  by_cases hk : known
  · simp only [hk, true_or]
  · simp only [hk, false_or]
    omega

theorem Admits.occurrence (admits : Admits id c d) (closed : h.Closed)
    (stored : ∀ a, x.id? = some a → a ∈ h.ids) : Admits id c (d.addOccurrence h x id) := by
  obtain ⟨new, e, links, registers, -⟩ := addOccurrence_registers closed admits.entered stored
  have small := (grows_addOccurrence h x id d).small admits.small
  have exact := unwrapped_of_small small
  have exact' := registers.unwrapped exact
  have grows : ∀ p a, d.flow p a ≤ (d.addOccurrence h x id).flow p a := by
    intro p a
    have := links.flow_eq p a
    have := registers.grows p a
    omega
  have references : ∀ a, d.referenceCount a + occurrences a ([x] : List Item) ≤
      (d.addOccurrence h x id).referenceCount a :=
    fun a => links.references a ▸ registers.references a
  have counted : d.count ≤ e.count := by
    rw [links.count exact', Nat.add_assoc]
    exact Nat.le_add_right _ _
  exact {
    subset := admits.subset.trans (links.subset.trans registers.subset)
    entered := registers.subset (links.subset admits.entered)
    grows := fun p a => (admits.grows p a).trans (grows p a)
    roots := fun a => by rw [registers.roots, links.roots, admits.roots]
    references := fun a =>
      (admits.references a).trans ((Nat.le_add_right _ _).trans (references a))
    count := admits.count.trans (counted.trans (registers.count exact))
    highest := fun n hn => by
      have linked : e.count ≤ n := (registers.count exact).trans hn
      rw [registers.highest exact n hn, links.highest exact' n linked,
        admits.highest n (counted.trans linked)]
    stats := by rw [registers.stats, links.stats, admits.stats]
    small := small
    candidates := fun a => by
      rw [registers.candidates, links.candidates, links.references, links.roots,
        admits.candidates, admits.roots]
      by_cases same : a = id
      · -- the object itself has a root, so it is no candidate
        simp [same]
      · simp only [ne_eq, same, not_false_iff, true_and, if_false, Nat.add_zero]
        exact newly_referenced (admits.references a) (references a)
    least := fun S old hid leads a ha => by
      have inside : ∀ b ∈ d.ids, b ∈ S := admits.least S old hid fun p hp b edge =>
        leads p hp b (Nat.lt_of_lt_of_le edge (grows p b))
      have come : ∀ b ∈ new, b ∈ S := by
        intro b hb
        refine leads id hid b (Nat.lt_of_lt_of_le ?_ (registers.grows id b))
        rw [links.flow]
        exact Nat.add_pos_right _ ((links.fresh b).1 hb).2
      by_cases was : a ∈ e.ids
      · rw [links.mem_ids] at was
        exact was.elim (inside a) (come a)
      · exact registers.least S come leads a ha was }

theorem Admits.occurrences (closed : h.Closed) (xs : List Item) : ∀ {d : Counter}, Admits id c d →
    (∀ x ∈ xs, ∀ a, x.id? = some a → a ∈ h.ids) →
    Admits id c (xs.foldl (fun d x => d.addOccurrence h x id) d) := by
  induction xs with
  | nil => exact fun admits _ => admits
  | cons x xs ih =>
    intro d admits stored
    exact ih (admits.occurrence closed (stored x List.mem_cons_self)) fun y hy =>
      stored y (List.mem_cons_of_mem x hy)

section Same

variable {strict : Prop} {S : Set ItemId} {held : Multiset Item} (admits : Admits id c d)
  (admits' : Admits id c c') (acc : Accounts strict S (fun p => h.children p) held d)
  (acc' : Accounts strict S (fun p => h.children p) held c')
include admits acc' acc admits'

/-- What the one counter tracks the other one tracks as well, since that leads nowhere else. -/
theorem Admits.ids_subset : d.ids ⊆ c'.ids := by
  refine admits.least {a | a ∈ c'.ids} admits'.subset admits'.entered fun p hp a edge => ?_
  exact acc'.mem_of_stores hp (acc.flow_pos_iff.1 edge).2

/-- Two counters that have come from the same one and account for the same have recorded the
same. -/
theorem Admits.same : d.SameRecords c' ∧ c'.peak = d.peak ∧ c'.stats = d.stats ∧
    ∀ a, a ∈ c'.candidates.keys ↔ a ∈ d.candidates.keys := by
  have ids : c'.ids = d.ids := Finset.Subset.antisymm (admits'.ids_subset admits acc' acc)
    (admits.ids_subset admits' acc acc')
  have records := acc.sameRecords acc' ids fun _ _ => rfl
  refine ⟨records, ?_, by rw [admits'.stats, admits.stats], fun a => ?_⟩
  · rw [peak, peak, admits'.highest _ le_rfl, admits.highest _ le_rfl, records.count]
  · rw [admits'.candidates, admits.candidates, records.references]

end Same

end LiveItems.Counter
