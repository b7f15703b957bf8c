import LiveItems.Proofs.Counter.Collection
set_option autoImplicit false

namespace LiveItems.Counter

/-- The counter records `contents` and `roots`; the objects in `pending` have not been read, and
those in `extra` may be waiting for a root or for a release. A strict counter keeps no object
without roots and references. -/
structure Mirrors (strict : Prop) (extra : Set ItemId) (pending : List ItemId)
    (contents : ItemId → Multiset Item) (roots : Multiset Item) (c : Counter) : Prop where
  flow : ∀ p ∈ c.ids, p ∉ pending → ∀ a, c.flow p a = occurrences a (contents p)
  leaves : ∀ p ∈ c.ids, p ∉ pending → c.leafCount p = leafOccurrences (contents p)
  rooted : ∀ a, c.rootCount a = occurrences a roots
  count : c.count = c.weight + leafOccurrences roots
  covered : c.Covered extra
  firm : strict → ∀ a ∈ c.ids, a ∉ extra → c.rootCount a = 0 → 0 < c.referenceCount a

section Steps

variable {strict : Prop} {extra : Set ItemId} {pending : List ItemId}
  {contents : ItemId → Multiset Item} {roots : Multiset Item} {c c' : Counter}

theorem weight_insertEntry {id : ItemId} (new : id ∉ c.ids) :
    (c.insertEntry id).weight = c.weight + 1 := by
  have subset : c.ids ⊆ (c.insertEntry id).ids := by
    rw [ids_insertEntry]
    exact Finset.subset_insert _ _
  rw [weight_eq_sum (Finset.Subset.refl _), weight_eq_sum subset, ids_insertEntry,
    Finset.card_insert_of_notMem new]
  simp only [leafCount, entry_insertEntry new]
  omega

theorem Mirrors.insertEntry (h : Mirrors strict ∅ [] contents roots c) {id : ItemId}
    (new : id ∉ c.ids) (exact : (c.insertEntry id).Unwrapped) :
    Mirrors strict {id} [id] contents roots (c.insertEntry id) := by
  have same := entry_insertEntry new
  have old : ∀ p ∈ (c.insertEntry id).ids, p ≠ id → p ∈ c.ids := by
    intro p hp ne
    rw [ids_insertEntry] at hp
    exact (Finset.mem_insert.1 hp).resolve_left ne
  refine ⟨fun p hp hw a => ?_, fun p hp hw => ?_, fun a => ?_, ?_, ?_, fun hs a ha ne => ?_⟩
  · rw [flow_eq, same, ← flow_eq]
    exact h.flow p (old p hp (by simpa using hw)) (by simp) a
  · rw [leafCount, same]
    exact h.leaves p (old p hp (by simpa using hw)) (by simp)
  · rw [rootCount_eq, same, ← rootCount_eq]
    exact h.rooted a
  · have := h.count
    have := weight_insertEntry new
    have counted : (c.insertEntry id).count = c.count + 1 := count_insertEntry exact
    omega
  · have := h.covered.insertEntry new
    rwa [insert_empty_eq] at this
  · rw [rootCount_eq, referenceCount_eq, same, ← rootCount_eq, ← referenceCount_eq]
    exact h.firm hs a (old a ha ne) (Set.notMem_empty a)

theorem Mirrors.registers {hp : Heap} (h : Mirrors strict extra pending contents roots c)
    (registers : Registers hp pending c c') (exact : c'.Unwrapped)
    (tracked : ∀ p ∈ pending, p ∈ c.ids)
    (stored : ∀ p, p ∉ c.ids ∨ p ∈ pending → contents p = hp.children p) :
    Mirrors strict extra [] contents roots c' := by
  have cases : ∀ p, (p ∈ c.ids ∧ p ∉ pending) ∨ (p ∉ c.ids ∨ p ∈ pending) := by
    intro p
    tauto
  refine ⟨fun p hp _ a => ?_, fun p hp _ => ?_, fun a => ?_, ?_,
    h.covered.registers registers tracked, fun hs a ha ne h0 => ?_⟩
  · rcases cases p with ⟨old, read⟩ | new
    · rw [flow_agrees (registers.others p old read)]
      exact h.flow p old read a
    · rw [registers.flow p hp new, stored p new]
  · rcases cases p with ⟨old, read⟩ | new
    · rw [leafCount_agrees (registers.others p old read)]
      exact h.leaves p old read
    · rw [registers.leaves p hp new, stored p new]
  · rw [registers.roots]
    exact h.rooted a
  · have := h.count
    have := registers.weight exact
    omega
  · by_cases old : a ∈ c.ids
    · rw [registers.roots] at h0
      exact Nat.lt_of_lt_of_le (h.firm hs a old ne h0) (registers.references a)
    · exact registers.held a ha old

theorem Mirrors.link {parent : ItemId} {x : Item} {new : List ItemId}
    (h : Mirrors strict extra [] contents roots c) (links : Links parent [x] new c c')
    (hp : parent ∈ c.ids) (exact : c'.Unwrapped) :
    Mirrors strict extra new (Function.update contents parent (x ::ₘ contents parent)) roots
      c' := by
  have old : ∀ p ∈ c'.ids, p ∉ new → p ∈ c.ids := by
    intro p hp hn
    rw [links.mem_ids] at hp
    exact hp.resolve_right hn
  refine ⟨fun p hp hn a => ?_, fun p hp hn => ?_, fun a => ?_, ?_, h.covered.link links hp,
    fun hs a ha ne h0 => ?_⟩
  · rw [links.flow_eq, h.flow p (old p hp hn) (by simp), Function.update_apply]
    split
    · subst_vars
      rw [← Multiset.singleton_add, occurrences_add, Nat.add_comm]
      rfl
    · rfl
  · rw [links.leafCount_eq, h.leaves p (old p hp hn) (by simp), Function.update_apply]
    split
    · subst_vars
      rw [← Multiset.singleton_add, leafOccurrences_add, Nat.add_comm]
      rfl
    · rfl
  · rw [links.roots]
    exact h.rooted a
  · have := h.count
    have := links.count exact
    have := links.weight hp
    omega
  · rw [links.references]
    by_cases known : a ∈ c.ids
    · rw [links.roots] at h0
      have := h.firm hs a known ne h0
      omega
    · rw [links.mem_ids] at ha
      have := ((links.fresh a).1 (ha.resolve_left known)).2
      omega

theorem Mirrors.sheds {seeds touched : Set ItemId} {gone : Finset ItemId}
    (h : Mirrors strict extra [] contents roots c) (sheds : Sheds seeds touched gone c c')
    (mem : ∀ a ∈ extra, a ∈ touched)
    (held : ∀ a ∈ extra, a ∈ c'.ids → c'.rootCount a = 0 → c'.referenceCount a ≠ 0) :
    Mirrors strict ∅ [] contents roots c' := by
  refine ⟨fun p hp _ a => ?_, fun p hp _ => ?_, fun a => ?_, ?_, h.covered.sheds sheds mem,
    fun hs a ha _ h0 => ?_⟩
  · obtain ⟨hi, stays⟩ := sheds.mem_ids.1 hp
    rw [sheds.flow stays]
    exact h.flow p hi (by simp) a
  · obtain ⟨hi, stays⟩ := sheds.mem_ids.1 hp
    rw [leafCount_agrees (sheds.entries p stays)]
    exact h.leaves p hi (by simp)
  · rw [← h.rooted]
    by_cases ha : a ∈ gone
    · have out : a ∉ c'.ids := fun hi => (sheds.mem_ids.1 hi).2 ha
      rw [sheds.rootless a ha, rootCount_eq, entry_of_not_mem out]
    · exact sheds.rootCount ha
  · have := h.count
    have := sheds.count
    have := sheds.weight
    omega
  · refine Nat.pos_of_ne_zero fun loose => ?_
    by_cases he : a ∈ extra
    · exact held a he ha h0 loose
    · obtain ⟨hi, stays⟩ := sheds.mem_ids.1 ha
      have := h.firm hs a hi he (by rwa [← sheds.rootCount stays])
      have := sheds.held a ha h0 loose
      omega

theorem Mirrors.dropRoot {k : ObjectKind} {id : ItemId}
    (h : Mirrors strict ∅ [] contents (.object k id ::ₘ roots) c) :
    Mirrors strict {id} [] contents roots (c.dropRoot id) := by
  have rooted := h.rooted id
  rw [occurrences_cons_object, if_pos rfl] at rooted
  have hid : id ∈ c.ids := mem_ids_of_roots (by omega)
  have ids : (c.dropRoot id).ids = c.ids := by
    rw [Counter.dropRoot, ids_setEntry, Finset.insert_eq_of_mem hid]
  have entry : ∀ a, (c.dropRoot id).entry a =
      { c.entry a with roots := if a = id then c.rootCount id - 1 else (c.entry a).roots } := by
    intro a
    rw [Counter.dropRoot, entry_setEntry]
    split <;> subst_vars <;> rfl
  refine ⟨fun p hp _ a => ?_, fun p hp _ => ?_, fun a => ?_, ?_, h.covered.dropRoot hid,
    fun hs a ha ne h0 => ?_⟩
  · rw [flow_eq, entry, ← flow_eq]
    exact h.flow p (ids ▸ hp) (by simp) a
  · rw [leafCount, entry]
    exact h.leaves p (ids ▸ hp) (by simp)
  · have before := h.rooted a
    rw [occurrences_cons_object] at before
    rw [rootCount_eq, entry]
    by_cases ha : a = id
    · subst ha
      simp only [if_pos]
      omega
    · rw [if_neg ha, rootCount_eq] at before
      simp only [if_neg ha]
      exact before
  · have := h.count
    rw [leafOccurrences_cons_object] at this
    rw [weight_eq_total, total_congr _ ids fun a _ => by rw [Entry.weight, entry, Entry.weight]]
    exact this
  · rw [referenceCount_eq, entry, ← referenceCount_eq]
    rw [rootCount_eq, entry] at h0
    have ne : a ≠ id := ne
    simp only [if_neg ne] at h0
    exact h.firm hs a (ids ▸ ha) (Set.notMem_empty a) (by rwa [rootCount_eq])

theorem Mirrors.dropEdge {k : ObjectKind} {p id : ItemId} {rest : Multiset Item}
    (h : Mirrors strict ∅ [] contents roots c) (hp : p ∈ c.ids)
    (held : contents p = .object k id ::ₘ rest) :
    Mirrors strict {id} [] (Function.update contents p rest) roots (c.dropEdge p id) := by
  have ids : (c.dropEdge p id).ids = c.ids := by
    rw [Counter.dropEdge, ids_setEntry, Finset.insert_eq_of_mem hp]
  have entry : ∀ a, (c.dropEdge p id).entry a =
      { c.entry a with
        edges := if a = p then (c.entry p).edges.remove id else (c.entry a).edges } := by
    intro a
    rw [Counter.dropEdge, entry_setEntry]
    split <;> subst_vars <;> rfl
  refine ⟨fun q hq _ a => ?_, fun q hq _ => ?_, fun a => ?_, ?_, h.covered.dropEdge hp,
    fun hs a ha _ h0 => ?_⟩
  · have before := h.flow q (ids ▸ hq) (by simp) a
    rw [flow_eq, entry]
    by_cases same : q = p
    · subst same
      rw [held, occurrences_cons_object] at before
      simp only [if_pos, Function.update_self, Edges.multiplicity_remove]
      rw [← flow_eq, before]
      omega
    · simp only [if_neg same, Function.update_of_ne same]
      rw [← flow_eq, before]
  · have before := h.leaves q (ids ▸ hq) (by simp)
    rw [leafCount, entry]
    change c.leafCount q = _
    by_cases same : q = p
    · subst same
      rw [Function.update_self, before, held, leafOccurrences_cons_object]
    · rw [Function.update_of_ne same, before]
  · rw [rootCount_eq, entry, ← h.rooted, rootCount_eq]
  · rw [weight_eq_total, total_congr _ ids fun a _ => by rw [Entry.weight, entry, Entry.weight]]
    exact h.count
  · rw [referenceCount_eq, entry, ← referenceCount_eq]
    rw [rootCount_eq, entry, ← rootCount_eq] at h0
    exact h.firm hs a (ids ▸ ha) (Set.notMem_empty a) h0

theorem Mirrors.dropLeaf {p : ItemId} {l : Leaf} {rest : Multiset Item}
    (h : Mirrors strict ∅ [] contents roots c) (hp : p ∈ c.ids)
    (held : contents p = .leaf l ::ₘ rest) :
    Mirrors strict ∅ [] (Function.update contents p rest) roots (c.dropLeaf p) := by
  have ids : (c.dropLeaf p).ids = c.ids := by
    change (c.setEntry p _).ids = c.ids
    rw [ids_setEntry, Finset.insert_eq_of_mem hp]
  have entry : ∀ a, (c.dropLeaf p).entry a =
      { c.entry a with leaves := if a = p then c.leafCount p - 1 else (c.entry a).leaves } := by
    intro a
    change (c.setEntry p _).entry a = _
    rw [entry_setEntry]
    split <;> subst_vars <;> rfl
  have flow : ∀ q a, (c.dropLeaf p).flow q a = c.flow q a := by
    intro q a
    rw [flow_eq, entry, ← flow_eq]
  have some_left := h.leaves p hp (by simp)
  rw [held, leafOccurrences_cons_leaf] at some_left
  refine ⟨fun q hq _ a => ?_, fun q hq _ => ?_, fun a => ?_, ?_, ?_, fun hs a ha _ h0 => ?_⟩
  · have before := h.flow q (ids ▸ hq) (by simp) a
    rw [flow, before]
    by_cases same : q = p
    · subst same
      rw [Function.update_self, held, occurrences_cons_leaf]
    · rw [Function.update_of_ne same]
  · have before := h.leaves q (ids ▸ hq) (by simp)
    rw [leafCount, entry]
    by_cases same : q = p
    · subst same
      simp only [if_pos, Function.update_self]
      omega
    · simp only [if_neg same, Function.update_of_ne same]
      exact before
  · rw [rootCount_eq, entry, ← h.rooted, rootCount_eq]
  · have weights : (c.dropLeaf p).weight + c.leafCount p = c.weight + (c.leafCount p - 1) :=
      weight_setEntry _ hp
    have := h.count
    change c.count - 1 = _
    omega
  · refine h.covered.transfer (fun r _ source => ⟨r, ?_, .refl⟩) (fun q a edge _ => .inl ?_)
      fun a ha new => absurd (ids ▸ ha) new
    · rw [rootCount_eq, entry, ← rootCount_eq]
      exact source
    · rwa [flow]
  · rw [referenceCount_eq, entry, ← referenceCount_eq]
    rw [rootCount_eq, entry, ← rootCount_eq] at h0
    exact h.firm hs a (ids ▸ ha) (Set.notMem_empty a) h0

theorem Mirrors.gainRoots {k : ObjectKind} {id : ItemId} {n : Nat} (hn : n ≠ 0)
    (h : Mirrors strict extra [] contents roots c) (waiting : ∀ a ∈ extra, a = id)
    (hid : id ∈ c.ids) (exact : (c.gainRoots id n).Unwrapped) :
    Mirrors strict ∅ [] contents (Multiset.replicate n (.object k id) + roots)
      ((c.gainRoots id n).dropCandidate id) := by
  have ids : ((c.gainRoots id n).dropCandidate id).ids = c.ids := ids_gainRoots c id n
  have entry : ∀ a, ((c.gainRoots id n).dropCandidate id).entry a =
      { c.entry a with roots := (c.entry a).roots + if a = id then n else 0 } :=
    entry_gainRoots hid exact
  have candidates : ∀ a ∈ c.candidates.keys, a ≠ id →
      a ∈ ((c.gainRoots id n).dropCandidate id).candidates.keys := fun a ha ne =>
    (mem_candidates_dropCandidate _ id a).2 ⟨ha, ne⟩
  have count : ((c.gainRoots id n).dropCandidate id).count = c.count := rfl
  -- from here on only what has been said about the new counter matters
  clear exact
  generalize (c.gainRoots id n).dropCandidate id = d at *
  have rooted : ∀ a, d.rootCount a = c.rootCount a + if a = id then n else 0 := by
    intro a
    rw [rootCount_eq, entry, rootCount_eq]
  have flow : ∀ p a, d.flow p a = c.flow p a := by
    intro p a
    rw [flow_eq, entry, ← flow_eq]
  refine ⟨fun p hp _ a => ?_, fun p hp _ => ?_, fun a => ?_, ?_, ?_, fun hs a ha _ h0 => ?_⟩
  · rw [flow]
    exact h.flow p (ids ▸ hp) (by simp) a
  · rw [leafCount, entry]
    exact h.leaves p (ids ▸ hp) (by simp)
  · rw [rooted, h.rooted, occurrences_add, Nat.add_comm]
    rw [occurrences_replicate]
    simp only [Item.id?, Option.some.injEq, eq_comm]
  · have leaves : leafOccurrences (Multiset.replicate n (.object k id)) = 0 := by
      rw [leafOccurrences_replicate, if_neg (by simp [Item.id?])]
    rw [leafOccurrences_add, leaves, Nat.zero_add, count, weight_eq_total,
      total_congr _ ids fun a _ => by rw [Entry.weight, entry, Entry.weight]]
    exact h.count
  · refine h.covered.transfer (fun r _ source => ?_) (fun p a edge _ => .inl ?_)
      fun a ha new => absurd (ids ▸ ha) new
    · by_cases same : r = id
      · refine .root ?_
        rw [rooted, if_pos same]
        omega
      · rcases source with source | known | more
        · refine .root ?_
          rw [rooted]
          omega
        · exact .candidate (candidates r known same)
        · exact absurd (waiting r more) same
    · rwa [flow]
  · rw [referenceCount_eq, entry, ← referenceCount_eq]
    rw [rooted] at h0
    refine h.firm hs a (ids ▸ ha) (fun he => ?_) (by omega)
    rw [if_pos (waiting a he)] at h0
    omega

theorem Mirrors.swept {collected : List ItemId} (h : Mirrors strict ∅ [] contents roots c)
    (swept : Pass.Swept c collected c') :
    Mirrors strict ∅ [] contents roots c' := by
  have rooted : ∀ a, c'.rootCount a = c.rootCount a := by
    intro a
    by_cases ha : a ∈ c'.ids
    · exact rootCount_agrees (swept.entries a ha)
    · rw [rootCount_eq, entry_of_not_mem ha]
      by_contra some
      have hi : 0 < c.rootCount a := Nat.pos_of_ne_zero fun none => some none.symm
      exact ha ((swept.ids a).2 ⟨mem_ids_of_roots hi, a, hi, .refl⟩)
  have flow : ∀ p a, c.Live p → c'.flow p a = c.flow p a := by
    intro p a live
    by_cases hp : p ∈ c.ids
    · exact flow_agrees (swept.entries p ((swept.ids p).2 ⟨hp, live⟩)) a
    · have out : p ∉ c'.ids := fun hi => hp ((swept.ids p).1 hi).1
      rw [flow_eq, flow_eq, entry_of_not_mem out, entry_of_not_mem hp]
  have leads : ∀ r a, 0 < c.rootCount r → c.Leads r a → c'.Leads r a := by
    intro r a source path
    induction path with
    | refl => exact .refl
    | @tail p a path edge ih =>
      refine ih.tail ?_
      rwa [flow p a ⟨r, source, path⟩]
  have live : ∀ a ∈ c'.ids, ∃ r, 0 < c'.rootCount r ∧ c'.Leads r a := by
    intro a ha
    obtain ⟨r, source, path⟩ := ((swept.ids a).1 ha).2
    exact ⟨r, (rooted r).symm ▸ source, leads r a source path⟩
  refine ⟨fun p hp _ a => ?_, fun p hp _ => ?_, fun a => ?_, ?_, fun a ha => ?_,
    fun _ a ha _ h0 => ?_⟩
  · rw [flow_agrees (swept.entries p hp)]
    exact h.flow p ((swept.ids p).1 hp).1 (by simp) a
  · rw [leafCount_agrees (swept.entries p hp)]
    exact h.leaves p ((swept.ids p).1 hp).1 (by simp)
  · rw [rooted]
    exact h.rooted a
  · have := h.count
    have := swept.count
    omega
  · obtain ⟨r, source, path⟩ := live a ha
    exact ⟨r, .inl source, path⟩
  · obtain ⟨r, source, path⟩ := live a ha
    rcases Relation.ReflTransGen.cases_tail path with rfl | ⟨p, -, edge⟩
    · omega
    · have := swept.coherent.references a
      have := flow_le_inflow c' p a
      omega

end Steps

end LiveItems.Counter
