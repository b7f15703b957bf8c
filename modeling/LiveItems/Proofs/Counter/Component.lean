import LiveItems.Counter.Collection
import LiveItems.Proofs.Counter.Release
set_option autoImplicit false

/-!
# Garbage components

The test by counting finds out whether anything outside a component holds one of its members:
`isUnreachable_iff`. When nothing does, freeing the members succeeds and frees, beside them, what
only freed objects have held: `freeComponent_sheds`.
-/

namespace LiveItems

namespace Counter

/-! ## The test by counting -/

theorem getElem?_zeros (ids : List ItemId) :
    ∀ (refs : Std.ExtTreeMap ItemId Nat) (a : ItemId),
      (ids.foldl (fun refs id => refs.insert id 0) refs)[a]? =
        if a ∈ ids then some 0 else refs[a]? := by
  induction ids with
  | nil =>
    intro refs a
    simp
  | cons id ids ih =>
    intro refs a
    rw [List.foldl_cons, ih, Std.ExtTreeMap.getElem?_insert]
    by_cases h : a = id
    · subst h
      simp
    · simp [h, Ne.symm h]

theorem getElem?_addEdges (es : List (ItemId × Nat)) :
    ∀ (refs : Std.ExtTreeMap ItemId Nat) (a : ItemId),
      (es.foldl (fun refs (child, n) => refs.modify child (· + n)) refs)[a]? =
        (refs[a]?).map (· + debt es a) := by
  induction es with
  | nil =>
    intro refs a
    simp [debt]
  | cons e es ih =>
    intro refs a
    rw [List.foldl_cons, ih, Std.ExtTreeMap.getElem?_modify, debt]
    by_cases h : a = e.1
    · subst h
      cases refs[e.1]? <;> simp [Nat.add_assoc]
    · simp [h, Ne.symm h]

theorem getElem?_addMembers (c : Counter) (ids : List ItemId) :
    ∀ (refs : Std.ExtTreeMap ItemId Nat) (a : ItemId),
      (ids.foldl (fun refs id => (c.edges id).toList.foldl
          (fun refs (child, n) => refs.modify child (· + n)) refs) refs)[a]? =
        (refs[a]?).map (· + (ids.map fun p => c.flow p a).sum) := by
  induction ids with
  | nil =>
    intro refs a
    simp
  | cons id ids ih =>
    intro refs a
    rw [List.foldl_cons, ih, getElem?_addEdges, debt_toList, List.map_cons, List.sum_cons]
    cases refs[a]? <;> simp [flow, Nat.add_assoc]

theorem internalReferences_getD (c : Counter) {ids : List ItemId} {a : ItemId} (h : a ∈ ids) :
    (c.internalReferences ids).getD a 0 = (ids.map fun p => c.flow p a).sum := by
  rw [Std.ExtTreeMap.getD_eq_getD_getElem?, internalReferences]
  simp only [getElem?_addMembers, getElem?_zeros, if_pos h, Option.map_some, Option.getD_some,
    Nat.zero_add]

structure Unreachable (c : Counter) (ids : List ItemId) : Prop where
  tracked : ∀ a ∈ ids, a ∈ c.ids
  rootless : ∀ a ∈ ids, c.rootCount a = 0
  closed : ∀ a ∈ ids, ∀ p, 0 < c.flow p a → p ∈ ids

theorem inflow_eq_add {c : Counter} {ids : List ItemId} (nodup : ids.Nodup)
    (tracked : ∀ a ∈ ids, a ∈ c.ids) (a : ItemId) :
    c.inflow a = ∑ p ∈ c.ids \ ids.toFinset, c.flow p a + (ids.map fun p => c.flow p a).sum := by
  rw [inflow, ← List.sum_toFinset _ nodup]
  exact (Finset.sum_sdiff fun a ha => tracked a (List.mem_toFinset.1 ha)).symm

theorem isUnreachable_iff {c : Counter} {ids : List ItemId} (hc : Coherent (fun _ => 0) c)
    (nodup : ids.Nodup) : c.isUnreachable ids = true ↔ c.Unreachable ids := by
  have unfolded : c.isUnreachable ids = true ↔ ∀ a ∈ ids, a ∈ c.ids ∧ c.rootCount a = 0 ∧
      c.inflow a = (ids.map fun p => c.flow p a).sum := by
    rw [isUnreachable, List.all_eq_true]
    refine forall₂_congr fun a ha => ?_
    rw [internalReferences_getD c ha]
    by_cases hi : a ∈ c.ids
    · have references := hc.references a
      rw [Nat.add_zero, referenceCount_eq] at references
      simp only [get?_of_mem hi, hi, true_and, Bool.and_eq_true, beq_iff_eq, rootCount_eq,
        references]
    · simp [get?_of_not_mem hi, hi]
  rw [unfolded]
  constructor
  · intro h
    refine ⟨fun a ha => (h a ha).1, fun a ha => (h a ha).2.1, fun a ha p hp => ?_⟩
    have sums := inflow_eq_add nodup (fun a ha => (h a ha).1) a
    rw [(h a ha).2.2] at sums
    have outside : ∑ p ∈ c.ids \ ids.toFinset, c.flow p a = 0 := by omega
    by_contra out
    have none := (Finset.sum_eq_zero_iff.1 outside) p
      (Finset.mem_sdiff.2 ⟨mem_ids_of_flow hp, fun h => out (List.mem_toFinset.1 h)⟩)
    omega
  · intro h a ha
    refine ⟨h.tracked a ha, h.rootless a ha, ?_⟩
    rw [inflow_eq_add nodup h.tracked, Finset.sum_eq_zero, Nat.zero_add]
    intro p hp
    by_contra held
    exact (Finset.mem_sdiff.1 hp).2
      (List.mem_toFinset.2 (h.closed a ha p (Nat.pos_of_ne_zero held)))

/-! ## Freeing the members -/

/-- The counter after all members have lost their entries, while what they held still counts its
references from them. -/
def withoutAll (c : Counter) (members : List ItemId) : Counter :=
  { members.foldl (fun c id => (c.eraseEntry id).dropCandidate id) c with
    count := c.count - (members.map fun a => (c.entry a).weight).sum }

theorem get?_eraseAll (members : List ItemId) :
    ∀ (c : Counter) (a : ItemId),
      (members.foldl (fun c id => (c.eraseEntry id).dropCandidate id) c).get? a =
        if a ∈ members then none else c.get? a := by
  induction members with
  | nil =>
    intro c a
    simp
  | cons id members ih =>
    intro c a
    rw [List.foldl_cons, ih, get?_dropCandidate, get?_eraseEntry]
    by_cases h : a = id <;> simp [h]

theorem candidates_eraseAll (members : List ItemId) :
    ∀ (c : Counter) (a : ItemId),
      a ∈ (members.foldl (fun c id => (c.eraseEntry id).dropCandidate id) c).candidates.keys ↔
        a ∈ c.candidates.keys ∧ a ∉ members := by
  induction members with
  | nil =>
    intro c a
    simp
  | cons id members ih =>
    intro c a
    rw [List.foldl_cons, ih, mem_candidates_dropCandidate, List.mem_cons, not_or, and_assoc]
    rfl

theorem counts_eraseAll (members : List ItemId) :
    ∀ c : Counter,
      let d := members.foldl (fun c id => (c.eraseEntry id).dropCandidate id) c
      d.count = c.count ∧ d.highest = c.highest ∧ d.stats = c.stats := by
  induction members with
  | nil =>
    intro c
    exact ⟨rfl, rfl, rfl⟩
  | cons id members ih =>
    intro c
    exact ih ((c.eraseEntry id).dropCandidate id)

theorem get?_withoutAll (c : Counter) (members : List ItemId) (a : ItemId) :
    (c.withoutAll members).get? a = if a ∈ members then none else c.get? a :=
  get?_eraseAll members c a

theorem ids_withoutAll (c : Counter) (members : List ItemId) :
    (c.withoutAll members).ids = c.ids \ members.toFinset := by
  ext a
  rw [mem_ids_iff, get?_withoutAll, Finset.mem_sdiff, mem_ids_iff, List.mem_toFinset]
  by_cases h : a ∈ members <;> simp [h]

theorem entry_withoutAll (c : Counter) (members : List ItemId) (a : ItemId) :
    (c.withoutAll members).entry a = if a ∈ members then {} else c.entry a := by
  rw [entry, get?_withoutAll]
  by_cases h : a ∈ members <;> simp [h, entry]

theorem flow_withoutAll (c : Counter) (members : List ItemId) (p a : ItemId) :
    (c.withoutAll members).flow p a = if p ∈ members then 0 else c.flow p a := by
  rw [flow_eq, entry_withoutAll]
  split
  · rfl
  · rw [flow_eq]

theorem inflow_withoutAll (c : Counter) (members : List ItemId) (a : ItemId) :
    (c.withoutAll members).inflow a = ∑ p ∈ c.ids \ members.toFinset, c.flow p a := by
  rw [inflow, ids_withoutAll]
  refine Finset.sum_congr rfl fun p hp => ?_
  rw [flow_withoutAll, if_neg]
  exact fun h => (Finset.mem_sdiff.1 hp).2 (List.mem_toFinset.2 h)

theorem weight_withoutAll {c : Counter} {members : List ItemId} (nodup : members.Nodup)
    (tracked : ∀ a ∈ members, a ∈ c.ids) :
    (c.withoutAll members).weight + (members.map fun a => (c.entry a).weight).sum = c.weight := by
  have sub : members.toFinset ⊆ c.ids := fun a ha => tracked a (List.mem_toFinset.1 ha)
  rw [weight_eq_total, weight_eq_total, total, total, ids_withoutAll,
    ← List.sum_toFinset _ nodup, ← Finset.sum_sdiff sub]
  congr 1
  refine Finset.sum_congr rfl fun p hp => ?_
  rw [entry_withoutAll, if_neg]
  exact fun h => (Finset.mem_sdiff.1 hp).2 (List.mem_toFinset.2 h)

theorem Coherent.withoutAll {c : Counter} {members : List ItemId} (hc : Coherent (fun _ => 0) c)
    (nodup : members.Nodup) (h : c.Unreachable members) :
    Coherent (fun a => if a ∈ members then 0 else (members.map fun p => c.flow p a).sum)
      (c.withoutAll members) := by
  constructor
  · intro p a ha
    rw [edges_eq, entry_withoutAll] at ha
    rw [flow_withoutAll]
    split at ha
    · simp at ha
    · rename_i out
      rw [if_neg out]
      exact hc.positive p a (edges_eq c p ▸ ha)
  · intro a
    rw [referenceCount_eq, entry_withoutAll, inflow_withoutAll]
    split
    · rename_i inside
      rw [Finset.sum_eq_zero]
      intro p hp
      by_contra held
      exact (Finset.mem_sdiff.1 hp).2
        (List.mem_toFinset.2 (h.closed a inside p (Nat.pos_of_ne_zero held)))
    · rw [← referenceCount_eq, hc.references, Nat.add_zero, inflow_eq_add nodup h.tracked]
  · have weights := weight_withoutAll nodup h.tracked
    have enough := hc.weight_le
    change _ ≤ c.count - _
    omega

theorem Sheds.of_withoutAll {c c' : Counter} {members : List ItemId} {gone : Finset ItemId}
    (hc : Coherent (fun _ => 0) c) (nodup : members.Nodup) (h : c.Unreachable members)
    (sheds : Sheds ∅ {a | a ∉ members ∧ ∃ p ∈ members, 0 < c.flow p a} gone (c.withoutAll members)
      c') :
    Sheds {a | a ∈ members} ∅ (members.toFinset ∪ gone) c c' := by
  have out : ∀ a ∈ gone, a ∉ members := by
    intro a ha
    have := sheds.tracked ha
    rw [ids_withoutAll, Finset.mem_sdiff, List.mem_toFinset] at this
    exact this.2
  have entry : ∀ a, a ∉ members → (c.withoutAll members).entry a = c.entry a := by
    intro a ha
    rw [entry_withoutAll, if_neg ha]
  have flow : ∀ p a, 0 < (c.withoutAll members).flow p a ↔ 0 < c.flow p a ∧ p ∉ members := by
    intro p a
    rw [flow_withoutAll]
    split <;> simp_all
  have mem : ∀ a, a ∈ c'.ids ↔ a ∈ c.ids ∧ a ∉ members ∧ a ∉ gone := by
    intro a
    rw [sheds.mem_ids, ids_withoutAll, Finset.mem_sdiff, List.mem_toFinset, and_assoc]
  constructor
  · intro a ha
    rcases Finset.mem_union.1 ha with ha | ha
    · exact h.tracked a (List.mem_toFinset.1 ha)
    · have := sheds.tracked ha
      rw [ids_withoutAll] at this
      exact (Finset.mem_sdiff.1 this).1
  · ext a
    rw [mem, Finset.mem_sdiff, Finset.mem_union, not_or, List.mem_toFinset]
  · intro a ha
    rw [Finset.mem_union, not_or, List.mem_toFinset] at ha
    rw [← entry a ha.1]
    exact sheds.entries a ha.2
  · intro a ha
    rcases Finset.mem_union.1 ha with ha | ha
    · exact h.rootless a (List.mem_toFinset.1 ha)
    · rw [rootCount_eq, ← entry a (out a ha), ← rootCount_eq]
      exact sheds.rootless a ha
  · intro a ha p hp
    rw [Finset.mem_union, List.mem_toFinset]
    rcases Finset.mem_union.1 ha with ha | ha
    · exact .inl (h.closed a (List.mem_toFinset.1 ha) p hp)
    · by_cases inside : p ∈ members
      · exact .inl inside
      · exact .inr (sheds.closed a ha p ((flow p a).2 ⟨hp, inside⟩))
  · have weights : ∑ a ∈ gone, ((c.withoutAll members).entry a).weight =
        ∑ a ∈ gone, (c.entry a).weight :=
      Finset.sum_congr rfl fun a ha => by rw [entry a (out a ha)]
    have all := weight_withoutAll nodup h.tracked
    have enough := hc.weight_le
    have later := sheds.count
    have now : (c.withoutAll members).count =
      c.count - (members.map fun a => (c.entry a).weight).sum := rfl
    rw [Finset.sum_union, List.sum_toFinset _ nodup]
    · omega
    · exact Finset.disjoint_right.2 fun a ha hm => out a ha (List.mem_toFinset.1 hm)
  · rw [sheds.highest]
    exact (counts_eraseAll members c).2.1
  · rw [sheds.stats]
    exact (counts_eraseAll members c).2.2
  · intro a
    have known : a ∈ (c.withoutAll members).candidates.keys ↔
      a ∈ c.candidates.keys ∧ a ∉ members := candidates_eraseAll members c a
    have lost : (∃ p ∈ members.toFinset ∪ gone, 0 < c.flow p a) ↔
        (∃ p ∈ members, 0 < c.flow p a) ∨ ∃ p ∈ gone, 0 < (c.withoutAll members).flow p a := by
      constructor
      · rintro ⟨p, hp, hf⟩
        rw [Finset.mem_union, List.mem_toFinset] at hp
        rcases hp with hp | hp
        · exact .inl ⟨p, hp, hf⟩
        · exact .inr ⟨p, hp, (flow p a).2 ⟨hf, out p hp⟩⟩
      · rintro (⟨p, hp, hf⟩ | ⟨p, hp, hf⟩)
        · exact ⟨p, Finset.mem_union_left _ (List.mem_toFinset.2 hp), hf⟩
        · exact ⟨p, Finset.mem_union_right _ hp, ((flow p a).1 hf).1⟩
    rw [sheds.candidates, known, lost, Finset.mem_union, List.mem_toFinset, not_or, and_assoc]
    by_cases ha : a ∈ c'.ids
    · have inside := ((mem a).1 ha).2.1
      have roots : (c.withoutAll members).rootCount a = c.rootCount a := by
        rw [rootCount_eq, entry a inside, ← rootCount_eq]
      simp [ha, inside, roots]
    · simp [ha]
  · intro a ha h0 loose
    have inside := ((mem a).1 ha).2.1
    have before := sheds.held a ha h0 loose
    rwa [referenceCount_eq, entry a inside, ← referenceCount_eq] at before
  · intro S hS swallows a ha
    rcases Finset.mem_union.1 ha with ha | ha
    · exact hS (List.mem_toFinset.1 ha)
    · refine sheds.least S (Set.empty_subset S) (fun b hb h0 lost preds => ?_) a ha
      rw [ids_withoutAll, Finset.mem_sdiff, List.mem_toFinset] at hb
      rw [rootCount_eq, entry b hb.2, ← rootCount_eq] at h0
      refine swallows b hb.1 h0 (.inr ?_) fun p hp => ?_
      · rcases lost with ⟨-, p, -, hp⟩ | ⟨p, hp⟩
        · exact ⟨p, hp⟩
        · exact ⟨p, ((flow p b).1 hp).1⟩
      · by_cases inside : p ∈ members
        · exact hS inside
        · exact preds p ((flow p b).2 ⟨hp, inside⟩)

end Counter

namespace Pass

open Counter

theorem contains_members (members : List ItemId) :
    ∀ (set : Std.ExtTreeMap ItemId Unit) (a : ItemId),
      (members.foldl (fun s id => s.insert id ()) set).contains a = true ↔
        a ∈ members ∨ set.contains a = true := by
  induction members with
  | nil =>
    intro set a
    simp
  | cons id members ih =>
    intro set a
    rw [List.foldl_cons, ih, Std.ExtTreeMap.contains_insert, List.mem_cons]
    by_cases h : a = id
    · simp [h]
    · simp [h, Ne.symm h]

theorem releaseOutside_sheds {members : List ItemId} {set : Std.ExtTreeMap ItemId Unit}
    (hset : ∀ a, set.contains a = true ↔ a ∈ members) (es : List (ItemId × Nat)) :
    ∀ (p : Pass) (owed : ItemId → Nat), (∀ e ∈ es, 0 < e.2) →
      Coherent (fun a => owed a + if a ∈ members then 0 else debt es a) p.counter →
      ∃ gone c', (releaseOutside set es).apply p = (.ok (), { p with counter := c' }) ∧
        Coherent owed c' ∧
        Sheds ∅ {a | a ∉ members ∧ a ∈ es.map Prod.fst} gone p.counter c' := by
  induction es with
  | nil =>
    intro p owed _ hc
    refine ⟨∅, p.counter, rfl, ?_, .nothing fun a ha => by simp at ha⟩
    simpa [debt] using hc
  | cons e es ih =>
    intro p owed pos hc
    obtain ⟨b, n⟩ := e
    have pos' : ∀ e ∈ es, 0 < e.2 := fun e he => pos e (List.mem_cons_of_mem _ he)
    by_cases inside : b ∈ members
    · have skip : (releaseOutside set ((b, n) :: es)).apply p =
          (releaseOutside set es).apply p := by
        simp [releaseOutside, (hset b).2 inside]
      have owes : (fun a => owed a + if a ∈ members then 0 else debt ((b, n) :: es) a) =
          fun a => owed a + if a ∈ members then 0 else debt es a := by
        funext a
        by_cases ha : a ∈ members
        · simp [ha]
        · have ne : a ≠ b := fun e => ha (e ▸ inside)
          simp [ha, debt, ne]
      have touched : {a | a ∉ members ∧ a ∈ ((b, n) :: es).map Prod.fst} =
          {a | a ∉ members ∧ a ∈ es.map Prod.fst} := by
        ext a
        rw [Set.mem_ofPred_eq, Set.mem_ofPred_eq, List.map_cons, List.mem_cons]
        refine and_congr_right fun ha => or_iff_right ?_
        rintro rfl
        exact ha inside
      rw [skip, touched]
      exact ih p owed pos' (owes ▸ hc)
    · have owes : (fun a => owed a + if a ∈ members then 0 else debt ((b, n) :: es) a) =
          fun a => (owed a + if a ∈ members then 0 else debt es a) + if a = b then n else 0 := by
        funext a
        by_cases ha : a = b
        · subst ha
          simp only [debt, if_neg inside, if_pos]
          omega
        · by_cases hm : a ∈ members
          · simp [hm, ha]
          · simp [hm, ha, debt]
      rw [owes] at hc
      have hb : b ∈ p.counter.ids := by
        refine hc.mem_of_owed ?_
        have := pos (b, n) (List.mem_cons_self ..)
        simp only [if_pos] at this ⊢
        omega
      obtain ⟨gone, d, run, hd, first⟩ := release_sheds hc hb
      obtain ⟨gone', c', runs, hc', others⟩ := ih { p with counter := d } owed pos' hd
      refine ⟨gone ∪ gone', c', ?_, hc', ?_⟩
      · have out : set.contains b = false := by
          rw [← Bool.not_eq_true, hset]
          exact inside
        have stepped : (onCounter (Counter.release b n)).apply p =
            (.ok (), { p with counter := d }) := by
          simp only [onCounter, Action.apply_onPart, run]
        simp only [releaseOutside, out, Bool.not_false, if_true, Action.apply_bind, stepped, runs]
      · have touched : {a | a ∉ members ∧ a ∈ ((b, n) :: es).map Prod.fst} =
            {b} ∪ {a | a ∉ members ∧ a ∈ es.map Prod.fst} := by
          ext a
          rw [Set.mem_union, Set.mem_singleton_iff, Set.mem_ofPred_eq, Set.mem_ofPred_eq,
            List.map_cons, List.mem_cons]
          constructor
          · rintro ⟨ha, rfl | he⟩
            · exact .inl rfl
            · exact .inr ⟨ha, he⟩
          · rintro (rfl | ⟨ha, he⟩)
            · exact ⟨inside, .inl rfl⟩
            · exact ⟨ha, .inr he⟩
        have both := first.trans others
        rwa [Set.union_empty, ← touched] at both

theorem releaseEntries_sheds {members : List ItemId} {set : Std.ExtTreeMap ItemId Unit}
    (hset : ∀ a, set.contains a = true ↔ a ∈ members) (entries : List Entry) :
    ∀ (p : Pass) (owed : ItemId → Nat),
      (∀ e ∈ entries, ∀ a ∈ e.edges.keys, 0 < e.edges.multiplicity a) →
      Coherent (fun a => owed a + if a ∈ members then 0 else
        (entries.map fun e => e.edges.multiplicity a).sum) p.counter →
      ∃ gone c', (entries.forM fun e => releaseOutside set e.edges.toList).apply p =
          (.ok (), { p with counter := c' }) ∧
        Coherent owed c' ∧
        Sheds ∅ {a | a ∉ members ∧ ∃ e ∈ entries, a ∈ e.edges.keys} gone p.counter c' := by
  induction entries with
  | nil =>
    intro p owed _ hc
    refine ⟨∅, p.counter, rfl, ?_, .nothing fun a ha => by simp at ha⟩
    simpa using hc
  | cons e entries ih =>
    intro p owed pos hc
    have owes : (fun a => owed a + if a ∈ members then 0 else
          ((e :: entries).map fun e => e.edges.multiplicity a).sum) =
        fun a => (owed a + if a ∈ members then 0 else
          (entries.map fun e => e.edges.multiplicity a).sum) +
            if a ∈ members then 0 else debt e.edges.toList a := by
      funext a
      rw [debt_toList, List.map_cons, List.sum_cons]
      split <;> omega
    have counts : ∀ edge ∈ e.edges.toList, 0 < edge.2 := by
      intro edge he
      have := pos e (List.mem_cons_self ..) edge.1 (OrderedMap.mem_keys_iff.2 ⟨edge.2, he⟩)
      rwa [Edges.multiplicity_of_mem he] at this
    rw [owes] at hc
    obtain ⟨gone, d, run, hd, first⟩ := releaseOutside_sheds hset e.edges.toList p _ counts hc
    obtain ⟨gone', c', runs, hc', others⟩ := ih { p with counter := d } owed
      (fun e he => pos e (List.mem_cons_of_mem _ he)) hd
    refine ⟨gone ∪ gone', c', ?_, hc', ?_⟩
    · rw [Action.apply_forM_cons, run]
      exact runs
    · have touched : {a | a ∉ members ∧ ∃ e' ∈ e :: entries, a ∈ e'.edges.keys} =
          {a | a ∉ members ∧ a ∈ e.edges.toList.map Prod.fst} ∪
            {a | a ∉ members ∧ ∃ e ∈ entries, a ∈ e.edges.keys} := by
        ext a
        simp only [Set.mem_union, Set.mem_ofPred_eq, List.exists_mem_cons_iff, ← and_or_left]
        rfl
      have both := first.trans others
      rwa [Set.union_empty, ← touched] at both

theorem freeComponent_sheds {ids : List ItemId} {p : Pass}
    (hc : Coherent (fun _ => 0) p.counter) (nodup : ids.Nodup) (h : p.counter.Unreachable ids) :
    ∃ gone c', (freeComponent ids).apply p =
        (.ok (), { counter := c', collected := ids ++ p.collected }) ∧
      Coherent (fun _ => 0) c' ∧ Sheds {a | a ∈ ids} ∅ gone p.counter c' ∧ ∀ a ∈ ids, a ∈ gone := by
  obtain ⟨c, collected⟩ := p
  have entries : ids.filterMap c.get? = ids.map c.entry := by
    rw [← List.filterMap_eq_map]
    exact List.filterMap_congr fun a ha => get?_of_mem (h.tracked a ha)
  have weights : (ids.map c.entry).foldl (fun n e => n + e.weight) 0 =
      (ids.map fun a => (c.entry a).weight).sum := by
    rw [List.sum_eq_foldl, List.foldl_map, List.foldl_map]
  have counted : ¬c.count < (ids.map fun a => (c.entry a).weight).sum := by
    have enough : c.weight ≤ c.count := hc.weight_le
    have lighter : _ + _ = c.weight := weight_withoutAll nodup h.tracked
    omega
  have count : (ids.foldl (fun c id => (c.eraseEntry id).dropCandidate id) c).count = c.count :=
    (counts_eraseAll ids c).1
  have set := contains_members ids {}
  generalize hs :
    (ids.foldl (fun s id => s.insert id ()) {} : Std.ExtTreeMap ItemId Unit) = s at set
  have owes : (fun a => if a ∈ ids then 0 else (ids.map fun p => c.flow p a).sum) =
      fun a => 0 + if a ∈ ids then 0 else
        ((ids.map c.entry).map fun e => e.edges.multiplicity a).sum := by
    funext a
    rw [Nat.zero_add, List.map_map]
    simp only [flow_eq, Function.comp_def]
  obtain ⟨gone, c', run, coherent, sheds⟩ := releaseEntries_sheds (by simpa using set)
    (ids.map c.entry) { counter := c.withoutAll ids, collected := ids ++ collected } (fun _ => 0)
    (fun e he a ha => by
      obtain ⟨p, -, rfl⟩ := List.mem_map.1 he
      rw [← flow_eq]
      exact hc.positive p a (edges_eq c p ▸ ha))
    (owes ▸ hc.withoutAll nodup h)
  refine ⟨ids.toFinset ∪ gone, c', ?_, coherent, .of_withoutAll hc nodup h ?_, fun a ha => ?_⟩
  · rw [← run]
    simp only [freeComponent, Action.apply_bind, Action.apply_get, Action.apply_modify, onCounter,
      Action.apply_onPart, apply_decrease, entries, weights, count, if_neg counted, hs]
    rfl
  · have touched : {a | a ∉ ids ∧ ∃ e ∈ ids.map c.entry, a ∈ e.edges.keys} =
        {a | a ∉ ids ∧ ∃ p ∈ ids, 0 < c.flow p a} := by
      ext a
      refine and_congr_right fun _ => ?_
      simp only [List.mem_map, exists_exists_and_eq_and, ← edges_eq, hc.mem_keys_iff]
    rwa [← touched]
  · exact Finset.mem_union_left _ (List.mem_toFinset.2 ha)

end Pass

end LiveItems
