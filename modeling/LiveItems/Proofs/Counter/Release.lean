import LiveItems.Proofs.Counter.Cascade
set_option autoImplicit false

namespace LiveItems.Counter

theorem free_sheds {owed : ItemId → Nat} {c : Counter} {id : ItemId} (hc : Coherent owed c)
    (hr : c.rootCount id = 0) (loose : c.referenceCount id = 0) :
    ∃ gone c', (free id).apply c = (.ok (), c') ∧ Coherent owed c' ∧
      Sheds ∅ {id} gone c c' ∧ id ∉ c'.ids := by
  obtain ⟨gone, c', run, coherent, sheds, done⟩ := cascade_sheds c.tracked.size [id] c hc
    (card_ids c).le fun a ha _ => by
      obtain rfl := List.mem_singleton.1 ha
      exact ⟨hr, loose⟩
  refine ⟨gone, c', ?_, coherent, ?_, done id (by simp)⟩
  · simp only [free, Action.apply_bind, Action.apply_get, run]
  · simpa using sheds

theorem Sheds.candidate {c : Counter} {id : ItemId} (hid : id ∈ c.ids) (hr : c.rootCount id = 0) :
    Sheds ∅ {id} ∅ c (c.addCandidate id) := by
  refine ⟨by simp, by simp, fun _ _ => .refl _, by simp, by simp, ?_, rfl, rfl, ?_,
    fun _ _ _ h => h, by simp⟩
  · rw [Finset.sum_empty, Nat.add_zero]
    rfl
  · intro a
    rw [mem_candidates_addCandidate]
    constructor
    · rintro (rfl | ha)
      · exact .inr ⟨hid, hr, .inl rfl⟩
      · exact .inl ⟨ha, by simp⟩
    · rintro (ha | ⟨-, -, ha | ⟨p, hp, -⟩⟩)
      · exact .inr ha.1
      · exact .inl ha
      · simp at hp

def settle (id : ItemId) (c : Counter) : Action Counter Unit :=
  if c.rootCount id > 0 then
    pure ()
  else if c.referenceCount id = 0 then
    free id
  else
    modify (·.addCandidate id)

theorem settle_sheds {owed : ItemId → Nat} {c : Counter} {id : ItemId} (hc : Coherent owed c)
    (hid : id ∈ c.ids) :
    ∃ gone c', (settle id c).apply c = (.ok (), c') ∧ Coherent owed c' ∧
      Sheds ∅ {id} gone c c' ∧
      (id ∈ c'.ids → c'.rootCount id = 0 → c'.referenceCount id ≠ 0) := by
  unfold settle
  by_cases hr : c.rootCount id > 0
  · rw [if_pos hr]
    refine ⟨∅, c, rfl, hc, .nothing ?_, fun _ h0 => ?_⟩
    · rintro a rfl _
      exact hr
    · omega
  · have h0 : c.rootCount id = 0 := by omega
    rw [if_neg hr]
    by_cases loose : c.referenceCount id = 0
    · obtain ⟨gone, c', run, coherent, sheds, done⟩ := free_sheds hc h0 loose
      rw [if_pos loose]
      exact ⟨gone, c', run, coherent, sheds, fun hi => absurd hi done⟩
    · rw [if_neg loose]
      exact ⟨∅, c.addCandidate id, rfl, hc.addCandidate id, .candidate hid h0, fun _ _ => loose⟩

theorem Sheds.of_setReferences {seeds touched : Set ItemId} {gone : Finset ItemId}
    {c c' : Counter} {id : ItemId} {n : Nat} (hid : id ∈ c.ids)
    (h : Sheds seeds touched gone (c.setReferences id n) c')
    (held : id ∈ c'.ids → c'.rootCount id = 0 → c'.referenceCount id ≠ 0) :
    Sheds seeds touched gone c c' := by
  have ids : (c.setReferences id n).ids = c.ids := ids_setReferences hid n
  have agrees := agrees_setReferences c id n
  have flows : ∀ p a, (c.setReferences id n).flow p a = c.flow p a := fun p a =>
    flow_agrees (agrees p) a
  have roots : ∀ a, (c.setReferences id n).rootCount a = c.rootCount a := fun a =>
    rootCount_agrees (agrees a)
  have weights : ∀ a, ((c.setReferences id n).entry a).weight = (c.entry a).weight := fun a => by
    rw [Entry.weight, Entry.weight, (agrees a).leaves]
  refine ⟨ids ▸ h.tracked, ids ▸ h.ids, fun a ha => (agrees a).trans (h.entries a ha), ?_, ?_, ?_,
    h.highest, h.stats, ?_, ?_, ?_⟩
  · intro a ha
    rw [← roots]
    exact h.rootless a ha
  · intro a ha p hp
    exact h.closed a ha p (by rwa [flows])
  · rw [← Finset.sum_congr rfl fun a _ => weights a]
    exact h.count
  · intro a
    have := h.candidates a
    simp only [roots, flows] at this
    exact this
  · intro a ha h0 loose
    have before := h.held a ha h0 loose
    by_cases same : a = id
    · subst same
      exact absurd loose (held ha h0)
    · rwa [referenceCount_eq, setReferences, entry_setEntry, if_neg same,
        ← referenceCount_eq] at before
  · intro S hS swallows
    refine h.least S hS fun a ha h0 h1 h2 => ?_
    simp only [roots, flows] at h0 h1 h2
    exact swallows a (ids ▸ ha) h0 h1 h2

theorem release_sheds {owed : ItemId → Nat} {c : Counter} {id : ItemId} {n : Nat}
    (hc : Coherent (fun a => owed a + if a = id then n else 0) c) (hid : id ∈ c.ids) :
    ∃ gone c', (release id n).apply c = (.ok (), c') ∧ Coherent owed c' ∧
      Sheds ∅ {id} gone c c' := by
  have enough : ¬(c.entry id).references < n := by
    have := hc.references id
    rw [referenceCount_eq] at this
    simp only [if_pos] at this
    omega
  obtain ⟨gone, c', run, coherent, sheds, held⟩ :=
    settle_sheds (hc.pay hid) ((ids_setReferences hid _).symm ▸ hid)
  refine ⟨gone, c', ?_, coherent, sheds.of_setReferences hid held⟩
  rw [← run]
  simp only [release, Action.apply_bind, Action.apply_get, get?_of_mem hid, if_neg enough,
    Action.apply_modify, settle, rootCount_eq, referenceCount_eq, setReferences, entry_setEntry,
    if_pos]

def dropRoot (c : Counter) (id : ItemId) : Counter :=
  c.setEntry id { c.entry id with roots := c.rootCount id - 1 }

def dropEdge (c : Counter) (p a : ItemId) : Counter :=
  c.setEntry p { c.entry p with edges := (c.entry p).edges.remove a }

def dropLeaf (c : Counter) (p : ItemId) : Counter :=
  { c.setEntry p { c.entry p with leaves := c.leafCount p - 1 } with count := c.count - 1 }

theorem Coherent.dropRoot {owed : ItemId → Nat} {c : Counter} {id : ItemId}
    (hc : Coherent owed c) (hid : id ∈ c.ids) : Coherent owed (c.dropRoot id) := by
  have ids : (c.dropRoot id).ids = c.ids := by
    rw [Counter.dropRoot, ids_setEntry, Finset.insert_eq_of_mem hid]
  have entry : ∀ a, (c.dropRoot id).entry a =
      { c.entry a with roots := if a = id then c.rootCount id - 1 else (c.entry a).roots } := by
    intro a
    rw [Counter.dropRoot, entry_setEntry]
    split <;> subst_vars <;> rfl
  refine hc.of_edges ids (fun a => by rw [entry]) (fun a => by rw [entry]) ?_
  rw [weight_eq_total, total_congr _ ids fun a _ => by rw [Entry.weight, entry, Entry.weight]]
  exact hc.weight_le

theorem removeRoot_sheds {owed : ItemId → Nat} {c : Counter} {k : ObjectKind} {id : ItemId}
    (hc : Coherent owed c) (hr : 0 < c.rootCount id) :
    ∃ gone c', (removeRoot (.object k id)).apply c = (.ok (), c') ∧ Coherent owed c' ∧
      Sheds ∅ {id} gone (c.dropRoot id) c' ∧
      (id ∈ c'.ids → c'.rootCount id = 0 → c'.referenceCount id ≠ 0) := by
  have hid := mem_ids_of_roots hr
  have rooted : ¬(c.entry id).roots = 0 := by
    rw [rootCount_eq] at hr
    omega
  obtain ⟨gone, c', run, coherent, sheds, held⟩ := settle_sheds (hc.dropRoot hid)
    (by rw [dropRoot, ids_setEntry]; exact Finset.mem_insert_self id _)
  refine ⟨gone, c', ?_, coherent, sheds, held⟩
  rw [← run]
  simp only [removeRoot, Item.id?, Action.apply_bind, Action.apply_get, get?_of_mem hid,
    if_neg rooted, Action.apply_modify, settle, rootCount_eq, referenceCount_eq, dropRoot,
    entry_setEntry, if_pos]

theorem Coherent.dropEdge {c : Counter} {owed : ItemId → Nat} {p id : ItemId}
    (hc : Coherent owed c) (h : 0 < c.flow p id) :
    Coherent (fun a => owed a + if a = id then 1 else 0) (c.dropEdge p id) := by
  have hp := mem_ids_of_flow h
  have references : ∀ a, (c.dropEdge p id).referenceCount a = c.referenceCount a := by
    intro a
    rw [referenceCount_eq, referenceCount_eq, Counter.dropEdge, entry_setEntry]
    split <;> subst_vars <;> rfl
  have weights : (c.dropEdge p id).weight + c.leafCount p = c.weight + c.leafCount p :=
    weight_setEntry _ hp
  constructor
  · intro q a ha
    rw [edges_eq, Counter.dropEdge, entry_setEntry] at ha
    rw [flow_eq, Counter.dropEdge, entry_setEntry]
    split at ha
    · rename_i hq
      rw [if_pos hq]
      refine Edges.positive_remove (fun b hb => ?_) ha
      rw [← flow_eq]
      exact hc.positive p b (edges_eq c p ▸ hb)
    · rename_i hq
      rw [if_neg hq, ← flow_eq]
      exact hc.positive q a (edges_eq c q ▸ ha)
  · intro a
    have flows := inflow_setEntry { c.entry p with edges := (c.entry p).edges.remove id } hp a
    have before := hc.references a
    have le := flow_le_inflow c p a
    rw [references, before, Counter.dropEdge]
    rw [Edges.multiplicity_remove, ← flow_eq] at flows
    split at flows
    · subst_vars
      rw [if_pos rfl]
      omega
    · rename_i ne
      rw [if_neg ne]
      omega
  · have := hc.weight_le
    change (c.dropEdge p id).weight ≤ c.count
    omega

theorem removeOccurrence_sheds {owed : ItemId → Nat} {c : Counter} {k : ObjectKind}
    {p id : ItemId} (hc : Coherent owed c) (h : 0 < c.flow p id) :
    ∃ gone c', (removeOccurrence (.object k id) p).apply c = (.ok (), c') ∧ Coherent owed c' ∧
      Sheds ∅ {id} gone (c.dropEdge p id) c' := by
  have hp := mem_ids_of_flow h
  have present : ¬(c.entry p).edges.multiplicity id = 0 := by
    rw [flow_eq] at h
    omega
  have hid : id ∈ (c.dropEdge p id).ids := by
    rw [dropEdge, ids_setEntry]
    exact Finset.mem_insert_of_mem (hc.closed h)
  obtain ⟨gone, c', run, coherent, sheds⟩ := release_sheds (hc.dropEdge h) hid
  refine ⟨gone, c', ?_, coherent, sheds⟩
  rw [← run]
  simp only [removeOccurrence, Action.apply_bind, Action.apply_get, get?_of_mem hp, Item.id?,
    if_neg present, Action.apply_modify]
  rfl

theorem mem_ids_of_leaves {c : Counter} {p : ItemId} (h : 0 < c.leafCount p) : p ∈ c.ids := by
  by_contra hp
  rw [leafCount, entry_of_not_mem hp] at h
  exact absurd h (lt_irrefl 0)

theorem Coherent.dropLeaf {c : Counter} {owed : ItemId → Nat} {p : ItemId}
    (hc : Coherent owed c) (h : 0 < c.leafCount p) : Coherent owed (c.dropLeaf p) := by
  have hp := mem_ids_of_leaves h
  have ids : (c.dropLeaf p).ids = c.ids := by
    change (c.setEntry p _).ids = c.ids
    rw [ids_setEntry, Finset.insert_eq_of_mem hp]
  have entry : ∀ a, (c.dropLeaf p).entry a =
      { c.entry a with leaves := if a = p then c.leafCount p - 1 else (c.entry a).leaves } := by
    intro a
    change (c.setEntry p _).entry a = _
    rw [entry_setEntry]
    split <;> subst_vars <;> rfl
  refine hc.of_edges ids (fun a => by rw [entry]) (fun a => by rw [entry]) ?_
  have weights : (c.dropLeaf p).weight + c.leafCount p = c.weight + (c.leafCount p - 1) :=
    weight_setEntry _ hp
  have := hc.weight_le
  change (c.dropLeaf p).weight ≤ c.count - 1
  omega

theorem removeOccurrence_leaf {owed : ItemId → Nat} {c : Counter} {l : Leaf} {p : ItemId}
    (hc : Coherent owed c) (h : 0 < c.leafCount p) :
    (removeOccurrence (.leaf l) p).apply c = (.ok (), c.dropLeaf p) := by
  have hp := mem_ids_of_leaves h
  have some_left : ¬(c.entry p).leaves = 0 := by
    rw [leafCount] at h
    omega
  have counted : ¬(c.setEntry p { c.entry p with leaves := c.leafCount p - 1 }).count < 1 := by
    have := hc.weight_le
    have : 1 + c.leafCount p ≤ c.weight :=
      Finset.single_le_sum (f := fun p => 1 + c.leafCount p) (fun _ _ => Nat.zero_le _) hp
    change ¬c.count < 1
    omega
  simp only [removeOccurrence, Action.apply_bind, Action.apply_get, get?_of_mem hp, Item.id?,
    if_neg some_left, Action.apply_modify, apply_decrease]
  exact if_neg counted

theorem removeOccurrence_untracked {c : Counter} {x : Item} {p : ItemId} (hp : p ∉ c.ids) :
    (removeOccurrence x p).apply c = (.ok (), c) := by
  simp only [removeOccurrence, Action.apply_bind, Action.apply_get, get?_of_not_mem hp,
    Action.apply_pure]

end LiveItems.Counter
