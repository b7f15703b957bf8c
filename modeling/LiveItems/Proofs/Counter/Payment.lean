import LiveItems.Proofs.Counter.Ledger
set_option autoImplicit false

namespace LiveItems

theorem Edges.positive_remove {es : Edges} {child a : ItemId}
    (h : ∀ b ∈ es.keys, 0 < es.multiplicity b) (ha : a ∈ (es.remove child).keys) :
    0 < (es.remove child).multiplicity a := by
  have gap : a ∈ (es.swapErase child).keys → 0 < multiplicity (es.swapErase child) a := by
    intro ha
    obtain ⟨ha, ne⟩ := OrderedMap.mem_keys_swapErase.1 ha
    rw [multiplicity_swapErase, if_neg ne]
    exact h a ha
  unfold remove at ha ⊢
  split at ha
  · exact gap ha
  · exact gap ha
  · rename_i n hn
    rw [multiplicity_insert]
    split
    · exact Nat.succ_pos n
    · rename_i ne
      exact h a ((OrderedMap.mem_keys_insert.1 ha).resolve_left ne)

namespace Counter

def debt : List (ItemId × Nat) → ItemId → Nat
  | [], _ => 0
  | (b, n) :: es, a => (if a = b then n else 0) + debt es a

theorem debt_of_not_mem {es : List (ItemId × Nat)} {a : ItemId} (h : a ∉ es.map Prod.fst) :
    debt es a = 0 := by
  induction es with
  | nil => rfl
  | cons e es ih =>
    rw [List.map_cons, List.mem_cons, not_or] at h
    rw [debt, if_neg h.1, ih h.2]

theorem debt_of_mem {es : List (ItemId × Nat)} {a : ItemId} {n : Nat}
    (distinct : (es.map Prod.fst).Nodup) (h : (a, n) ∈ es) : debt es a = n := by
  induction es with
  | nil => simp at h
  | cons e es ih =>
    rw [List.map_cons, List.nodup_cons] at distinct
    rcases List.mem_cons.1 h with rfl | h
    · rw [debt, if_pos rfl, debt_of_not_mem distinct.1, Nat.add_zero]
    · have ne : a ≠ e.1 := by
        intro same
        exact distinct.1 (same ▸ List.mem_map.2 ⟨_, h, rfl⟩)
      rw [debt, if_neg ne, ih distinct.2 h, Nat.zero_add]

theorem debt_toList (es : Edges) (a : ItemId) : debt es.toList a = es.multiplicity a := by
  by_cases h : a ∈ es.keys
  · obtain ⟨n, hn⟩ := OrderedMap.mem_keys_iff.1 h
    rw [debt_of_mem es.nodup_keys hn, Edges.multiplicity_of_mem hn]
  · rw [debt_of_not_mem h, Edges.multiplicity_of_not_mem h]

/-- Some children have lost references. Those that nothing holds any more are in `unheld`; the
others that no root holds are candidates. -/
structure Pays (children unheld : List ItemId) (c c' : Counter) : Prop where
  ids : c'.ids = c.ids
  entries : ∀ a, (c.entry a).Agrees (c'.entry a)
  others : ∀ a, a ∉ children → c'.entry a = c.entry a
  count : c'.count = c.count
  highest : c'.highest = c.highest
  stats : c'.stats = c.stats
  candidates : ∀ a, a ∈ c'.candidates.keys ↔ a ∈ c.candidates.keys ∨
    (a ∈ children ∧ c.rootCount a = 0 ∧ c'.referenceCount a ≠ 0)
  unheld : ∀ a, a ∈ unheld ↔ a ∈ children ∧ c.rootCount a = 0 ∧ c'.referenceCount a = 0

def setReferences (c : Counter) (id : ItemId) (n : Nat) : Counter :=
  c.setEntry id { c.entry id with references := n }

theorem ids_setReferences {c : Counter} {id : ItemId} (h : id ∈ c.ids) (n : Nat) :
    (c.setReferences id n).ids = c.ids := by
  rw [setReferences, ids_setEntry, Finset.insert_eq_of_mem h]

theorem agrees_setReferences (c : Counter) (id : ItemId) (n : Nat) (a : ItemId) :
    (c.entry a).Agrees ((c.setReferences id n).entry a) := by
  rw [setReferences, entry_setEntry]
  split
  · subst_vars
    exact ⟨rfl, rfl, rfl⟩
  · exact .refl _

/-- Sums that leave the references out depend on the rest of the entries alone. -/
theorem total_agrees {c d : Counter} (f : Entry → Nat) (hi : d.ids = c.ids)
    (hf : ∀ e e' : Entry, e.Agrees e' → f e' = f e) (he : ∀ a, (c.entry a).Agrees (d.entry a)) :
    d.total f = c.total f :=
  total_congr f hi fun a _ => hf _ _ (he a)

theorem inflow_agrees {c d : Counter} (hi : d.ids = c.ids)
    (he : ∀ a, (c.entry a).Agrees (d.entry a)) (a : ItemId) : d.inflow a = c.inflow a := by
  rw [inflow_eq_total, inflow_eq_total]
  exact total_agrees _ hi (fun e e' h => by rw [h.edges]) he

theorem weight_agrees {c d : Counter} (hi : d.ids = c.ids)
    (he : ∀ a, (c.entry a).Agrees (d.entry a)) : d.weight = c.weight := by
  rw [weight_eq_total, weight_eq_total]
  exact total_agrees _ hi (fun e e' h => by rw [Entry.weight, Entry.weight, h.leaves]) he

theorem Coherent.of_agrees {c d : Counter} {owed owed' : ItemId → Nat} (hc : Coherent owed c)
    (hi : d.ids = c.ids) (he : ∀ a, (c.entry a).Agrees (d.entry a)) (hn : d.count = c.count)
    (hr : ∀ a, d.referenceCount a + owed a = c.referenceCount a + owed' a) :
    Coherent owed' d := by
  constructor
  · intro p a
    rw [edges_eq, flow_eq, (he p).edges, ← flow_eq, ← edges_eq]
    exact hc.positive p a
  · intro a
    have h := hc.references a
    have h' := hr a
    rw [inflow_agrees hi he]
    omega
  · rw [hn, weight_agrees hi he]
    exact hc.weight_le

theorem Coherent.pay {c : Counter} {owed : ItemId → Nat} {id : ItemId} {n : Nat}
    (hc : Coherent (fun a => owed a + if a = id then n else 0) c) (h : id ∈ c.ids) :
    Coherent owed (c.setReferences id (c.referenceCount id - n)) := by
  refine hc.of_agrees (ids_setReferences h _) (agrees_setReferences c id _) rfl fun a => ?_
  have hr := hc.references id
  rw [referenceCount_eq (c.setReferences _ _), setReferences, entry_setEntry]
  by_cases ha : a = id
  · subst ha
    simp only [if_pos] at hr ⊢
    omega
  · simp only [if_neg ha, referenceCount_eq]
    omega

theorem Pays.nil (c : Counter) : Pays [] [] c c :=
  ⟨rfl, fun _ => .refl _, fun _ _ => rfl, rfl, rfl, rfl, by simp, by simp⟩

theorem Pays.cons {children unheld unheld' : List ItemId} {b : ItemId} {c d c' : Counter}
    (first : Pays [b] unheld c d) (others : Pays children unheld' d c') (new : b ∉ children) :
    Pays (b :: children) (unheld' ++ unheld) c c' := by
  have roots : ∀ a, d.rootCount a = c.rootCount a := by
    intro a
    rw [rootCount_eq, rootCount_eq, (first.entries a).roots]
  have kept : c'.referenceCount b = d.referenceCount b := by
    rw [referenceCount_eq, referenceCount_eq, others.others b new]
  constructor
  · exact others.ids.trans first.ids
  · exact fun a => (first.entries a).trans (others.entries a)
  · intro a ha
    rw [List.mem_cons, not_or] at ha
    rw [others.others a ha.2, first.others a (by simpa using ha.1)]
  · exact others.count.trans first.count
  · exact others.highest.trans first.highest
  · exact others.stats.trans first.stats
  · intro a
    rw [others.candidates, first.candidates, roots, List.mem_singleton, List.mem_cons]
    by_cases ha : a = b
    · subst ha
      rw [kept]
      tauto
    · tauto
  · intro a
    rw [List.mem_append, others.unheld, first.unheld, roots, List.mem_singleton, List.mem_cons]
    by_cases ha : a = b
    · subst ha
      rw [kept]
      tauto
    · tauto

theorem Pays.rooted {c : Counter} {id : ItemId} (n : Nat) (h : id ∈ c.ids)
    (hr : 0 < c.rootCount id) : Pays [id] [] c (c.setReferences id n) := by
  refine ⟨ids_setReferences h n, agrees_setReferences c id n, fun a ha => ?_, rfl, rfl, rfl,
    fun a => ?_, fun a => ?_⟩
  · rw [setReferences, entry_setEntry, if_neg (by simpa using ha)]
  · refine ⟨.inl, fun ha => ha.elim (fun ha => ha) ?_⟩
    rintro ⟨ha, h0, -⟩
    obtain rfl := List.mem_singleton.1 ha
    omega
  · constructor
    · intro ha
      simp at ha
    · rintro ⟨ha, h0, -⟩
      obtain rfl := List.mem_singleton.1 ha
      omega

theorem Pays.loose {c : Counter} {id : ItemId} (h : id ∈ c.ids) (hr : c.rootCount id = 0) :
    Pays [id] [id] c (c.setReferences id 0) := by
  have none_left : (c.setReferences id 0).referenceCount id = 0 := by
    rw [referenceCount_eq, setReferences, entry_setEntry, if_pos rfl]
  refine ⟨ids_setReferences h 0, agrees_setReferences c id 0, fun a ha => ?_, rfl, rfl, rfl,
    fun a => ?_, fun a => ?_⟩
  · rw [setReferences, entry_setEntry, if_neg (by simpa using ha)]
  · refine ⟨.inl, fun ha => ha.elim (fun ha => ha) ?_⟩
    rintro ⟨ha, -, held⟩
    obtain rfl := List.mem_singleton.1 ha
    exact absurd none_left held
  · refine ⟨fun ha => ?_, fun ha => ha.1⟩
    obtain rfl := List.mem_singleton.1 ha
    exact ⟨ha, hr, none_left⟩

theorem Pays.candidate {c : Counter} {id : ItemId} {n : Nat} (h : id ∈ c.ids)
    (hr : c.rootCount id = 0) (hn : n ≠ 0) :
    Pays [id] [] c ((c.setReferences id n).addCandidate id) := by
  have left : (c.setReferences id n).referenceCount id = n := by
    rw [referenceCount_eq, setReferences, entry_setEntry, if_pos rfl]
  refine ⟨ids_setReferences h n, agrees_setReferences c id n, fun a ha => ?_, rfl, rfl, rfl,
    fun a => ?_, fun a => ?_⟩
  · rw [entry_addCandidate, setReferences, entry_setEntry, if_neg (by simpa using ha)]
  · rw [mem_candidates_addCandidate, List.mem_singleton]
    refine ⟨fun ha => ha.elim ?_ .inl, fun ha => ha.elim .inr fun ha => .inl ha.1⟩
    rintro rfl
    exact .inr ⟨rfl, hr, by rwa [← left] at hn⟩
  · constructor
    · intro ha
      simp at ha
    · rintro ⟨ha, -, held⟩
      obtain rfl := List.mem_singleton.1 ha
      exact absurd (left.symm.trans held) hn

theorem releaseChildren_pays {owed : ItemId → Nat} (parent : ItemId) (es : List (ItemId × Nat)) :
    ∀ (unheld : List ItemId) (c : Counter), (es.map Prod.fst).Nodup →
      (∀ e ∈ es, e.1 ∈ c.ids) → Coherent (fun a => owed a + debt es a) c →
      ∃ more c', (releaseChildren parent es unheld).apply c = (.ok (more ++ unheld), c') ∧
        Coherent owed c' ∧ Pays (es.map Prod.fst) more c c' := by
  induction es with
  | nil =>
    intro unheld c _ _ hc
    exact ⟨[], c, rfl, hc.of_agrees rfl (fun _ => .refl _) rfl (fun _ => rfl), .nil c⟩
  | cons e es ih =>
    intro unheld c distinct tracked hc
    obtain ⟨b, n⟩ := e
    rw [List.map_cons, List.nodup_cons] at distinct
    have hb : b ∈ c.ids := tracked (b, n) (by simp)
    have enough : n ≤ c.referenceCount b := by
      have := hc.references b
      simp only [debt, if_pos] at this
      omega
    have paid : Coherent (fun a => owed a + debt es a)
        (c.setReferences b (c.referenceCount b - n)) := by
      refine Coherent.pay (hc.of_agrees rfl (fun _ => .refl _) rfl fun a => ?_) hb
      simp only [debt]
      omega
    have tracked' : ∀ e ∈ es, e.1 ∈ (c.setReferences b (c.referenceCount b - n)).ids := by
      intro e he
      rw [ids_setReferences hb]
      exact tracked e (by simp [he])
    have step : (releaseChildren parent ((b, n) :: es) unheld).apply c =
        if 0 < c.rootCount b then
          (releaseChildren parent es unheld).apply (c.setReferences b (c.referenceCount b - n))
        else if c.referenceCount b - n = 0 then
          (releaseChildren parent es (b :: unheld)).apply
            (c.setReferences b (c.referenceCount b - n))
        else
          (releaseChildren parent es unheld).apply
            ((c.setReferences b (c.referenceCount b - n)).addCandidate b) := by
      simp only [releaseChildren, Action.apply_bind, Action.apply_get, get?_of_mem hb]
      rw [referenceCount_eq] at enough ⊢
      rw [if_neg (Nat.not_lt.2 enough), rootCount_eq]
      simp only [Action.apply_bind, Action.apply_modify]
      split
      · rfl
      · split <;> rfl
    rw [step]
    have onward : ∀ d : Counter, d.tracked = (c.setReferences b (c.referenceCount b - n)).tracked →
        d.count = c.count → ∀ (unheld' : List ItemId), Pays [b] unheld' c d →
        ∃ more c', (releaseChildren parent es (unheld' ++ unheld)).apply d =
            (.ok (more ++ unheld), c') ∧
          Coherent owed c' ∧ Pays (((b, n) :: es).map Prod.fst) more c c' := by
      intro d ht hn unheld' first
      obtain ⟨more, c', run, coherent, others⟩ := ih (unheld' ++ unheld) d distinct.2
        (by rw [ids_congr ht]; exact tracked') (paid.congr ht hn)
      exact ⟨more ++ unheld', c', by rw [run, List.append_assoc], coherent,
        first.cons others distinct.1⟩
    by_cases hr : 0 < c.rootCount b
    · rw [if_pos hr]
      exact onward _ rfl rfl [] (.rooted _ hb hr)
    · have hr' : c.rootCount b = 0 := by omega
      rw [if_neg hr]
      by_cases hn : c.referenceCount b - n = 0
      · rw [if_pos hn]
        exact onward _ rfl rfl [b] (hn ▸ .loose hb hr')
      · rw [if_neg hn]
        exact onward ((c.setReferences b _).addCandidate b) rfl rfl [] (.candidate hb hr' hn)

end Counter

end LiveItems
