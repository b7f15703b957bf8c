import LiveItems.Proofs.Counter.Payment
set_option autoImplicit false

/-!
# Cascades

Freeing objects takes a set of entries out of a counter. `Sheds` says what is left: the entries of
all others stay but for their references, nothing that stays holds what has gone, and what has lost
a reference without being freed has become a candidate. The main statement is `cascade_sheds`: a
cascade succeeds and frees what it starts with and what only freed objects have held.
-/

namespace LiveItems.Counter

/-- The counter after an object has lost its entry, while its children still count their references
from it. -/
def without (c : Counter) (id : ItemId) : Counter :=
  { (c.eraseEntry id).dropCandidate id with count := c.count - (c.entry id).weight }

@[simp] theorem ids_without (c : Counter) (id : ItemId) : (c.without id).ids = c.ids.erase id :=
  ids_eraseEntry c id

@[simp] theorem entry_without (c : Counter) (id a : ItemId) :
    (c.without id).entry a = if a = id then {} else c.entry a := entry_eraseEntry c id a

theorem mem_candidates_without (c : Counter) (id a : ItemId) :
    a ∈ (c.without id).candidates.keys ↔ a ∈ c.candidates.keys ∧ a ≠ id :=
  mem_candidates_dropCandidate (c.eraseEntry id) id a

theorem inflow_without (c : Counter) (id a : ItemId) :
    (c.without id).inflow a + c.flow id a = c.inflow a := by
  rw [inflow_eq_total, inflow_eq_total, flow_eq]
  by_cases h : id ∈ c.ids
  · exact total_eraseEntry (fun e => e.edges.multiplicity a) h
  · rw [entry_of_not_mem h, Edges.multiplicity_empty, Nat.add_zero]
    refine total_congr _ (by rw [ids_without, Finset.erase_eq_of_notMem h]) fun p hp => ?_
    rw [entry_without, if_neg]
    rintro rfl
    exact h hp

theorem weight_without {c : Counter} {id : ItemId} (h : id ∈ c.ids) :
    (c.without id).weight + (c.entry id).weight = c.weight := by
  rw [weight_eq_total, weight_eq_total]
  exact total_eraseEntry Entry.weight h

theorem Coherent.without {owed : ItemId → Nat} {c : Counter} {id : ItemId}
    (hc : Coherent owed c) (h : id ∈ c.ids) (free : c.referenceCount id = 0) :
    Coherent (fun a => owed a + c.flow id a) (c.without id) := by
  have weights := weight_without h
  have enough := hc.weight_le
  constructor
  · intro p a ha
    rw [edges_eq, entry_without] at ha
    rw [flow_eq, entry_without]
    split at ha
    · simp at ha
    · rename_i hp
      rw [if_neg hp, ← flow_eq]
      exact hc.positive p a (edges_eq c p ▸ ha)
  · intro a
    have hr := hc.references a
    have hi := inflow_without c id a
    have self := hc.no_flow free id
    rw [referenceCount_eq, entry_without]
    split
    · subst_vars
      change 0 = _
      omega
    · rw [← referenceCount_eq]
      omega
  · change _ ≤ c.count - (c.entry id).weight
    omega

/-- The object `id` has been freed. Of the objects that it has held, those that nothing holds any
more are in `unheld`, and the others that no root holds are candidates. -/
structure Frees (id : ItemId) (unheld : List ItemId) (c d : Counter) : Prop where
  ids : d.ids = c.ids.erase id
  entries : ∀ a, a ≠ id → (c.entry a).Agrees (d.entry a)
  references : ∀ a, a ≠ id → c.flow id a = 0 → d.referenceCount a = c.referenceCount a
  count : d.count + (c.entry id).weight = c.count
  highest : d.highest = c.highest
  stats : d.stats = c.stats
  candidates : ∀ a, a ∈ d.candidates.keys ↔ (a ∈ c.candidates.keys ∧ a ≠ id) ∨
    (0 < c.flow id a ∧ c.rootCount a = 0 ∧ d.referenceCount a ≠ 0)
  unheld : ∀ a, a ∈ unheld ↔ 0 < c.flow id a ∧ c.rootCount a = 0 ∧ d.referenceCount a = 0

namespace Frees

variable {owed : ItemId → Nat} {c d : Counter} {id : ItemId} {unheld : List ItemId}

theorem of_pays (hc : Coherent owed c) (hid : id ∈ c.ids) (hr : c.rootCount id = 0)
    (pays : Pays (c.edges id).keys unheld (c.without id) d) : Frees id unheld c d := by
  have entry : ∀ a, a ≠ id → (c.without id).entry a = c.entry a := by
    intro a ne
    rw [entry_without, if_neg ne]
  have rootless : ∀ a, (c.without id).rootCount a = 0 ↔ c.rootCount a = 0 := by
    intro a
    rw [rootCount_eq, rootCount_eq]
    by_cases same : a = id
    · subst same
      rw [entry_without, if_pos rfl]
      exact iff_of_true rfl (rootCount_eq c a ▸ hr)
    · rw [entry a same]
  refine ⟨?_, fun a ne => entry a ne ▸ pays.entries a, fun a ne none => ?_, ?_, pays.highest,
    pays.stats, fun a => ?_, fun a => ?_⟩
  · rw [pays.ids, ids_without]
  · have no_child : a ∉ (c.edges id).keys := fun child =>
      (hc.mem_keys_iff.1 child).ne' none
    rw [referenceCount_eq, referenceCount_eq, pays.others a no_child, entry a ne]
  · have count : d.count = c.count - (c.entry id).weight := pays.count
    have lighter := weight_without hid
    have enough := hc.weight_le
    omega
  · rw [pays.candidates, mem_candidates_without, hc.mem_keys_iff, rootless]
  · rw [pays.unheld, hc.mem_keys_iff, rootless]

variable (frees : Frees id unheld c d)
include frees

theorem rootCount {a : ItemId} (ne : a ≠ id) : d.rootCount a = c.rootCount a :=
  rootCount_agrees (frees.entries a ne)

theorem flow_pos {p a : ItemId} : 0 < d.flow p a ↔ 0 < c.flow p a ∧ p ≠ id := by
  by_cases same : p = id
  · subst same
    have gone : d.entry p = {} := entry_of_not_mem (frees.ids ▸ Finset.notMem_erase p _)
    simp [flow_eq, gone]
  · rw [flow_agrees (frees.entries p same)]
    simp [same]

theorem referenceless (hc : Coherent owed c) {a : ItemId} (ne : a ≠ id)
    (loose : c.referenceCount a = 0) : d.referenceCount a = 0 := by
  rw [frees.references a ne (hc.no_flow loose id), loose]

end Frees

theorem freeOne_frees {owed : ItemId → Nat} {c : Counter} {id : ItemId} (hc : Coherent owed c)
    (h : id ∈ c.ids) (hr : c.rootCount id = 0) (free : c.referenceCount id = 0) :
    ∃ unheld d, (freeOne id).apply c = (.ok unheld, d) ∧ Coherent owed d ∧
      Frees id unheld c d := by
  have enough : (c.entry id).weight ≤ c.count := by
    have := weight_without h
    have := hc.weight_le
    omega
  have step : (freeOne id).apply c =
      (releaseChildren id (c.edges id).toList []).apply (c.without id) := by
    rw [rootCount_eq] at hr
    rw [referenceCount_eq] at free
    have isFree : (c.entry id).isFree = true := by simp [Entry.isFree, hr, free]
    have small : ¬((c.eraseEntry id).dropCandidate id).count < (c.entry id).weight :=
      Nat.not_lt.2 enough
    simp only [freeOne, Action.apply_bind, Action.apply_get, get?_of_mem h, Action.apply_modify,
      isFree, Bool.not_true, Bool.false_eq_true, if_false, apply_decrease, if_neg small, edges_eq]
    rfl
  have debts : Coherent (fun a => owed a + debt (c.edges id).toList a) (c.without id) := by
    refine (hc.without h free).of_agrees rfl (fun _ => .refl _) rfl fun a => ?_
    rw [debt_toList, flow]
  have tracked : ∀ e ∈ (c.edges id).toList, e.1 ∈ (c.without id).ids := by
    intro e he
    have flows := hc.positive id e.1 (OrderedMap.mem_keys_iff.2 ⟨e.2, he⟩)
    rw [ids_without, Finset.mem_erase]
    refine ⟨?_, hc.closed flows⟩
    rintro same
    rw [same, hc.no_flow free] at flows
    exact absurd flows (lt_irrefl 0)
  obtain ⟨unheld, d, run, coherent, pays⟩ := releaseChildren_pays id (c.edges id).toList []
    (c.without id) (c.edges id).nodup_keys tracked debts
  exact ⟨unheld, d, by rw [step, run, List.append_nil], coherent, .of_pays hc h hr pays⟩

/-- The set takes in every object without roots that is in `touched` or has references, once all
its references come from the set. -/
def Swallows (c : Counter) (touched S : Set ItemId) : Prop :=
  ∀ a ∈ c.ids, c.rootCount a = 0 → (a ∈ touched ∨ ∃ p, 0 < c.flow p a) →
    (∀ p, 0 < c.flow p a → p ∈ S) → a ∈ S

/-- The objects in `gone` have been freed: those in `seeds` together, the others because nothing
held them any more. The objects in `touched` have lost references otherwise. -/
structure Sheds (seeds touched : Set ItemId) (gone : Finset ItemId) (c c' : Counter) : Prop where
  tracked : gone ⊆ c.ids
  ids : c'.ids = c.ids \ gone
  entries : ∀ a, a ∉ gone → (c.entry a).Agrees (c'.entry a)
  rootless : ∀ a ∈ gone, c.rootCount a = 0
  closed : ∀ a ∈ gone, ∀ p, 0 < c.flow p a → p ∈ gone
  count : c'.count + ∑ a ∈ gone, (c.entry a).weight = c.count
  highest : c'.highest = c.highest
  stats : c'.stats = c.stats
  candidates : ∀ a, a ∈ c'.candidates.keys ↔ (a ∈ c.candidates.keys ∧ a ∉ gone) ∨
    (a ∈ c'.ids ∧ c.rootCount a = 0 ∧ (a ∈ touched ∨ ∃ p ∈ gone, 0 < c.flow p a))
  held : ∀ a ∈ c'.ids, c'.rootCount a = 0 → c'.referenceCount a = 0 → c.referenceCount a = 0
  least : ∀ S : Set ItemId, seeds ⊆ S → c.Swallows touched S → ∀ a ∈ gone, a ∈ S

namespace Sheds

variable {seeds touched : Set ItemId} {gone : Finset ItemId} {c c' : Counter}

theorem nothing (h : ∀ a ∈ touched, a ∈ c.ids → 0 < c.rootCount a) :
    Sheds seeds touched ∅ c c := by
  refine ⟨by simp, by simp, fun _ _ => .refl _, by simp, by simp, by simp, rfl, rfl, ?_,
    fun _ _ _ h => h, by simp⟩
  intro a
  constructor
  · intro ha
    exact .inl ⟨ha, by simp⟩
  · rintro (ha | ⟨ha, hr, ht | ⟨p, hp, -⟩⟩)
    · exact ha.1
    · have := h a ht ha
      omega
    · simp at hp

theorem mem_ids (h : Sheds seeds touched gone c c') {a : ItemId} :
    a ∈ c'.ids ↔ a ∈ c.ids ∧ a ∉ gone := by
  rw [h.ids, Finset.mem_sdiff]

theorem flow (h : Sheds seeds touched gone c c') {p : ItemId} (hp : p ∉ gone) (a : ItemId) :
    c'.flow p a = c.flow p a := flow_agrees (h.entries p hp) a

theorem flow_pos (h : Sheds seeds touched gone c c') {p a : ItemId} :
    0 < c'.flow p a ↔ 0 < c.flow p a ∧ p ∉ gone := by
  constructor
  · intro hf
    have hp := (h.mem_ids.1 (mem_ids_of_flow hf)).2
    exact ⟨h.flow hp a ▸ hf, hp⟩
  · rintro ⟨hf, hp⟩
    rwa [h.flow hp]

theorem rootCount (h : Sheds seeds touched gone c c') {a : ItemId} (ha : a ∉ gone) :
    c'.rootCount a = c.rootCount a := rootCount_agrees (h.entries a ha)

theorem weight (h : Sheds seeds touched gone c c') :
    c'.weight + ∑ a ∈ gone, (c.entry a).weight = c.weight := by
  rw [weight_eq_total, weight_eq_total, total, total, ← Finset.sum_sdiff h.tracked, ← h.ids]
  congr 1
  refine Finset.sum_congr rfl fun a ha => ?_
  rw [Entry.weight, Entry.weight, (h.entries a (h.mem_ids.1 ha).2).leaves]

theorem trans {seeds' touched' : Set ItemId} {gone' : Finset ItemId} {d : Counter}
    (first : Sheds seeds touched gone c d) (second : Sheds seeds' touched' gone' d c') :
    Sheds (seeds ∪ seeds') (touched ∪ touched') (gone ∪ gone') c c' := by
  have apart : ∀ a ∈ gone', a ∉ gone := fun a ha => (first.mem_ids.1 (second.tracked ha)).2
  have mem : ∀ a, a ∈ c'.ids ↔ a ∈ c.ids ∧ a ∉ gone ∧ a ∉ gone' := by
    intro a
    rw [second.mem_ids, first.mem_ids, and_assoc]
  constructor
  · exact Finset.union_subset first.tracked fun a ha => (first.mem_ids.1 (second.tracked ha)).1
  · ext a
    rw [mem, Finset.mem_sdiff, Finset.mem_union, not_or]
  · intro a ha
    rw [Finset.mem_union, not_or] at ha
    exact (first.entries a ha.1).trans (second.entries a ha.2)
  · intro a ha
    rcases Finset.mem_union.1 ha with ha | ha
    · exact first.rootless a ha
    · rw [← first.rootCount (apart a ha)]
      exact second.rootless a ha
  · intro a ha p hp
    rw [Finset.mem_union]
    rcases Finset.mem_union.1 ha with ha | ha
    · exact .inl (first.closed a ha p hp)
    · by_cases h : p ∈ gone
      · exact .inl h
      · exact .inr (second.closed a ha p (first.flow_pos.2 ⟨hp, h⟩))
  · have weights : ∑ a ∈ gone', (d.entry a).weight = ∑ a ∈ gone', (c.entry a).weight := by
      refine Finset.sum_congr rfl fun a ha => ?_
      rw [Entry.weight, Entry.weight, (first.entries a (apart a ha)).leaves]
    have before := first.count
    have after := second.count
    rw [Finset.sum_union (Finset.disjoint_right.2 apart)]
    omega
  · rw [second.highest, first.highest]
  · rw [second.stats, first.stats]
  · intro a
    rw [second.candidates, first.candidates, Finset.mem_union, not_or]
    by_cases ha : a ∈ c'.ids
    · obtain ⟨hc, hg, hg'⟩ := (mem a).1 ha
      have hd : a ∈ d.ids := first.mem_ids.2 ⟨hc, hg⟩
      have lost : (∃ p ∈ gone ∪ gone', 0 < c.flow p a) ↔
          (∃ p ∈ gone, 0 < c.flow p a) ∨ ∃ p ∈ gone', 0 < d.flow p a := by
        constructor
        · rintro ⟨p, hp, hf⟩
          rcases Finset.mem_union.1 hp with hp | hp
          · exact .inl ⟨p, hp, hf⟩
          · exact .inr ⟨p, hp, first.flow_pos.2 ⟨hf, apart p hp⟩⟩
        · rintro (⟨p, hp, hf⟩ | ⟨p, hp, hf⟩)
          · exact ⟨p, Finset.mem_union_left _ hp, hf⟩
          · exact ⟨p, Finset.mem_union_right _ hp, (first.flow_pos.1 hf).1⟩
      simp only [ha, hd, hg, hg', first.rootCount hg, lost, Set.mem_union, not_false_iff, true_and,
        and_true]
      rw [or_assoc, ← and_or_left, or_or_or_comm]
    · have out : a ∉ gone' → a ∉ d.ids := fun hg' hd => ha (second.mem_ids.2 ⟨hd, hg'⟩)
      by_cases hg' : a ∈ gone'
      · simp [ha, hg']
      · simp [ha, hg', out hg']
  · intro a ha h0 loose
    have hd := (second.mem_ids.1 ha)
    have loose_d := second.held a ha h0 loose
    refine first.held a hd.1 ?_ loose_d
    rwa [second.rootCount hd.2] at h0
  · intro S hS swallows a ha
    have first_mem := first.least S (fun a ha => hS (.inl ha)) fun a hi h0 lost preds =>
      swallows a hi h0 (lost.imp_left .inl) preds
    rcases Finset.mem_union.1 ha with ha | ha
    · exact first_mem a ha
    · refine second.least S (fun a ha => hS (.inr ha)) (fun b hb h0 lost preds => ?_) a ha
      obtain ⟨hi, hg⟩ := first.mem_ids.1 hb
      refine swallows b hi ((first.rootCount hg) ▸ h0) ?_ fun p hp => ?_
      · rcases lost with seed | ⟨p, hp⟩
        · exact .inl (.inr seed)
        · exact .inr ⟨p, (first.flow_pos.1 hp).1⟩
      · by_cases h : p ∈ gone
        · exact first_mem p h
        · exact preds p (first.flow_pos.2 ⟨hp, h⟩)

end Sheds

theorem Sheds.cons {owed : ItemId → Nat} {c d c' : Counter} {id : ItemId} {unheld : List ItemId}
    {waiting waiting' : Set ItemId} {gone : Finset ItemId} (hc : Coherent owed c) (hid : id ∈ c.ids)
    (hr : c.rootCount id = 0) (free : c.referenceCount id = 0) (first : id ∈ waiting)
    (frees : Frees id unheld c d) (others : Sheds ∅ waiting' gone d c')
    (done : ∀ a ∈ waiting', a ∉ c'.ids) (done_unheld : ∀ a ∈ unheld, a ∈ waiting')
    (done_first : ∀ a ∈ waiting, a = id ∨ a ∈ waiting' ∨ a ∉ c.ids)
    (new : ∀ a ∈ waiting', a ∈ unheld ∨ a ∈ waiting) :
    Sheds ∅ waiting (insert id gone) c c' := by
  have not_gone : id ∉ gone := fun h => Finset.notMem_erase id _ (frees.ids ▸ others.tracked h)
  have ne_id : ∀ a ∈ gone, a ≠ id := fun a ha same => not_gone (same ▸ ha)
  have no_flow := hc.no_flow free
  have mem : ∀ a, a ∈ c'.ids ↔ a ∈ c.ids ∧ a ≠ id ∧ a ∉ gone := by
    intro a
    rw [others.mem_ids, frees.ids, Finset.mem_erase]
    tauto
  constructor
  · intro a ha
    rcases Finset.mem_insert.1 ha with rfl | ha
    · exact hid
    · exact Finset.mem_of_mem_erase (frees.ids ▸ others.tracked ha)
  · ext a
    rw [mem, Finset.mem_sdiff, Finset.mem_insert, not_or]
  · intro a ha
    rw [Finset.mem_insert, not_or] at ha
    exact (frees.entries a ha.1).trans (others.entries a ha.2)
  · intro a ha
    rcases Finset.mem_insert.1 ha with rfl | ha
    · exact hr
    · rw [← frees.rootCount (ne_id a ha)]
      exact others.rootless a ha
  · intro a ha p hp
    rw [Finset.mem_insert]
    rcases Finset.mem_insert.1 ha with rfl | ha
    · rw [no_flow] at hp
      exact absurd hp (lt_irrefl 0)
    · by_cases h : p = id
      · exact .inl h
      · exact .inr (others.closed a ha p (frees.flow_pos.2 ⟨hp, h⟩))
  · have weights : ∑ a ∈ gone, (d.entry a).weight = ∑ a ∈ gone, (c.entry a).weight := by
      refine Finset.sum_congr rfl fun a ha => ?_
      rw [Entry.weight, Entry.weight, (frees.entries a (ne_id a ha)).leaves]
    have count := frees.count
    have later := others.count
    rw [Finset.sum_insert not_gone]
    omega
  · rw [others.highest, frees.highest]
  · rw [others.stats, frees.stats]
  · intro a
    rw [others.candidates, frees.candidates]
    constructor
    · rintro (⟨⟨ha, ne⟩ | ⟨hf, h0, -⟩, hg⟩ | ⟨ha, h0, hw | ⟨p, hp, hf⟩⟩)
      · exact .inl ⟨ha, by simp [ne, hg]⟩
      · have ne : a ≠ id := by
          rintro rfl
          rw [no_flow] at hf
          exact absurd hf (lt_irrefl 0)
        exact .inr ⟨(mem a).2 ⟨hc.closed hf, ne, hg⟩, h0,
          .inr ⟨id, Finset.mem_insert_self _ _, hf⟩⟩
      · exact absurd ha (done a hw)
      · have ne := ((mem a).1 ha).2.1
        exact .inr ⟨ha, frees.rootCount ne ▸ h0,
          .inr ⟨p, Finset.mem_insert_of_mem hp, (frees.flow_pos.1 hf).1⟩⟩
    · rintro (⟨ha, hg⟩ | ⟨ha, h0, hw | ⟨p, hp, hf⟩⟩)
      · rw [Finset.mem_insert, not_or] at hg
        exact .inl ⟨.inl ⟨ha, hg.1⟩, hg.2⟩
      · obtain ⟨hi, ne, -⟩ := (mem a).1 ha
        rcases done_first a hw with h | h | h
        · exact absurd h ne
        · exact absurd ha (done a h)
        · exact absurd hi h
      · obtain ⟨hi, ne, hg⟩ := (mem a).1 ha
        rcases Finset.mem_insert.1 hp with rfl | hp
        · -- what the freed object has held is a candidate, unless it waits to be freed itself
          refine .inl ⟨.inr ⟨hf, h0, fun loose => ?_⟩, hg⟩
          exact done a (done_unheld a ((frees.unheld a).2 ⟨hf, h0, loose⟩)) ha
        · exact .inr ⟨ha, (frees.rootCount ne).trans h0,
            .inr ⟨p, hp, frees.flow_pos.2 ⟨hf, ne_id p hp⟩⟩⟩
  · intro a ha h0 loose
    obtain ⟨-, ne, hg⟩ := (mem a).1 ha
    have loose_d := others.held a ha h0 loose
    rw [others.rootCount hg, frees.rootCount ne] at h0
    rcases Nat.eq_zero_or_pos (c.flow id a) with none | child
    · rwa [← frees.references a ne none]
    · exact absurd ha (done a (done_unheld a ((frees.unheld a).2 ⟨child, h0, loose_d⟩)))
  · intro S hS swallows a ha
    have id_mem : id ∈ S := by
      refine swallows id hid hr (.inl first) fun p hp => ?_
      rw [no_flow] at hp
      exact absurd hp (lt_irrefl 0)
    rcases Finset.mem_insert.1 ha with rfl | ha
    · exact id_mem
    · refine others.least S hS (fun b hb hb0 hb1 hb2 => ?_) a ha
      obtain ⟨ne, hbi⟩ := Finset.mem_erase.1 (frees.ids ▸ hb)
      refine swallows b hbi (frees.rootCount ne ▸ hb0) ?_ fun p hp => ?_
      · rcases hb1 with hw | ⟨p, hp⟩
        · rcases new b hw with hm | hw
          · exact .inr ⟨id, ((frees.unheld b).1 hm).1⟩
          · exact .inl hw
        · exact .inr ⟨p, (frees.flow_pos.1 hp).1⟩
      · by_cases h : p = id
        · exact h ▸ id_mem
        · exact hb2 p (frees.flow_pos.2 ⟨hp, h⟩)

theorem next_tracked (c : Counter) (waiting : List ItemId) :
    ((waiting.dropWhile fun id => !c.isTracked id) = [] ∧ ∀ a ∈ waiting, a ∉ c.ids) ∨
    ∃ id rest, (waiting.dropWhile fun id => !c.isTracked id) = id :: rest ∧ id ∈ c.ids ∧
      (∀ a ∈ waiting, a = id ∨ a ∈ rest ∨ a ∉ c.ids) ∧ ∀ a, a = id ∨ a ∈ rest → a ∈ waiting := by
  induction waiting with
  | nil => exact .inl ⟨rfl, by simp⟩
  | cons b waiting ih =>
    by_cases hb : b ∈ c.ids
    · refine .inr ⟨b, waiting, ?_, hb, fun a ha => ?_, fun a ha => ?_⟩
      · rw [List.dropWhile_cons_of_neg (by simpa using mem_ids.1 hb)]
      · exact (List.mem_cons.1 ha).elim .inl fun ha => .inr (.inl ha)
      · exact List.mem_cons.2 ha
    · rw [List.dropWhile_cons_of_pos (by simpa [mem_ids] using hb)]
      rcases ih with ⟨none, all⟩ | ⟨id, rest, eq, hid, all, mem⟩
      · refine .inl ⟨none, fun a ha => ?_⟩
        rcases List.mem_cons.1 ha with rfl | ha
        · exact hb
        · exact all a ha
      · refine .inr ⟨id, rest, eq, hid, fun a ha => ?_, fun a ha => ?_⟩
        · rcases List.mem_cons.1 ha with rfl | ha
          · exact .inr (.inr hb)
          · exact all a ha
        · exact List.mem_cons_of_mem _ (mem a ha)

/-- A cascade over objects that nothing holds frees them and all that only they have held. -/
theorem cascade_sheds {owed : ItemId → Nat} (fuel : Nat) :
    ∀ (waiting : List ItemId) (c : Counter), Coherent owed c → c.ids.card ≤ fuel →
      (∀ a ∈ waiting, a ∈ c.ids → c.rootCount a = 0 ∧ c.referenceCount a = 0) →
      ∃ gone c', (cascade fuel waiting).apply c = (.ok (), c') ∧ Coherent owed c' ∧
        Sheds ∅ {a | a ∈ waiting} gone c c' ∧ ∀ a ∈ waiting, a ∉ c'.ids := by
  induction fuel with
  | zero =>
    intro waiting c hc small _
    have empty : ∀ a, a ∉ c.ids := by
      intro a ha
      have := Finset.card_pos.2 ⟨a, ha⟩
      omega
    exact ⟨∅, c, rfl, hc, .nothing fun a _ ha => absurd ha (empty a), fun a _ => empty a⟩
  | succ fuel ih =>
    intro waiting c hc small free
    rcases next_tracked c waiting with ⟨none, untracked⟩ | ⟨id, rest, next, hid, all, mem⟩
    · refine ⟨∅, c, ?_, hc, .nothing fun a hw ha => absurd ha (untracked a hw), untracked⟩
      simp only [cascade, Action.apply_bind, Action.apply_get, none, Action.apply_pure]
    · -- one tracked object less, so that the number of tracked objects is enough fuel
      obtain ⟨hr, loose⟩ := free id (mem id (.inl rfl)) hid
      obtain ⟨unheld, d, run, hd, frees⟩ := freeOne_frees hc hid hr loose
      have smaller : d.ids.card ≤ fuel := by
        rw [frees.ids, Finset.card_erase_of_mem hid]
        omega
      have free_d : ∀ a ∈ unheld ++ rest, a ∈ d.ids →
          d.rootCount a = 0 ∧ d.referenceCount a = 0 := by
        intro a ha hi
        obtain ⟨ne, hi⟩ := Finset.mem_erase.1 (frees.ids ▸ hi)
        rw [frees.rootCount ne]
        rcases List.mem_append.1 ha with ha | ha
        · exact ((frees.unheld a).1 ha).2
        · obtain ⟨h0, loose⟩ := free a (mem a (.inr ha)) hi
          exact ⟨h0, frees.referenceless hc ne loose⟩
      obtain ⟨gone, c', runs, coherent, sheds, done⟩ := ih (unheld ++ rest) d hd smaller free_d
      refine ⟨insert id gone, c', ?_, coherent, ?_, fun a ha => ?_⟩
      · simp only [cascade, Action.apply_bind, Action.apply_get, next, run, runs]
      · refine .cons hc hid hr loose (mem id (.inl rfl)) frees sheds done
          (fun a ha => List.mem_append_left _ ha) (fun a ha => ?_) (fun a ha => ?_)
        · exact (all a ha).imp_right (.imp_left fun ha => List.mem_append_right _ ha)
        · exact (List.mem_append.1 ha).imp_right fun ha => mem a (.inr ha)
      · intro hi
        have hi' := sheds.mem_ids.1 hi
        obtain ⟨ne, hi'⟩ := Finset.mem_erase.1 (frees.ids ▸ hi'.1)
        rcases all a ha with h | h | h
        · exact ne h
        · exact done a (List.mem_append_right _ h) hi
        · exact h hi'

end LiveItems.Counter
