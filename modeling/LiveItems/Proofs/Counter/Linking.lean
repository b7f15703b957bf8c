import Mathlib.Algebra.BigOperators.Group.Finset.Piecewise
import Mathlib.Algebra.Order.BigOperators.Group.Multiset
import LiveItems.Counter.Registration
import LiveItems.Proofs.Counter.Ledger
set_option autoImplicit false

namespace LiveItems

def occurrences (a : ItemId) (xs : Multiset Item) : Nat := xs.countP fun x => x.id? = some a

def leafOccurrences (xs : Multiset Item) : Nat := xs.countP fun x => x.id? = none

@[simp] theorem occurrences_zero (a : ItemId) : occurrences a 0 = 0 := Multiset.countP_zero _

@[simp] theorem leafOccurrences_zero : leafOccurrences 0 = 0 := Multiset.countP_zero _

theorem occurrences_cons (a : ItemId) (x : Item) (xs : Multiset Item) :
    occurrences a (x ::ₘ xs) = occurrences a xs + if x.id? = some a then 1 else 0 :=
  Multiset.countP_cons _ x xs

theorem leafOccurrences_cons (x : Item) (xs : Multiset Item) :
    leafOccurrences (x ::ₘ xs) = leafOccurrences xs + if x.id? = none then 1 else 0 :=
  Multiset.countP_cons _ x xs

@[simp] theorem occurrences_cons_leaf (a : ItemId) (l : Leaf) (xs : Multiset Item) :
    occurrences a (.leaf l ::ₘ xs) = occurrences a xs := by
  rw [occurrences_cons, if_neg (by simp [Item.id?]), Nat.add_zero]

@[simp] theorem occurrences_cons_object (a : ItemId) (k : ObjectKind) (id : ItemId)
    (xs : Multiset Item) :
    occurrences a (.object k id ::ₘ xs) = occurrences a xs + if a = id then 1 else 0 := by
  rw [occurrences_cons]
  simp only [Item.id?, Option.some.injEq, eq_comm]

@[simp] theorem leafOccurrences_cons_leaf (l : Leaf) (xs : Multiset Item) :
    leafOccurrences (.leaf l ::ₘ xs) = leafOccurrences xs + 1 := by
  rw [leafOccurrences_cons, Item.id?, if_pos rfl]

@[simp] theorem leafOccurrences_cons_object (k : ObjectKind) (id : ItemId) (xs : Multiset Item) :
    leafOccurrences (.object k id ::ₘ xs) = leafOccurrences xs := by
  rw [leafOccurrences_cons, if_neg (by simp [Item.id?]), Nat.add_zero]

theorem occurrences_replicate (a : ItemId) (n : Nat) (x : Item) :
    occurrences a (Multiset.replicate n x) = if x.id? = some a then n else 0 := by
  induction n with
  | zero => simp
  | succ n ih =>
    rw [Multiset.replicate_succ, occurrences_cons, ih]
    split <;> rfl

theorem leafOccurrences_replicate (n : Nat) (x : Item) :
    leafOccurrences (Multiset.replicate n x) = if x.id? = none then n else 0 := by
  induction n with
  | zero => simp
  | succ n ih =>
    rw [Multiset.replicate_succ, leafOccurrences_cons, ih]
    split <;> rfl

theorem occurrences_add (a : ItemId) (xs ys : Multiset Item) :
    occurrences a (xs + ys) = occurrences a xs + occurrences a ys := Multiset.countP_add _ xs ys

theorem leafOccurrences_add (xs ys : Multiset Item) :
    leafOccurrences (xs + ys) = leafOccurrences xs + leafOccurrences ys :=
  Multiset.countP_add _ xs ys

theorem occurrences_pos {a : ItemId} {xs : Multiset Item} :
    0 < occurrences a xs ↔ ∃ x ∈ xs, x.id? = some a := Multiset.countP_pos

namespace Counter

/-! ## Linking -/

/-- The items `xs` have been added to what is recorded in `parent`; those in `new` had no entry. The
count is exact unless a sum has left the word. -/
structure Links (parent : ItemId) (xs : List Item) (new : List ItemId) (c c' : Counter) : Prop where
  nodup : new.Nodup
  fresh : ∀ a, a ∈ new ↔ a ∉ c.ids ∧ 0 < occurrences a xs
  ids : c'.ids = c.ids ∪ new.toFinset
  others : ∀ p, p ≠ parent → (c.entry p).Agrees (c'.entry p)
  positive : ∀ a ∈ (c'.edges parent).keys, a ∈ (c.edges parent).keys ∨ 0 < c'.flow parent a
  flow : ∀ a, c'.flow parent a = c.flow parent a + occurrences a xs
  leaves : c'.leafCount parent = c.leafCount parent + leafOccurrences xs
  roots : ∀ a, c'.rootCount a = c.rootCount a
  references : ∀ a, c'.referenceCount a = c.referenceCount a + occurrences a xs
  unwrapped : c'.Unwrapped → c.Unwrapped
  count : c'.Unwrapped → c'.count = c.count + new.length + leafOccurrences xs
  highest : c'.Unwrapped → ∀ n, c'.count ≤ n → max c'.highest n = max c.highest n
  stats : c'.stats = c.stats
  candidates : ∀ a, a ∈ c'.candidates.keys ↔ a ∈ c.candidates.keys ∨
    (c.referenceCount a = 0 ∧ c.rootCount a = 0 ∧ 0 < occurrences a xs)

theorem Links.nil (parent : ItemId) (c : Counter) : Links parent [] [] c c := by
  refine ⟨by simp, by simp, by simp, fun _ _ => .refl _, fun _ h => .inl h, by simp, by simp,
    fun _ => rfl, by simp, id, by simp, fun _ _ _ => rfl, rfl, by simp⟩

theorem occurrences_list_cons (a : ItemId) (x : Item) (xs : List Item) :
    occurrences a ((x :: xs : List Item) : Multiset Item) =
      occurrences a ([x] : List Item) + occurrences a xs := by
  rw [← occurrences_add]
  rfl

theorem leafOccurrences_list_cons (x : Item) (xs : List Item) :
    leafOccurrences ((x :: xs : List Item) : Multiset Item) =
      leafOccurrences ([x] : List Item) + leafOccurrences xs := by
  rw [← leafOccurrences_add]
  rfl

theorem Links.cons {parent : ItemId} {x : Item} {xs : List Item} {new new' : List ItemId}
    {c d c' : Counter} (first : Links parent [x] new c d) (others : Links parent xs new' d c') :
    Links parent (x :: xs) (new' ++ new) c c' := by
  have mem_d : ∀ a, a ∈ d.ids ↔ a ∈ c.ids ∨ a ∈ new := by
    intro a
    rw [first.ids, Finset.mem_union, List.mem_toFinset]
  constructor
  · refine List.nodup_append.2 ⟨others.nodup, first.nodup, fun a ha b hb e => ?_⟩
    exact ((others.fresh a).1 ha).1 ((mem_d a).2 (.inr (e ▸ hb)))
  · intro a
    rw [List.mem_append, others.fresh, first.fresh, mem_d, first.fresh,
      occurrences_list_cons a x xs]
    by_cases ha : a ∈ c.ids
    · simp [ha]
    · by_cases hx : 0 < occurrences a ([x] : List Item)
      · simp only [ha, hx, not_false_iff, true_and, or_true, true_iff]
        omega
      · simp only [ha, hx, not_false_iff, true_and, or_false, and_false]
        omega
  · rw [others.ids, first.ids, List.toFinset_append]
    ext a
    simp only [Finset.mem_union]
    tauto
  · exact fun p hp => (first.others p hp).trans (others.others p hp)
  · intro a ha
    rcases others.positive a ha with h | h
    · rcases first.positive a h with h | h
      · exact .inl h
      · refine .inr ?_
        rw [others.flow]
        omega
    · exact .inr h
  · intro a
    rw [others.flow, first.flow, occurrences_list_cons a x xs]
    omega
  · rw [others.leaves, first.leaves, leafOccurrences_list_cons x xs]
    omega
  · intro a
    rw [others.roots, first.roots]
  · intro a
    rw [others.references, first.references, occurrences_list_cons a x xs]
    omega
  · exact fun exact => first.unwrapped (others.unwrapped exact)
  · intro exact
    rw [others.count exact, first.count (others.unwrapped exact), leafOccurrences_list_cons x xs,
      List.length_append]
    omega
  · intro exact n hn
    have le : d.count ≤ c'.count := by
      rw [others.count exact]
      omega
    rw [others.highest exact n hn, first.highest (others.unwrapped exact) n (le.trans hn)]
  · rw [others.stats, first.stats]
  · intro a
    rw [others.candidates, first.candidates, first.references, first.roots,
      occurrences_list_cons a x xs]
    by_cases h0 : c.referenceCount a = 0 ∧ c.rootCount a = 0
    · obtain ⟨h0, h1⟩ := h0
      simp only [h0, h1, true_and, Nat.zero_add]
      constructor
      · rintro ((h | h) | ⟨-, h⟩)
        · exact .inl h
        · exact .inr (by omega)
        · exact .inr (by omega)
      · rintro (h | h)
        · exact .inl (.inl h)
        · by_cases hx : 0 < occurrences a ([x] : List Item)
          · exact .inl (.inr hx)
          · exact .inr (by omega)
    · constructor
      · rintro ((h | h) | h)
        · exact .inl h
        · exact .inr ⟨h.1, h.2.1, by omega⟩
        · exact absurd ⟨by omega, h.2.1⟩ h0
      · rintro (h | h)
        · exact .inl (.inl h)
        · exact absurd ⟨h.1, h.2.1⟩ h0

theorem highest_increase (c : Counter) (k n : Nat) (hn : (c.increase k).count ≤ n) :
    max (c.increase k).highest n = max c.highest n := by
  have reached : (c.increase k).highest = max c.highest (c.increase k).count := rfl
  rw [reached, max_assoc, max_eq_right hn]

theorem unwrapped_of_insertEntry {c : Counter} {id : ItemId} :
    (c.insertEntry id).Unwrapped → c.Unwrapped := unwrapped_of_increase (c := c.setEntry id {})

theorem count_insertEntry {c : Counter} {id : ItemId} :
    (c.insertEntry id).Unwrapped → (c.insertEntry id).count = c.count + [id].length :=
  count_increase (c := c.setEntry id {})

theorem highest_insertEntry (c : Counter) (id : ItemId) (n : Nat)
    (hn : (c.insertEntry id).count ≤ n) : max (c.insertEntry id).highest n = max c.highest n :=
  highest_increase (c.setEntry id {}) 1 n hn

theorem entry_insertEntry {c : Counter} {id : ItemId} (h : id ∉ c.ids) (a : ItemId) :
    (c.insertEntry id).entry a = c.entry a := by
  rw [insertEntry, entry_increase, entry_setEntry]
  split
  · subst_vars
    exact (entry_of_not_mem h).symm
  · rfl

theorem entry_gainReference {c : Counter} {id : ItemId} (h : id ∈ c.ids) (a : ItemId) :
    (c.gainReference id).entry a =
      { c.entry a with references := (c.entry a).references + if a = id then 1 else 0 } := by
  have set : (c.setEntry id { c.entry id with references := (c.entry id).references + 1 }).entry a =
      { c.entry a with references := (c.entry a).references + if a = id then 1 else 0 } := by
    rw [entry_setEntry]
    split
    · subst_vars
      rfl
    · rfl
  simp only [gainReference, get?_of_mem h]
  split
  · rw [entry_addCandidate, set]
  · rw [set]

theorem ids_gainReference {c : Counter} {id : ItemId} (h : id ∈ c.ids) :
    (c.gainReference id).ids = c.ids := by
  simp only [gainReference, get?_of_mem h]
  split <;> simp [h]

theorem candidates_gainReference {c : Counter} {id : ItemId} (h : id ∈ c.ids) (a : ItemId) :
    a ∈ (c.gainReference id).candidates.keys ↔ a ∈ c.candidates.keys ∨
      (a = id ∧ c.referenceCount id = 0 ∧ c.rootCount id = 0) := by
  simp only [gainReference, get?_of_mem h, referenceCount_eq, rootCount_eq]
  split
  · rename_i first
    rw [mem_candidates_addCandidate]
    simp only [first, and_self, and_true]
    exact or_comm
  · rename_i later
    simp only [later, and_false, or_false]
    rfl

theorem counts_gainReference (c : Counter) (id : ItemId) :
    (c.gainReference id).count = c.count ∧ (c.gainReference id).highest = c.highest ∧
      (c.gainReference id).stats = c.stats ∧ (c.gainReference id).sums = c.sums := by
  unfold gainReference
  split
  · exact ⟨rfl, rfl, rfl, rfl⟩
  · simp only
    split <;> exact ⟨rfl, rfl, rfl, rfl⟩

theorem occurrences_leaf (a : ItemId) (l : Leaf) :
    occurrences a ([.leaf l] : List Item) = 0 := by
  change occurrences a (Item.leaf l ::ₘ 0) = 0
  rw [occurrences_cons_leaf, occurrences_zero]

theorem leafOccurrences_leaf (l : Leaf) : leafOccurrences ([.leaf l] : List Item) = 1 := by
  change leafOccurrences (Item.leaf l ::ₘ 0) = 1
  rw [leafOccurrences_cons_leaf, leafOccurrences_zero]

theorem occurrences_object (a : ItemId) (k : ObjectKind) (id : ItemId) :
    occurrences a ([.object k id] : List Item) = if a = id then 1 else 0 := by
  change occurrences a (Item.object k id ::ₘ 0) = _
  rw [occurrences_cons_object, occurrences_zero, Nat.zero_add]

theorem leafOccurrences_object (k : ObjectKind) (id : ItemId) :
    leafOccurrences ([.object k id] : List Item) = 0 := by
  change leafOccurrences (Item.object k id ::ₘ 0) = 0
  rw [leafOccurrences_cons_object, leafOccurrences_zero]

theorem link_leaf {parent : ItemId} {c : Counter} (hp : parent ∈ c.ids) (l : Leaf)
    (pending : List ItemId) :
    ∃ new c', link parent (.leaf l) (c, pending) = (c', new ++ pending) ∧
      Links parent [.leaf l] new c c' := by
  refine ⟨[], (c.increase 1).modifyEntry parent fun e => { e with leaves := e.leaves + 1 }, rfl, ?_⟩
  have hp' : parent ∈ (c.increase 1).ids := hp
  have entry : ∀ a, ((c.increase 1).modifyEntry parent
      fun e => { e with leaves := e.leaves + 1 }).entry a =
      { c.entry a with leaves := (c.entry a).leaves + if a = parent then 1 else 0 } := by
    intro a
    rw [entry_modifyEntry _ hp', entry_increase, entry_increase]
    split
    · subst_vars
      rfl
    · rfl
  constructor
  · exact List.nodup_nil
  · intro a
    rw [occurrences_leaf]
    simp
  · rw [ids_modifyEntry, ids_increase, List.toFinset_nil, Finset.union_empty]
  · intro p hp
    rw [entry, if_neg hp]
    exact .refl _
  · intro a ha
    rw [edges_eq, entry] at ha
    rw [edges_eq]
    exact .inl ha
  · intro a
    rw [flow_eq, entry, flow_eq, occurrences_leaf]
    rfl
  · rw [leafCount, entry, if_pos rfl, leafOccurrences_leaf]
    rfl
  · intro a
    rw [rootCount_eq, entry, rootCount_eq]
  · intro a
    rw [referenceCount_eq, entry, referenceCount_eq, occurrences_leaf]
    rfl
  · exact unwrapped_of_increase (n := 1)
  · intro exact
    rw [leafOccurrences_leaf]
    exact count_increase exact
  · exact fun _ => highest_increase c 1
  · rfl
  · intro a
    rw [occurrences_leaf]
    exact ⟨.inl, fun h => h.elim (fun h => h) fun h => absurd h.2.2 (lt_irrefl 0)⟩

theorem enter_object (c : Counter) (id : ItemId) (pending : List ItemId) :
    ∃ new d, (if c.isTracked id then (c, pending) else (c.insertEntry id, id :: pending)) =
        (d, new ++ pending) ∧ new.Nodup ∧ (∀ a, a ∈ new ↔ a ∉ c.ids ∧ a = id) ∧
      d.ids = insert id c.ids ∧ d.ids = c.ids ∪ new.toFinset ∧ (∀ a, d.entry a = c.entry a) ∧
      (d.Unwrapped → c.Unwrapped) ∧ (d.Unwrapped → d.count = c.count + new.length) ∧
      (d.Unwrapped → ∀ n, d.count ≤ n → max d.highest n = max c.highest n) ∧
      d.stats = c.stats ∧ d.candidates = c.candidates := by
  by_cases h : id ∈ c.ids
  · rw [if_pos (mem_ids.1 h)]
    refine ⟨[], c, rfl, List.nodup_nil, fun a => ?_, (Finset.insert_eq_of_mem h).symm, by simp,
      fun _ => rfl, fun exact => exact, fun _ => rfl, fun _ _ _ => rfl, rfl, rfl⟩
    constructor
    · simp
    · rintro ⟨ha, rfl⟩
      exact absurd h ha
  · rw [if_neg fun tracked => h (mem_ids.2 tracked)]
    refine ⟨[id], c.insertEntry id, rfl, List.nodup_singleton id, fun a => ?_,
      by simp [insertEntry], ?_, entry_insertEntry h, unwrapped_of_insertEntry,
      count_insertEntry, fun _ => highest_insertEntry c id, rfl, rfl⟩
    · rw [List.mem_singleton]
      exact ⟨fun e => ⟨e ▸ h, e⟩, fun e => e.2⟩
    · ext a
      simp [insertEntry]

theorem link_object {parent : ItemId} {c : Counter} (hp : parent ∈ c.ids) (k : ObjectKind)
    (id : ItemId) (pending : List ItemId) :
    ∃ new c', link parent (.object k id) (c, pending) = (c', new ++ pending) ∧
      Links parent [.object k id] new c c' := by
  obtain ⟨new, d, enter, nodup, fresh, ids_d, ids_new, entry_d, unwrapped_d, count_d, highest_d,
    stats_d, candidates_d⟩ := enter_object c id pending
  have hp_d : parent ∈ d.ids := ids_d ▸ Finset.mem_insert_of_mem hp
  have hid : id ∈ (d.modifyEntry parent fun e => { e with edges := e.edges.add id }).ids := by
    rw [ids_modifyEntry, ids_d]
    exact Finset.mem_insert_self id _
  obtain ⟨count, highest, stats, sums⟩ := counts_gainReference
    (d.modifyEntry parent fun e => { e with edges := e.edges.add id }) id
  have exact_d : ((d.modifyEntry parent fun e =>
      { e with edges := e.edges.add id }).gainReference id).Unwrapped → d.Unwrapped := by
    rw [Unwrapped, sums]
    exact fun exact => exact
  have entry : ∀ a, ((d.modifyEntry parent fun e =>
      { e with edges := e.edges.add id }).gainReference id).entry a =
      { c.entry a with
        edges := if a = parent then (c.entry a).edges.add id else (c.entry a).edges
        references := (c.entry a).references + if a = id then 1 else 0 } := by
    intro a
    rw [entry_gainReference hid, entry_modifyEntry _ hp_d, entry_d, entry_d]
    by_cases h : a = parent
    · subst h
      simp
    · simp [h]
  refine ⟨new, (d.modifyEntry parent fun e => { e with edges := e.edges.add id }).gainReference id,
    by simp only [link, Item.id?, enter], ?_⟩
  constructor
  · exact nodup
  · intro a
    rw [fresh, occurrences_object]
    split <;> simp_all
  · rw [ids_gainReference hid, ids_modifyEntry, ids_new]
  · intro p hp
    rw [entry, if_neg hp]
    exact ⟨rfl, rfl, rfl⟩
  · intro a ha
    rw [edges_eq, entry] at ha
    rw [edges_eq, flow_eq, entry]
    simp only [if_pos] at ha ⊢
    rcases OrderedMap.mem_keys_insert.1 ha with rfl | ha
    · refine .inr ?_
      rw [Edges.multiplicity_add, if_pos rfl]
      omega
    · exact .inl ha
  · intro a
    rw [flow_eq, entry, flow_eq, occurrences_object]
    simp only [if_pos, Edges.multiplicity_add]
  · rw [leafCount, entry, leafOccurrences_object]
    rfl
  · intro a
    rw [rootCount_eq, entry, rootCount_eq]
  · intro a
    rw [referenceCount_eq, entry, referenceCount_eq, occurrences_object]
  · exact fun exact => unwrapped_d (exact_d exact)
  · intro exact
    rw [count, leafOccurrences_object, ← count_d (exact_d exact)]
    rfl
  · intro exact n hn
    rw [count] at hn
    rw [highest]
    exact highest_d (exact_d exact) n hn
  · rw [stats]
    exact stats_d
  · intro a
    rw [candidates_gainReference hid, referenceCount_eq, rootCount_eq, entry_modifyEntry _ hp_d,
      entry_d, entry_d, occurrences_object]
    change a ∈ d.candidates.keys ∨ _ ↔ _
    rw [candidates_d, referenceCount_eq, rootCount_eq]
    by_cases ha : a = id
    · subst ha
      by_cases h : a = parent
      · subst h
        simp
      · simp [h]
    · simp [ha]

theorem link_links {parent : ItemId} {c : Counter} (hp : parent ∈ c.ids) (x : Item)
    (pending : List ItemId) :
    ∃ new c', link parent x (c, pending) = (c', new ++ pending) ∧ Links parent [x] new c c' := by
  cases x with
  | leaf l => exact link_leaf hp l pending
  | object k id => exact link_object hp k id pending

theorem foldl_links {parent : ItemId} (xs : List Item) :
    ∀ (c : Counter) (pending : List ItemId), parent ∈ c.ids →
      ∃ new c', xs.foldl (fun s x => link parent x s) (c, pending) = (c', new ++ pending) ∧
        Links parent xs new c c' := by
  induction xs with
  | nil =>
    intro c pending _
    exact ⟨[], c, rfl, .nil parent c⟩
  | cons x xs ih =>
    intro c pending hp
    obtain ⟨new, d, eq, first⟩ := link_links hp x pending
    have hp_d : parent ∈ d.ids := by
      rw [first.ids]
      exact Finset.mem_union_left _ hp
    obtain ⟨new', c', eq', others⟩ := ih d (new ++ pending) hp_d
    refine ⟨new' ++ new, c', ?_, first.cons others⟩
    rw [List.foldl_cons, eq, eq', List.append_assoc]

/-! ## Coherence -/

namespace Links

variable {parent : ItemId} {xs : List Item} {new : List ItemId} {c c' : Counter}

theorem mem_ids (h : Links parent xs new c c') {a : ItemId} :
    a ∈ c'.ids ↔ a ∈ c.ids ∨ a ∈ new := by
  rw [h.ids, Finset.mem_union, List.mem_toFinset]

theorem subset (h : Links parent xs new c c') : c.ids ⊆ c'.ids := by
  rw [h.ids]
  exact Finset.subset_union_left

theorem waiting {pending : List ItemId} (h : Links parent xs new c c')
    (known : ∀ p ∈ pending, p ∈ c.ids) : ∀ p ∈ new ++ pending, p ∈ c'.ids := fun p hp =>
  h.mem_ids.2 ((List.mem_append.1 hp).symm.imp_left (known p))

theorem nodup_append {pending : List ItemId} (h : Links parent xs new c c')
    (nodup : pending.Nodup) (known : ∀ p ∈ pending, p ∈ c.ids) : (new ++ pending).Nodup := by
  refine List.nodup_append.2 ⟨h.nodup, nodup, fun a ha b hb same => ?_⟩
  exact ((h.fresh a).1 ha).1 (known a (same ▸ hb))

theorem card (h : Links parent xs new c c') : c'.ids.card = c.ids.card + new.length := by
  rw [h.ids, Finset.card_union_of_disjoint, List.toFinset_card_of_nodup h.nodup]
  refine Finset.disjoint_right.2 fun a ha => ?_
  exact ((h.fresh a).1 (List.mem_toFinset.1 ha)).1

theorem flow_eq (h : Links parent xs new c c') (p a : ItemId) :
    c'.flow p a = c.flow p a + if p = parent then occurrences a xs else 0 := by
  split
  · subst_vars
    exact h.flow a
  · rename_i hp
    rw [flow_agrees (h.others p hp), Nat.add_zero]

theorem leafCount_eq (h : Links parent xs new c c') (p : ItemId) :
    c'.leafCount p = c.leafCount p + if p = parent then leafOccurrences xs else 0 := by
  split
  · subst_vars
    exact h.leaves
  · rename_i hp
    rw [leafCount_agrees (h.others p hp), Nat.add_zero]

theorem inflow (h : Links parent xs new c c') (hp : parent ∈ c.ids) (a : ItemId) :
    c'.inflow a = c.inflow a + occurrences a xs := by
  rw [Counter.inflow, inflow_eq_sum h.subset]
  simp only [h.flow_eq, Finset.sum_add_distrib, Finset.sum_ite_eq', if_pos (h.subset hp)]

theorem weight (h : Links parent xs new c c') (hp : parent ∈ c.ids) :
    c'.weight = c.weight + new.length + leafOccurrences xs := by
  rw [weight_eq_sum (Finset.Subset.refl _), weight_eq_sum h.subset, h.card]
  simp only [h.leafCount_eq, Finset.sum_add_distrib, Finset.sum_ite_eq', if_pos (h.subset hp)]
  omega

end Links

/-- Linking keeps a counter coherent: what it adds to an object it adds to its references. -/
theorem Coherent.link {owed : ItemId → Nat} {parent : ItemId} {xs : List Item} {new : List ItemId}
    {c c' : Counter} (hc : Coherent owed c) (h : Links parent xs new c c') (hp : parent ∈ c.ids)
    (exact : c'.Unwrapped) : Coherent owed c' := by
  constructor
  · intro p a ha
    rw [h.flow_eq]
    by_cases same : p = parent
    · subst same
      rcases h.positive a ha with ha | ha
      · have := hc.positive p a ha
        omega
      · rwa [h.flow_eq] at ha
    · rw [edges_eq, (h.others p same).edges, ← edges_eq] at ha
      have := hc.positive p a ha
      omega
  · intro a
    have := hc.references a
    rw [h.references, h.inflow hp]
    omega
  · have := hc.weight_le
    rw [h.weight hp, h.count exact]
    omega

theorem ids_insertEntry (c : Counter) (id : ItemId) :
    (c.insertEntry id).ids = insert id c.ids := by
  rw [insertEntry, ids_increase, ids_setEntry]

theorem Coherent.insertEntry {owed : ItemId → Nat} {c : Counter} {id : ItemId}
    (hc : Coherent owed c) (h : id ∉ c.ids) (exact : (c.insertEntry id).Unwrapped) :
    Coherent owed (c.insertEntry id) := by
  have same := entry_insertEntry h
  have flows : ∀ p a, (c.insertEntry id).flow p a = c.flow p a := fun p a => by
    rw [flow_eq, same, ← flow_eq]
  have subset : c.ids ⊆ (c.insertEntry id).ids := by
    rw [ids_insertEntry]
    exact Finset.subset_insert _ _
  constructor
  · intro p a
    rw [flows, edges_eq, same, ← edges_eq]
    exact hc.positive p a
  · intro a
    rw [referenceCount_eq, same, ← referenceCount_eq, hc.references, inflow_eq_sum subset, inflow]
    simp only [flows]
  · have := hc.weight_le
    rw [weight_eq_sum (Finset.Subset.refl _)] at this ⊢
    rw [count_insertEntry exact]
    change _ ≤ c.count + 1
    rw [ids_insertEntry, Finset.card_insert_of_notMem h, Finset.sum_insert h]
    simp only [leafCount, same]
    rw [entry_of_not_mem h]
    change _ + (0 + _) ≤ _
    simp only [leafCount] at this
    omega

end Counter

end LiveItems
