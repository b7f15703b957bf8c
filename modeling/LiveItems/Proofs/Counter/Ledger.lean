import Mathlib.Algebra.BigOperators.Group.Finset.Basic
import Mathlib.Algebra.GroupWithZero.Nat
import Mathlib.Algebra.Order.BigOperators.Group.Finset
import Mathlib.Logic.Relation
import LiveItems.Counter.Release
set_option autoImplicit false

/-!
# The ledger of a counter

A counter read as a ledger: the tracked objects, the recorded number of occurrences of one object in
another, and the sums of these. A counter is coherent when the references of every object are what
is recorded about it, up to references that are about to be taken away and are given as `owed`.
-/

namespace LiveItems

/-- The entries agree but for their references. -/
structure Entry.Agrees (e f : Entry) : Prop where
  roots : f.roots = e.roots
  edges : f.edges = e.edges
  leaves : f.leaves = e.leaves

theorem Entry.Agrees.refl (e : Entry) : e.Agrees e := ⟨rfl, rfl, rfl⟩

theorem Entry.Agrees.trans {e f g : Entry} (h : e.Agrees f) (h' : f.Agrees g) : e.Agrees g :=
  ⟨h'.roots.trans h.roots, h'.edges.trans h.edges, h'.leaves.trans h.leaves⟩

namespace Counter

def ids (c : Counter) : Finset ItemId := c.tracked.keys.toFinset

def entry (c : Counter) (a : ItemId) : Entry := (c.get? a).getD {}

def leafCount (c : Counter) (a : ItemId) : Nat := (c.entry a).leaves

/-- How often `a` is recorded in `p`. -/
def flow (c : Counter) (p a : ItemId) : Nat := (c.edges p).multiplicity a

def total (f : Entry → Nat) (c : Counter) : Nat := ∑ p ∈ c.ids, f (c.entry p)

def inflow (c : Counter) (a : ItemId) : Nat := ∑ p ∈ c.ids, c.flow p a

def weight (c : Counter) : Nat := ∑ p ∈ c.ids, (1 + c.leafCount p)

structure Coherent (owed : ItemId → Nat) (c : Counter) : Prop where
  positive : ∀ p a, a ∈ (c.edges p).keys → 0 < c.flow p a
  references : ∀ a, c.referenceCount a = c.inflow a + owed a
  weight_le : c.weight ≤ c.count

theorem mem_ids {c : Counter} {a : ItemId} : a ∈ c.ids ↔ c.isTracked a = true := by
  rw [ids, List.mem_toFinset, Std.ExtTreeMap.mem_keys, isTracked, Std.ExtTreeMap.mem_iff_contains]

theorem mem_ids_iff {c : Counter} {a : ItemId} : a ∈ c.ids ↔ ∃ e, c.get? a = some e := by
  rw [mem_ids, isTracked_iff]

theorem get?_of_mem {c : Counter} {a : ItemId} (h : a ∈ c.ids) : c.get? a = some (c.entry a) := by
  obtain ⟨e, he⟩ := mem_ids_iff.1 h
  rw [entry, he, Option.getD_some]

theorem get?_of_not_mem {c : Counter} {a : ItemId} (h : a ∉ c.ids) : c.get? a = none := by
  rw [get?_eq_none_iff]
  simpa [mem_ids] using h

theorem mem_ids_of_get? {c : Counter} {a : ItemId} {e : Entry} (h : c.get? a = some e) :
    a ∈ c.ids := mem_ids_iff.2 ⟨e, h⟩

theorem entry_of_get? {c : Counter} {a : ItemId} {e : Entry} (h : c.get? a = some e) :
    c.entry a = e := by
  rw [entry, h, Option.getD_some]

theorem entry_of_not_mem {c : Counter} {a : ItemId} (h : a ∉ c.ids) : c.entry a = {} := by
  rw [entry, get?_of_not_mem h, Option.getD_none]

theorem card_ids (c : Counter) : c.ids.card = c.tracked.size := by
  rw [ids, List.toFinset_card_of_nodup Std.ExtTreeMap.nodup_keys, Std.ExtTreeMap.length_keys]

theorem edges_eq (c : Counter) (a : ItemId) : c.edges a = (c.entry a).edges := by
  unfold edges entry
  cases c.get? a <;> rfl

theorem rootCount_eq (c : Counter) (a : ItemId) : c.rootCount a = (c.entry a).roots := by
  unfold rootCount entry
  cases c.get? a <;> rfl

theorem referenceCount_eq (c : Counter) (a : ItemId) :
    c.referenceCount a = (c.entry a).references := by
  unfold referenceCount entry
  cases c.get? a <;> rfl

theorem flow_eq (c : Counter) (p a : ItemId) : c.flow p a = (c.entry p).edges.multiplicity a := by
  rw [flow, edges_eq]

theorem mem_ids_of_flow {c : Counter} {p a : ItemId} (h : 0 < c.flow p a) : p ∈ c.ids := by
  by_contra hp
  rw [flow_eq, entry_of_not_mem hp] at h
  exact absurd h (lt_irrefl 0)

theorem mem_ids_of_references {c : Counter} {a : ItemId} (h : 0 < c.referenceCount a) :
    a ∈ c.ids := by
  by_contra ha
  rw [referenceCount_eq, entry_of_not_mem ha] at h
  exact absurd h (lt_irrefl 0)

theorem mem_ids_of_roots {c : Counter} {a : ItemId} (h : 0 < c.rootCount a) : a ∈ c.ids := by
  by_contra ha
  rw [rootCount_eq, entry_of_not_mem ha] at h
  exact absurd h (lt_irrefl 0)

theorem mem_keys_of_flow {c : Counter} {p a : ItemId} (h : 0 < c.flow p a) :
    a ∈ (c.edges p).keys := by
  by_contra ha
  rw [flow, Edges.multiplicity_of_not_mem ha] at h
  exact absurd h (lt_irrefl 0)

theorem inflow_eq_total (c : Counter) (a : ItemId) :
    c.inflow a = c.total fun e => e.edges.multiplicity a := by
  simp only [inflow, total, flow_eq]

theorem weight_eq_total (c : Counter) : c.weight = c.total Entry.weight := rfl

theorem flow_le_inflow (c : Counter) (p a : ItemId) : c.flow p a ≤ c.inflow a := by
  by_cases hp : p ∈ c.ids
  · exact Finset.single_le_sum (f := fun p => c.flow p a) (fun _ _ => Nat.zero_le _) hp
  · rw [flow_eq, entry_of_not_mem hp]
    exact Nat.zero_le _

theorem flow_agrees {c d : Counter} {p : ItemId} (h : (c.entry p).Agrees (d.entry p)) (a : ItemId) :
    d.flow p a = c.flow p a := by
  rw [flow_eq, flow_eq, h.edges]

theorem rootCount_agrees {c d : Counter} {a : ItemId} (h : (c.entry a).Agrees (d.entry a)) :
    d.rootCount a = c.rootCount a := by
  rw [rootCount_eq, rootCount_eq, h.roots]

theorem leafCount_agrees {c d : Counter} {a : ItemId} (h : (c.entry a).Agrees (d.entry a)) :
    d.leafCount a = c.leafCount a := by
  rw [leafCount, leafCount, h.leaves]

theorem inflow_eq_sum {c : Counter} {S : Finset ItemId} (h : c.ids ⊆ S) (a : ItemId) :
    c.inflow a = ∑ p ∈ S, c.flow p a := by
  refine Finset.sum_subset h fun p _ hp => ?_
  rw [flow_eq, entry_of_not_mem hp, Edges.multiplicity_empty]

theorem weight_eq_sum {c : Counter} {S : Finset ItemId} (h : c.ids ⊆ S) :
    c.weight = c.ids.card + ∑ p ∈ S, c.leafCount p := by
  rw [weight, Finset.sum_add_distrib, ← Finset.card_eq_sum_ones]
  congr 1
  refine Finset.sum_subset h fun p _ hp => ?_
  rw [leafCount, entry_of_not_mem hp]

theorem ids_congr {c d : Counter} (h : c.tracked = d.tracked) : c.ids = d.ids := by
  rw [ids, ids, h]

theorem entry_congr {c d : Counter} (h : c.tracked = d.tracked) (a : ItemId) :
    c.entry a = d.entry a := by
  rw [entry, entry, get?, get?, h]

@[simp] theorem ids_setEntry (c : Counter) (id : ItemId) (e : Entry) :
    (c.setEntry id e).ids = insert id c.ids := by
  ext a
  rw [mem_ids_iff, Finset.mem_insert, mem_ids_iff, get?_setEntry]
  by_cases h : a = id <;> simp [h]

@[simp] theorem ids_eraseEntry (c : Counter) (id : ItemId) :
    (c.eraseEntry id).ids = c.ids.erase id := by
  ext a
  rw [mem_ids_iff, Finset.mem_erase, mem_ids_iff, get?_eraseEntry]
  by_cases h : a = id <;> simp [h]

@[simp] theorem ids_modifyEntry (c : Counter) (id : ItemId) (f : Entry → Entry) :
    (c.modifyEntry id f).ids = c.ids := by
  ext a
  rw [mem_ids_iff, mem_ids_iff, get?_modifyEntry]
  by_cases h : a = id
  · subst h
    cases c.get? a <;> simp
  · simp [h]

@[simp] theorem ids_addCandidate (c : Counter) (id : ItemId) :
    (c.addCandidate id).ids = c.ids := rfl

@[simp] theorem ids_dropCandidate (c : Counter) (id : ItemId) :
    (c.dropCandidate id).ids = c.ids := rfl

@[simp] theorem ids_increase (c : Counter) (n : Nat) : (c.increase n).ids = c.ids := rfl

@[simp] theorem entry_setEntry (c : Counter) (id a : ItemId) (e : Entry) :
    (c.setEntry id e).entry a = if a = id then e else c.entry a := by
  rw [entry, get?_setEntry]
  by_cases h : a = id <;> simp [h, entry]

@[simp] theorem entry_eraseEntry (c : Counter) (id a : ItemId) :
    (c.eraseEntry id).entry a = if a = id then {} else c.entry a := by
  rw [entry, get?_eraseEntry]
  by_cases h : a = id <;> simp [h, entry]

theorem entry_modifyEntry {c : Counter} {id : ItemId} (f : Entry → Entry) (h : id ∈ c.ids)
    (a : ItemId) :
    (c.modifyEntry id f).entry a = if a = id then f (c.entry id) else c.entry a := by
  rw [entry, get?_modifyEntry]
  by_cases ha : a = id
  · rw [if_pos ha, if_pos ha, get?_of_mem h, Option.map_some, Option.getD_some]
  · rw [if_neg ha, if_neg ha, entry]

@[simp] theorem entry_addCandidate (c : Counter) (id a : ItemId) :
    (c.addCandidate id).entry a = c.entry a := rfl

@[simp] theorem entry_dropCandidate (c : Counter) (id a : ItemId) :
    (c.dropCandidate id).entry a = c.entry a := rfl

@[simp] theorem entry_increase (c : Counter) (n : Nat) (a : ItemId) :
    (c.increase n).entry a = c.entry a := rfl

@[simp] theorem mem_candidates_addCandidate (c : Counter) (id a : ItemId) :
    a ∈ (c.addCandidate id).candidates.keys ↔ a = id ∨ a ∈ c.candidates.keys :=
  OrderedMap.mem_keys_insert

@[simp] theorem mem_candidates_dropCandidate (c : Counter) (id a : ItemId) :
    a ∈ (c.dropCandidate id).candidates.keys ↔ a ∈ c.candidates.keys ∧ a ≠ id :=
  OrderedMap.mem_keys_swapErase

theorem total_congr {c d : Counter} (f : Entry → Nat) (hi : c.ids = d.ids)
    (he : ∀ a ∈ d.ids, f (c.entry a) = f (d.entry a)) : c.total f = d.total f := by
  rw [total, total, hi]
  exact Finset.sum_congr rfl he

theorem total_setEntry {c : Counter} {id : ItemId} (f : Entry → Nat) (e : Entry)
    (h : id ∈ c.ids) : (c.setEntry id e).total f + f (c.entry id) = c.total f + f e := by
  have hi : (c.setEntry id e).ids = c.ids := by rw [ids_setEntry, Finset.insert_eq_of_mem h]
  rw [total, total, hi, ← Finset.add_sum_erase _ _ h, ← Finset.add_sum_erase c.ids _ h]
  have same : ∑ p ∈ c.ids.erase id, f ((c.setEntry id e).entry p)
      = ∑ p ∈ c.ids.erase id, f (c.entry p) := by
    refine Finset.sum_congr rfl fun p hp => ?_
    rw [entry_setEntry, if_neg (Finset.ne_of_mem_erase hp)]
  rw [same, entry_setEntry, if_pos rfl]
  omega

theorem total_eraseEntry {c : Counter} {id : ItemId} (f : Entry → Nat) (h : id ∈ c.ids) :
    (c.eraseEntry id).total f + f (c.entry id) = c.total f := by
  rw [total, total, ids_eraseEntry, ← Finset.sum_erase_add c.ids _ h]
  congr 1
  refine Finset.sum_congr rfl fun p hp => ?_
  rw [entry_eraseEntry, if_neg (Finset.ne_of_mem_erase hp)]

theorem inflow_setEntry {c : Counter} {id : ItemId} (e : Entry) (h : id ∈ c.ids) (a : ItemId) :
    (c.setEntry id e).inflow a + c.flow id a = c.inflow a + e.edges.multiplicity a := by
  rw [inflow_eq_total, inflow_eq_total, flow_eq]
  exact total_setEntry (fun e => e.edges.multiplicity a) e h

theorem weight_setEntry {c : Counter} {id : ItemId} (e : Entry) (h : id ∈ c.ids) :
    (c.setEntry id e).weight + c.leafCount id = c.weight + e.leaves := by
  have sum := total_setEntry Entry.weight e h
  rw [← weight_eq_total, ← weight_eq_total] at sum
  simp only [Entry.weight] at sum
  rw [leafCount]
  omega

namespace Coherent

variable {owed : ItemId → Nat} {c : Counter}

theorem closed (hc : Coherent owed c) {p a : ItemId} (h : 0 < c.flow p a) : a ∈ c.ids := by
  have hr := hc.references a
  have hf := flow_le_inflow c p a
  exact mem_ids_of_references (by omega)

theorem mem_of_owed (hc : Coherent owed c) {a : ItemId} (h : 0 < owed a) : a ∈ c.ids := by
  have hr := hc.references a
  exact mem_ids_of_references (by omega)

theorem mem_keys_iff (hc : Coherent owed c) {p a : ItemId} :
    a ∈ (c.edges p).keys ↔ 0 < c.flow p a := ⟨hc.positive p a, mem_keys_of_flow⟩

theorem no_flow (hc : Coherent owed c) {a : ItemId} (h : c.referenceCount a = 0) (p : ItemId) :
    c.flow p a = 0 := by
  have hr := hc.references a
  have hf := flow_le_inflow c p a
  omega

/-- Neither roots nor candidates matter, and leaves only as far as the count goes. -/
theorem of_edges {d : Counter} (hc : Coherent owed c) (hi : d.ids = c.ids)
    (edges : ∀ a, (d.entry a).edges = (c.entry a).edges)
    (references : ∀ a, (d.entry a).references = (c.entry a).references)
    (weight_le : d.weight ≤ d.count) : Coherent owed d := by
  constructor
  · intro p a
    rw [edges_eq, flow_eq, edges, ← flow_eq, ← edges_eq]
    exact hc.positive p a
  · intro a
    rw [referenceCount_eq, references, ← referenceCount_eq, hc.references, inflow_eq_total,
      inflow_eq_total, total_congr _ hi fun a _ => by rw [edges]]
  · exact weight_le

theorem congr {d : Counter} (hc : Coherent owed c) (ht : d.tracked = c.tracked)
    (hn : d.count = c.count) : Coherent owed d := by
  have he : ∀ a, d.entry a = c.entry a := entry_congr ht
  refine hc.of_edges (ids_congr ht) (fun a => by rw [he]) (fun a => by rw [he]) ?_
  rw [hn, weight_eq_total, total_congr _ (ids_congr ht) fun a _ => by rw [he]]
  exact hc.weight_le

theorem addCandidate (hc : Coherent owed c) (id : ItemId) : Coherent owed (c.addCandidate id) :=
  hc.congr rfl rfl

end Coherent

end Counter

end LiveItems
