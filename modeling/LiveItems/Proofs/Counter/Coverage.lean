import Mathlib.Data.Set.Insert
import LiveItems.Proofs.Counter.Registration
import LiveItems.Proofs.Counter.Release
set_option autoImplicit false

/-!
# Coverage

Every tracked object can be reached from one that has a root or is a candidate. This is what lets a
collection pass start from the candidates alone: what it does not meet is held by a root.
-/

namespace LiveItems.Counter

def Leads (c : Counter) : ItemId → ItemId → Prop :=
  Relation.ReflTransGen fun p a => 0 < c.flow p a

def Live (c : Counter) (a : ItemId) : Prop := ∃ r, 0 < c.rootCount r ∧ c.Leads r a

def Reached (extra : Set ItemId) (c : Counter) (a : ItemId) : Prop :=
  ∃ r, (0 < c.rootCount r ∨ r ∈ c.candidates.keys ∨ r ∈ extra) ∧ c.Leads r a

def Covered (extra : Set ItemId) (c : Counter) : Prop := ∀ a ∈ c.ids, c.Reached extra a

variable {extra extra' : Set ItemId} {c d c' : Counter}

theorem Leads.mono (h : ∀ p a, c.flow p a ≤ d.flow p a) {r a : ItemId} (path : c.Leads r a) :
    d.Leads r a :=
  Relation.ReflTransGen.mono (fun p a edge => Nat.lt_of_lt_of_le edge (h p a)) _ _ path

theorem Reached.root {r : ItemId} (h : 0 < c.rootCount r) : c.Reached extra r := ⟨r, .inl h, .refl⟩

theorem Reached.candidate {r : ItemId} (h : r ∈ c.candidates.keys) : c.Reached extra r :=
  ⟨r, .inr (.inl h), .refl⟩

theorem Reached.given {r : ItemId} (h : r ∈ extra) : c.Reached extra r := ⟨r, .inr (.inr h), .refl⟩

theorem Reached.tail {p a : ItemId} (h : c.Reached extra p) (edge : 0 < c.flow p a) :
    c.Reached extra a := by
  obtain ⟨r, source, path⟩ := h
  exact ⟨r, source, path.tail edge⟩

theorem Reached.grow {a : ItemId} (h : c.Reached extra a)
    (roots : ∀ a, d.rootCount a = c.rootCount a)
    (candidates : ∀ a ∈ c.candidates.keys, a ∈ d.candidates.keys)
    (flow : ∀ p a, c.flow p a ≤ d.flow p a) : d.Reached extra a := by
  obtain ⟨r, source, path⟩ := h
  refine ⟨r, ?_, path.mono flow⟩
  rw [roots]
  exact source.imp_right (Or.imp_left (candidates r))

/-- Coverage survives a change that leaves no source, no edge and no new object uncovered. -/
theorem Covered.transfer (h : c.Covered extra)
    (sources : ∀ r ∈ d.ids, (0 < c.rootCount r ∨ r ∈ c.candidates.keys ∨ r ∈ extra) →
      d.Reached extra' r)
    (edges : ∀ p a, 0 < c.flow p a → a ∈ d.ids → 0 < d.flow p a ∨ d.Reached extra' a)
    (new : ∀ a ∈ d.ids, a ∉ c.ids → d.Reached extra' a) : d.Covered extra' := by
  intro a ha
  by_cases old : a ∈ c.ids
  · obtain ⟨r, source, path⟩ := h a old
    induction path with
    | refl => exact sources r ha source
    | @tail p a _ edge ih =>
      rcases edges p a edge ha with kept | reached
      · exact (ih (mem_ids_of_flow kept) (mem_ids_of_flow edge)).tail kept
      · exact reached
  · exact new a ha old

theorem Covered.insertEntry (h : c.Covered extra) {id : ItemId} (new : id ∉ c.ids) :
    (c.insertEntry id).Covered (insert id extra) := by
  have same := entry_insertEntry new
  intro a ha
  rw [ids_insertEntry] at ha
  rcases Finset.mem_insert.1 ha with rfl | old
  · exact .given (.inl rfl)
  · have grown : (c.insertEntry id).Reached extra a := by
      refine (h a old).grow (fun a => ?_) (fun _ hr => hr) fun p a => ?_
      · rw [rootCount_eq, rootCount_eq, same]
      · rw [flow_eq, flow_eq, same]
    obtain ⟨r, source, path⟩ := grown
    exact ⟨r, source.imp_right (Or.imp_right .inr), path⟩

theorem Covered.link {parent : ItemId} {xs : List Item} {new : List ItemId}
    (h : c.Covered extra) (links : Links parent xs new c c') (hp : parent ∈ c.ids) :
    c'.Covered extra := by
  have old : ∀ a ∈ c.ids, c'.Reached extra a := fun a ha => by
    refine (h a ha).grow links.roots (fun a ha => (links.candidates a).2 (.inl ha)) fun p a => ?_
    rw [links.flow_eq]
    exact Nat.le_add_right ..
  intro a ha
  by_cases known : a ∈ c.ids
  · exact old a known
  · rw [links.mem_ids] at ha
    have linked := ((links.fresh a).1 (ha.resolve_left known)).2
    refine (old parent hp).tail ?_
    rw [links.flow]
    omega

theorem Covered.registers {hp : Heap} {pending : List ItemId} (h : c.Covered extra)
    (registers : Registers hp pending c c') (tracked : ∀ p ∈ pending, p ∈ c.ids) :
    c'.Covered extra := by
  have old : ∀ a ∈ c.ids, c'.Reached extra a := fun a ha =>
    (h a ha).grow registers.roots (fun a ha => (registers.candidates a).2 (.inl ha))
      registers.grows
  intro a ha
  by_cases known : a ∈ c.ids
  · exact old a known
  · refine registers.least {a | c'.Reached extra a} (fun p hp => old p (tracked p hp)) ?_ a ha known
    exact fun p hp a edge => Reached.tail hp edge

/-- What only freed objects have led to has become a candidate, if it has no root. -/
theorem Covered.sheds {seeds touched : Set ItemId} {gone : Finset ItemId} (h : c.Covered extra)
    (sheds : Sheds seeds touched gone c c') (mem : ∀ a ∈ extra, a ∈ touched) :
    c'.Covered extra' := by
  have settled : ∀ a ∈ c'.ids, (a ∈ touched ∨ ∃ p ∈ gone, 0 < c.flow p a) →
      c'.Reached extra' a := by
    intro a ha lost
    by_cases rooted : 0 < c'.rootCount a
    · exact .root rooted
    · refine .candidate ((sheds.candidates a).2 (.inr ⟨ha, ?_, lost⟩))
      rw [← sheds.rootCount (sheds.mem_ids.1 ha).2]
      omega
  refine h.transfer (fun r hr source => ?_) (fun p a edge ha => ?_) fun a ha new => ?_
  · have stays := (sheds.mem_ids.1 hr).2
    rcases source with rooted | known | more
    · exact .root ((sheds.rootCount stays).symm ▸ rooted)
    · exact .candidate ((sheds.candidates r).2 (.inl ⟨known, stays⟩))
    · exact settled r hr (.inl (mem r more))
  · by_cases hp : p ∈ gone
    · exact .inr (settled a ha (.inr ⟨p, hp, edge⟩))
    · exact .inl ((sheds.flow hp a).symm ▸ edge)
  · exact absurd (sheds.mem_ids.1 ha).1 new

theorem Covered.dropRoot (h : c.Covered ∅) {id : ItemId} (hid : id ∈ c.ids) :
    (c.dropRoot id).Covered {id} := by
  have entry : ∀ a, a ≠ id → (c.dropRoot id).entry a = c.entry a := by
    intro a ha
    rw [Counter.dropRoot, entry_setEntry, if_neg ha]
  have edges : ∀ a, ((c.dropRoot id).entry a).edges = (c.entry a).edges := by
    intro a
    rw [Counter.dropRoot, entry_setEntry]
    split <;> subst_vars <;> rfl
  refine h.transfer (fun r _ source => ?_) (fun p a edge _ => .inl ?_) fun a ha new => ?_
  · by_cases same : r = id
    · exact .given same
    · rcases source with rooted | known | none
      · refine .root ?_
        rwa [rootCount_eq, entry r same, ← rootCount_eq]
      · exact .candidate known
      · exact absurd none (Set.notMem_empty r)
  · rwa [flow_eq, edges, ← flow_eq]
  · rw [Counter.dropRoot, ids_setEntry, Finset.insert_eq_of_mem hid] at ha
    exact absurd ha new

theorem Covered.dropEdge (h : c.Covered ∅) {p id : ItemId} (hp : p ∈ c.ids) :
    (c.dropEdge p id).Covered {id} := by
  have entry : ∀ a, (c.dropEdge p id).entry a =
      { c.entry a with
        edges := if a = p then (c.entry p).edges.remove id else (c.entry a).edges } := by
    intro a
    rw [Counter.dropEdge, entry_setEntry]
    split <;> subst_vars <;> rfl
  refine h.transfer (fun r _ source => ?_) (fun q a edge _ => ?_) fun a ha new => ?_
  · rcases source with rooted | known | none
    · refine .root ?_
      rwa [rootCount_eq, entry, ← rootCount_eq]
    · exact .candidate known
    · exact absurd none (Set.notMem_empty r)
  · by_cases same : a = id
    · exact .inr (.given same)
    · refine .inl ?_
      rw [flow_eq, entry]
      split
      · subst_vars
        rwa [Edges.multiplicity_remove, if_neg same, Nat.sub_zero, ← flow_eq]
      · rwa [← flow_eq]
  · rw [Counter.dropEdge, ids_setEntry, Finset.insert_eq_of_mem hp] at ha
    exact absurd ha new

end LiveItems.Counter
