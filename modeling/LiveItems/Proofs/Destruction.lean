import LiveItems.Proofs.Reachability
set_option autoImplicit false

namespace LiveItems

open Relation (ReflTransGen TransGen)

/-- The objects that `a` leads to along storage and that lead back to it. -/
def Heap.component (h : Heap) (a : ItemId) : Set ItemId :=
  {b | ReflTransGen h.Stores a b ∧ ReflTransGen h.Stores b a}

/-- What a pass empties: what is tracked and unreachable, and lies on a cycle or is held neither by
a root nor by a tracked container. -/
def Memory.Doomed (m : Memory) (c : CounterId) (held : Multiset Item) (a : ItemId) : Prop :=
  (m.counter c).isTracked a = true ∧ ¬m.heap.Reaches held a ∧
    (TransGen m.heap.Stores a a ∨
      (m.counter c).rootCount a = 0 ∧ (m.counter c).referenceCount a = 0)

namespace Counter

variable {strict : Prop} {S : Set ItemId} {h : Heap} {held : Multiset Item} {c : Counter}

section Accounts

variable (acc : Accounts strict S (fun p => h.children p) held c)
include acc

theorem Accounts.cycle_iff {a : ItemId} (ha : a ∈ c.ids) :
    TransGen (fun p b => 0 < c.flow p b) a a ↔ TransGen h.Stores a a := by
  rw [TransGen.tail'_iff, TransGen.tail'_iff]
  constructor
  · rintro ⟨p, path, edge⟩
    exact ⟨p, (acc.leads_iff ha).1 path, (acc.flow_pos_iff.1 edge).2⟩
  · rintro ⟨p, path, stores⟩
    exact ⟨p, (acc.leads_iff ha).2 path, acc.flow_pos_iff.2 ⟨acc.mem_of_path ha path, stores⟩⟩

theorem Accounts.doomed_iff {a : ItemId} :
    c.Doomed a ↔ c.isTracked a = true ∧ ¬h.Reaches held a ∧
      (TransGen h.Stores a a ∨ c.rootCount a = 0 ∧ c.referenceCount a = 0) := by
  rw [Doomed, Garbage, acc.live_iff, mem_ids, and_assoc]
  refine and_congr_right fun tracked => and_congr_right fun dead => ?_
  have rootless : c.rootCount a = 0 := by
    by_contra rooted
    exact dead (acc.live_iff.1 ⟨a, Nat.pos_of_ne_zero rooted, .refl⟩)
  rw [acc.cycle_iff (mem_ids.2 tracked), and_iff_right rootless]

theorem Accounts.component_eq {a : ItemId} (ha : a ∈ c.ids) :
    Graph.component c.successors a = h.component a := by
  ext b
  have there : Graph.Reaches c.successors a b ↔ ReflTransGen h.Stores a b :=
    (reaches_iff acc.coherent).trans (acc.leads_iff ha)
  have back : b ∈ c.ids → (Graph.Reaches c.successors b a ↔ ReflTransGen h.Stores b a) :=
    fun hb => (reaches_iff acc.coherent).trans (acc.leads_iff hb)
  change Graph.Reaches c.successors a b ∧ Graph.Reaches c.successors b a ↔ _ ∧ _
  rw [there]
  exact and_congr_right fun path => back (acc.mem_of_path ha path)

/-- A pass looks at each component below the candidates once. -/
theorem Accounts.ncard_components :
    {k | ∃ a, (∃ r ∈ c.candidates.keys, ReflTransGen h.Stores r a) ∧ k = h.component a}.ncard =
      c.candidateComponents.1.length := by
  rw [← (candidateComponents_spec acc.coherent).ncard_components]
  congr 1
  ext k
  refine exists_congr fun a => ?_
  have below : (∃ r ∈ c.candidates.keys, ReflTransGen h.Stores r a) ↔
      ∃ r ∈ c.candidates.keys.filter c.isTracked, Graph.Reaches c.successors r a := by
    refine exists_congr fun r => ?_
    rw [List.mem_filter, reaches_iff acc.coherent]
    constructor
    · rintro ⟨hr, path⟩
      have tracked := acc.enlisted r hr
      exact ⟨⟨hr, mem_ids.1 tracked⟩, (acc.leads_iff tracked).2 path⟩
    · rintro ⟨⟨hr, tracked⟩, path⟩
      exact ⟨hr, (acc.leads_iff (mem_ids.2 tracked)).1 path⟩
  rw [below]
  refine and_congr_right ?_
  rintro ⟨r, hr, path⟩
  have tracked := mem_ids.2 (List.mem_filter.1 hr).2
  have ha := acc.mem_of_path tracked ((acc.leads_iff tracked).1 ((reaches_iff acc.coherent).1 path))
  rw [acc.component_eq ha]

end Accounts

end Counter

namespace Session

variable {suspects : Prop} {m : Memory} {roots : CounterId → Multiset Item} {c : CounterId}

/-- In every state of a balanced run, a pass empties what is doomed and nothing else, so that no
cycle is left among what it frees, and its totals are exact. -/
theorem Yields.collect_destroys (yields : Yields suspects m roots) (hc : c < m.counters.length) :
    ∃ m', (Memory.collect c).apply m = (.ok (m'.counter c).count, m') ∧
      (∀ a, m.Doomed c (roots c) a → m'.heap.object? a =
        (m.heap.object? a).map fun o => { o with storage := o.storage.emptied }) ∧
      (∀ a, ¬m.Doomed c (roots c) a → m'.heap.object? a = m.heap.object? a) ∧
      (∀ a, (m.counter c).isTracked a = true → (m'.counter c).isTracked a = false →
        ¬TransGen m'.heap.Stores a a) ∧
      (m'.counter c).stats.collected =
        (m.counter c).stats.collected + {a | m.Doomed c (roots c) a}.ncard ∧
      (m'.counter c).stats.components = (m.counter c).stats.components +
        {k | ∃ a, (∃ r ∈ (m.counter c).candidates.keys, ReflTransGen m.heap.Stores r a) ∧
          k = m.heap.component a}.ncard ∧
      (m'.counter c).stats.passes =
        (m.counter c).stats.passes + if (m.counter c).candidates.isEmpty then 0 else 1 := by
  have sound := yields.sound
  obtain ⟨m', ids, run, -, -, collected⟩ := sound.collect hc
  have acc := sound.accounts c hc
  have swept := collected.swept
  have mem : ∀ a, a ∈ ids ↔ m.Doomed c (roots c) a := fun a =>
    (swept.doomed a).trans acc.doomed_iff
  refine ⟨m', run, fun a doomed => ?_, fun a spared => ?_, fun a tracked freed cycle => ?_, ?_, ?_,
    swept.passes⟩
  · rw [collected.objects, if_pos ((mem a).2 doomed)]
  · rw [collected.objects, if_neg (mt (mem a).1 spared)]
  · -- storage only shrinks, so this was a cycle before and has been emptied
    have less : ∀ p b, m'.heap.Stores p b → p ∉ ids ∧ m.heap.Stores p b := by
      rintro p b ⟨x, hx, hb⟩
      rw [collected.children] at hx
      split at hx
      · exact absurd hx List.not_mem_nil
      · rename_i kept
        exact ⟨kept, x, hx, hb⟩
    have old : TransGen m.heap.Stores a a := TransGen.mono (fun p b stores => (less p b stores).2)
      _ _ cycle
    have dead : ¬m.heap.Reaches (roots c) a := by
      intro reaches
      have kept := (swept.ids a).2 ⟨Counter.mem_ids.2 tracked, acc.live_iff.2 reaches⟩
      rw [Counter.mem_ids, freed] at kept
      exact absurd kept (by simp)
    obtain ⟨b, first, -⟩ := TransGen.head'_iff.1 cycle
    exact (less a b first).1 ((mem a).2 ⟨tracked, dead, .inl old⟩)
  · have all : {a | m.Doomed c (roots c) a} = (ids.toFinset : Set ItemId) := by
      ext a
      rw [List.coe_toFinset]
      exact (mem a).symm
    rw [swept.items, all, Set.ncard_coe_finset, List.toFinset_card_of_nodup swept.nodup]
  · rw [swept.components, ← acc.ncard_components]

/-- The array that holds itself is emptied. -/
theorem collect_destroys_abandoned :
    ∃ m', (Memory.collect 0).apply (run abandoned (start {} default)).2.memory =
        (.ok (m'.counter 0).count, m') ∧ m'.heap.children ((default : IdSupply).id 1) = [] := by
  obtain ⟨m', collected, emptied, -⟩ := Yields.collect_destroys
    (.during (abandoned_grown True).reachable) (abandoned_grown True).counters
  refine ⟨m', collected, ?_⟩
  have stores : (run abandoned (start {} default)).2.memory.heap.Stores
      ((default : IdSupply).id 1) ((default : IdSupply).id 1) :=
    ⟨.object .array ((default : IdSupply).id 1), by decide +kernel, rfl⟩
  have gone := emptied _ ⟨by decide +kernel, abandoned_dead _ _, .inl (.single stores)⟩
  rw [Heap.children, Heap.storage?, gone]
  have listed : ((run abandoned (start {} default)).2.memory.heap.object?
      ((default : IdSupply).id 1)).isSome = true := by decide +kernel
  obtain ⟨o, ho⟩ := Option.isSome_iff_exists.1 listed
  rw [ho]
  exact Storage.children_emptied o.storage

end Session

end LiveItems
