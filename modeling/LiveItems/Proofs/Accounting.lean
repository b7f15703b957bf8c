import LiveItems.Proofs.Session.Reachable
set_option autoImplicit false

namespace LiveItems

/-- What a counter has recorded about tracked objects is what the heap stores, occurrence by
occurrence, and what it counts is what it tracks. An edge map has no zero entries. -/
structure Counter.Exact (c : Counter) (h : Heap) (held : Multiset Item) : Prop where
  edges : ∀ p e, c.get? p = some e → ∀ a, e.edges.get? a =
    if occurrences a (h.children p) = 0 then none else some (occurrences a (h.children p))
  leaves : ∀ p e, c.get? p = some e → e.leaves = leafOccurrences (h.children p)
  tracked : ∀ p e, c.get? p = some e → ∀ a ∈ e.edges.keys, c.isTracked a = true
  references : ∀ a e, c.get? a = some e →
    e.references = ∑ p ∈ c.tracked.keys.toFinset, occurrences a (h.children p)
  roots : ∀ a, c.rootCount a = occurrences a held
  count : c.count = c.tracked.size +
    ∑ p ∈ c.tracked.keys.toFinset, leafOccurrences (h.children p) + leafOccurrences held

theorem Edges.get?_eq {es : Edges} (positive : ∀ a ∈ es.keys, 0 < es.multiplicity a) (a : ItemId) :
    es.get? a = if es.multiplicity a = 0 then none else some (es.multiplicity a) := by
  cases found : es.get? a with
  | none =>
    have zero : es.multiplicity a = 0 := by rw [multiplicity, found, Option.getD_none]
    rw [if_pos zero]
  | some n =>
    have number : es.multiplicity a = n := by rw [multiplicity, found, Option.getD_some]
    have key : a ∈ es.keys := OrderedMap.mem_keys_iff.2 ⟨n, OrderedMap.get?_eq_some_iff.1 found⟩
    rw [if_neg (positive a key).ne', number]

namespace Counter

variable {strict : Prop} {S : Set ItemId} {h : Heap} {held : Multiset Item} {c : Counter}

theorem Accounts.exact (acc : Accounts strict S (fun p => h.children p) held c) :
    c.Exact h held := by
  obtain ⟨coherent, mirrors, -, -⟩ := acc
  have flow : ∀ p ∈ c.ids, ∀ a, c.flow p a = occurrences a (h.children p) :=
    fun p hp a => mirrors.flow p hp (by simp) a
  have leaves : ∀ p ∈ c.ids, c.leafCount p = leafOccurrences (h.children p) :=
    fun p hp => mirrors.leaves p hp (by simp)
  have recorded : ∀ p e, c.get? p = some e → c.edges p = e.edges := by
    intro p e he
    rw [edges_eq, entry_of_get? he]
  refine ⟨fun p e he a => ?_, fun p e he => ?_, fun p e he a ha => ?_, fun a e he => ?_,
    mirrors.rooted, ?_⟩
  · have multiplicity : e.edges.multiplicity a = occurrences a (h.children p) := by
      rw [← recorded p e he]
      exact flow p (mem_ids_of_get? he) a
    rw [← multiplicity]
    refine Edges.get?_eq (fun b hb => ?_) a
    rw [← recorded p e he] at hb ⊢
    exact coherent.positive p b hb
  · rw [← leaves p (mem_ids_of_get? he), leafCount, entry_of_get? he]
  · rw [← recorded p e he] at ha
    exact mem_ids.1 (coherent.closed (coherent.positive p a ha))
  · have references := coherent.references a
    rw [referenceCount_eq, entry_of_get? he, Nat.add_zero] at references
    rw [references, inflow]
    exact Finset.sum_congr rfl fun p hp => flow p hp a
  · have count := mirrors.count
    rw [weight, Finset.sum_add_distrib, ← Finset.card_eq_sum_ones, card_ids] at count
    rw [count]
    congr 2
    exact Finset.sum_congr rfl leaves

end Counter

namespace Session

variable {suspects : Prop} {m : Memory} {roots : CounterId → Multiset Item} {c : CounterId}

/-- In every state of a balanced run every counter is exact. -/
theorem Yields.counter_exact (yields : Yields suspects m roots) (hc : c < m.counters.length) :
    (m.counter c).Exact m.heap (roots c) :=
  (yields.sound.accounts c hc).exact

/-- An array that holds itself, a leaf and a buffer, and that a stack holds twice. -/
def selfHolding : List Step :=
  [.perform (.create "buffer" (.buffer [])) none true,
    .perform (.create "array" (.list .array [.leaf .null, .named "buffer"] (some 0))) none true,
    .perform (.onList "array" (.push (.named "array"))) none true,
    .perform (.onEngine (.push (.named "array"))) none true,
    .perform (.onEngine (.push (.named "array"))) none true]

theorem selfHolding_grown (suspects : Prop) :
    Grown suspects 1 (run selfHolding (start {} default)).2 := by
  refine run_grown selfHolding _ ?_ (start_grown suspects {} default)
  refine ⟨trivial, fun c hc => ?_, trivial, trivial, trivial, trivial⟩
  obtain rfl := Option.some.inj hc
  exact Nat.one_pos

theorem counter_exact_selfHolding :
    ((run selfHolding (start {} default)).2.memory.counter 0).Exact
      (run selfHolding (start {} default)).2.memory.heap
      ((run selfHolding (start {} default)).2.roots 0) :=
  Yields.counter_exact (.during (selfHolding_grown True).reachable)
    (selfHolding_grown True).counters

end Session

end LiveItems
