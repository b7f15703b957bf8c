import LiveItems.Proofs.Accounting
set_option autoImplicit false

/-!
# Cascades free the least set

When an object that nothing holds is freed, exactly what has to go with it goes: the least set that
contains it and takes in each object without roots that others hold, once all that hold it are in
the set. The loop comes to its end by itself, so its fuel is never what stops it, and it frees no
object twice. The main statement is `free_least`.
-/

namespace LiveItems

open LiveItems.Action (Ends)

namespace Counter

variable {c d e : Counter} {id a : ItemId} {waiting order : List ItemId}

/-- References are the sums of what is recorded, edges lead to tracked objects and occur at least
once, and all that is tracked is counted. Roots and candidates do not matter. -/
structure Tallied (c : Counter) : Prop where
  references : ∀ a e, c.get? a = some e →
    e.references = ∑ p ∈ c.tracked.keys.toFinset, (c.edges p).multiplicity a
  positive : ∀ p e, c.get? p = some e → ∀ a n, e.edges.get? a = some n → 1 ≤ n
  closed : ∀ p e, c.get? p = some e → ∀ a ∈ e.edges.keys, c.isTracked a = true
  count : c.tracked.size + ∑ p ∈ c.tracked.keys.toFinset, c.leafCount p ≤ c.count

theorem weight_eq_size (c : Counter) :
    c.weight = c.tracked.size + ∑ p ∈ c.tracked.keys.toFinset, c.leafCount p := by
  rw [weight, Finset.sum_add_distrib, ← Finset.card_eq_sum_ones, card_ids]
  rfl

theorem mem_edges_of_get? {p : ItemId} {entry : Entry} (found : c.get? p = some entry) :
    a ∈ (c.edges p).keys ↔ a ∈ entry.edges.keys := by
  rw [edges_eq, entry_of_get? found]

theorem Tallied.coherent (tallied : c.Tallied) : Coherent (fun _ => 0) c := by
  have recorded : ∀ p a, a ∈ (c.edges p).keys → ∃ entry, c.get? p = some entry ∧
      a ∈ entry.edges.keys := by
    intro p a key
    have tracked : p ∈ c.ids := by
      by_contra out
      rw [edges_eq, entry_of_not_mem out] at key
      exact absurd key List.not_mem_nil
    exact ⟨c.entry p, get?_of_mem tracked, (mem_edges_of_get? (get?_of_mem tracked)).1 key⟩
  refine ⟨fun p a key => ?_, fun a => ?_, ?_⟩
  · obtain ⟨entry, found, held⟩ := recorded p a key
    obtain ⟨n, pair⟩ := OrderedMap.mem_keys_iff.1 held
    have positive := tallied.positive p entry found a n (OrderedMap.get?_eq_some_iff.2 pair)
    rw [flow_eq, entry_of_get? found, Edges.multiplicity_of_mem pair]
    exact positive
  · rw [Nat.add_zero]
    by_cases tracked : a ∈ c.ids
    · rw [referenceCount_eq]
      exact tallied.references a _ (get?_of_mem tracked)
    · -- nothing leads to what is not tracked
      have none : c.inflow a = 0 := by
        refine Finset.sum_eq_zero fun p _ => Nat.eq_zero_of_not_pos fun edge => tracked ?_
        obtain ⟨entry, found, held⟩ := recorded p a (mem_keys_of_flow edge)
        exact mem_ids.2 (tallied.closed p entry found a held)
      rw [none, referenceCount_eq, entry_of_not_mem tracked]
  · rw [weight_eq_size]
    exact tallied.count

theorem Coherent.tallied (coherent : Coherent (fun _ => 0) c) : c.Tallied := by
  refine ⟨fun a entry found => ?_, fun p entry found a n recorded => ?_,
    fun p entry found a held => ?_, ?_⟩
  · have references := coherent.references a
    rwa [referenceCount_eq, entry_of_get? found, Nat.add_zero] at references
  · have pair := OrderedMap.get?_eq_some_iff.1 recorded
    have key : a ∈ (c.edges p).keys :=
      (mem_edges_of_get? found).2 (OrderedMap.mem_keys_iff.2 ⟨n, pair⟩)
    have positive := coherent.positive p a key
    rwa [flow_eq, entry_of_get? found, Edges.multiplicity_of_mem pair] at positive
  · have key := (mem_edges_of_get? found).2 held
    exact mem_ids.1 (coherent.closed (coherent.positive p a key))
  · rw [← weight_eq_size]
    exact coherent.weight_le

/-- The objects that wait are freed, the first one first, and what nothing holds after that waits
before the others. An object without an entry is passed over. The objects freed are in `order`,
however many there are. -/
inductive Topples : List ItemId → Counter → List ItemId → Counter → Prop where
  | done (c : Counter) : Topples [] c [] c
  | skip {id : ItemId} {waiting order : List ItemId} {c e : Counter} (untracked : id ∉ c.ids)
    (rest : Topples waiting c order e) : Topples (id :: waiting) c order e
  | free {id : ItemId} {unheld waiting order : List ItemId} {c d e : Counter} (tracked : id ∈ c.ids)
    (run : (freeOne id).apply c = (.ok unheld, d)) (rest : Topples (unheld ++ waiting) d order e) :
    Topples (id :: waiting) c (id :: order) e

theorem releaseChildren_ids {S : Finset ItemId} (parent : ItemId) (es : List (ItemId × Nat))
    (unheld : List ItemId) (same : c.ids = S) :
    Ends (fun _ d => d.ids = S) (fun _ d => d.ids = S) (releaseChildren parent es unheld) c := by
  induction es generalizing c unheld with
  | nil => exact .pure same
  | cons edge rest ih =>
    obtain ⟨child, n⟩ := edge
    refine .get_bind ?_
    split
    · exact .violate same
    · rename_i entry found
      split
      · exact .violate same
      · have set :
            (c.setEntry child { entry with references := entry.references - n }).ids = S := by
          rw [ids_setEntry, Finset.insert_eq_of_mem (mem_ids_of_get? found), same]
        refine .after (t := c.setEntry child _) rfl ?_
        split
        · exact ih _ set
        · split
          · exact ih _ set
          · exact .after (t := (c.setEntry child _).addCandidate child) rfl (ih _ set)

theorem freeOne_ids {unheld : List ItemId} (run : (freeOne id).apply c = (.ok unheld, d)) :
    d.ids = c.ids.erase id := by
  have ends : Ends (fun _ _ => True) (fun _ d => d.ids = c.ids.erase id) (freeOne id) c := by
    refine .get_bind ?_
    split
    · rename_i none
      have untracked : id ∉ c.ids := fun tracked => by
        rw [get?_of_mem tracked] at none
        exact absurd none (by simp)
      exact .pure (Finset.erase_eq_of_notMem untracked).symm
    · rename_i entry found
      refine .after (t := c.eraseEntry id) rfl ?_
      split
      · exact .violate trivial
      · refine .after (t := (c.eraseEntry id).dropCandidate id) rfl ?_
        have lowered : Ends (fun _ _ => True) (fun _ d => d.ids = c.ids.erase id)
            (decrease entry.weight) ((c.eraseEntry id).dropCandidate id) := by
          refine .get_bind ?_
          split
          · exact .violate trivial
          · exact ids_eraseEntry c id
        exact lowered.bind fun _ d same =>
          (releaseChildren_ids id _ [] same).worsen fun _ _ _ => trivial
  exact ends.ok run

theorem Topples.skipAll
    (topples : Topples (waiting.dropWhile fun id => !c.isTracked id) c order e) :
    Topples waiting c order e := by
  induction waiting with
  | nil => exact topples
  | cons id waiting ih =>
    by_cases tracked : id ∈ c.ids
    · rwa [List.dropWhile_cons_of_neg (by simpa using mem_ids.1 tracked)] at topples
    · rw [List.dropWhile_cons_of_pos (by simpa [mem_ids] using tracked)] at topples
      exact .skip tracked (ih topples)

/-- As much fuel as there are tracked objects is enough, since each round has one of them less. -/
theorem cascade_topples (fuel : Nat) : ∀ (waiting : List ItemId) (c : Counter),
    c.ids.card ≤ fuel → (cascade fuel waiting).apply c = (.ok (), e) →
    ∃ order, Topples waiting c order e := by
  induction fuel with
  | zero =>
    intro waiting c enough run
    have empty := Finset.card_eq_zero.1 (Nat.le_zero.1 enough)
    have all : (waiting.dropWhile fun id => !c.isTracked id) = [] := by
      rcases next_tracked c waiting with ⟨none, -⟩ | ⟨id, rest, -, tracked, -⟩
      · exact none
      · exact absurd (empty ▸ tracked) (Finset.notMem_empty id)
    obtain rfl : c = e := (Prod.mk.inj run).2
    exact ⟨[], .skipAll (all ▸ .done c)⟩
  | succ fuel ih =>
    intro waiting c enough run
    rw [cascade, Action.apply_bind, Action.apply_get] at run
    rcases next_tracked c waiting with ⟨none, -⟩ | ⟨id, rest, next, tracked, -⟩
    · simp only [none] at run
      obtain rfl : c = e := (Prod.mk.inj run).2
      exact ⟨[], .skipAll (none ▸ .done c)⟩
    · simp only [next, Action.apply_bind] at run
      rcases first : (freeOne id).apply c with ⟨why | unheld, d⟩
      · rw [first] at run
        exact absurd (Prod.mk.inj run).1 (by simp)
      · rw [first] at run
        have smaller : d.ids.card ≤ fuel := by
          rw [freeOne_ids first, Finset.card_erase_of_mem tracked]
          omega
        obtain ⟨order, others⟩ := ih (unheld ++ rest) d smaller run
        exact ⟨id :: order, .skipAll (next ▸ .free tracked first others)⟩

/-- What is freed has an entry until it is freed, and none from then on. -/
theorem Topples.distinct (topples : Topples waiting c order e) :
    order.Nodup ∧ (∀ a ∈ order, a ∈ c.ids) ∧ e.ids = c.ids \ order.toFinset := by
  induction topples with
  | done c => exact ⟨List.nodup_nil, fun a ha => absurd ha List.not_mem_nil, by simp⟩
  | skip _ _ ih => exact ih
  | @free id unheld waiting order c d e tracked run _ ih =>
    obtain ⟨distinct, among, left⟩ := ih
    rw [freeOne_ids run] at among left
    refine ⟨List.nodup_cons.2 ⟨fun again => ?_, distinct⟩, fun a ha => ?_, ?_⟩
    · exact Finset.notMem_erase id _ (among id again)
    · rcases List.mem_cons.1 ha with rfl | ha
      · exact tracked
      · exact Finset.mem_of_mem_erase (among a ha)
    · rw [left, List.toFinset_cons, ← Finset.sdiff_singleton_eq_erase, sdiff_sdiff_left]
      rfl

/-- The set contains `id`, and it takes in each object without roots that some objects hold, once
all of these are in the set. -/
structure Absorbs (c : Counter) (id : ItemId) (S : Set ItemId) : Prop where
  first : id ∈ S
  next : ∀ a, c.isTracked a = true → c.rootCount a = 0 →
    (∃ p, 0 < (c.edges p).multiplicity a) → (∀ p, 0 < (c.edges p).multiplicity a → p ∈ S) → a ∈ S

theorem Absorbs.swallows {S : Set ItemId} (absorbs : c.Absorbs id S) : c.Swallows {id} S := by
  intro a tracked unrooted lost preds
  rcases lost with rfl | held
  · exact absorbs.first
  · exact absorbs.next a (mem_ids.1 tracked) unrooted held preds

/-- What a cascade frees has absorbed all that it can: an object that only freed ones have held has
lost its last reference, and then it is freed too. -/
theorem Sheds.absorbs {seeds touched : Set ItemId} {gone : Finset ItemId}
    (before : Coherent (fun _ => 0) c) (after : Coherent (fun _ => 0) d)
    (sheds : Sheds seeds touched gone c d) (first : id ∈ gone) : c.Absorbs id {a | a ∈ gone} := by
  refine ⟨first, fun a tracked unrooted held preds => ?_⟩
  by_contra stays
  have left : a ∈ d.ids := sheds.mem_ids.2 ⟨Counter.mem_ids.2 tracked, stays⟩
  have lost : d.inflow a = 0 := by
    refine Finset.sum_eq_zero fun p _ => Nat.eq_zero_of_not_pos fun edge => ?_
    obtain ⟨earlier, outside⟩ := sheds.flow_pos.1 edge
    exact outside (preds p earlier)
  have unheld : d.referenceCount a = 0 := by rw [after.references, lost]
  have loose := sheds.held a left ((sheds.rootCount stays).trans unrooted) unheld
  obtain ⟨p, edge⟩ := held
  exact absurd (before.no_flow loose p) edge.ne'

/-- The objects in `order` have been freed, and all that is left has lost its references from them
and nothing else. What they have held and no root holds is waiting for a pass. -/
structure Freed (order : List ItemId) (c d : Counter) : Prop where
  gone : ∀ a ∈ order, d.get? a = none
  untracked : ∀ a, c.get? a = none → d.get? a = none
  kept : ∀ a e, a ∉ order → c.get? a = some e → ∃ left,
    d.get? a = some { e with references := left } ∧
      left + (order.map fun p => (c.edges p).multiplicity a).sum = e.references
  candidates : ∀ a, a ∈ d.candidates.keys ↔ (a ∈ c.candidates.keys ∧ a ∉ order) ∨
    (d.isTracked a = true ∧ d.rootCount a = 0 ∧ ∃ p ∈ order, 0 < (c.edges p).multiplicity a)
  count : d.count + (order.length + (order.map c.leafCount).sum) = c.count
  highest : d.highest = c.highest
  stats : d.stats = c.stats

theorem Sheds.freed_of_subset {seeds touched : Set ItemId} (before : Coherent (fun _ => 0) c)
    (after : Coherent (fun _ => 0) d) (distinct : order.Nodup)
    (sheds : Sheds seeds touched order.toFinset c d) (inside : ∀ a ∈ touched, a ∈ order) :
    Freed order c d := by
  have stays : ∀ a, a ∉ order → a ∉ order.toFinset := fun a out => by rwa [List.mem_toFinset]
  have out : ∀ a ∈ order, a ∉ d.ids := fun a ha tracked =>
    (sheds.mem_ids.1 tracked).2 (List.mem_toFinset.2 ha)
  refine ⟨fun a ha => get?_of_not_mem (out a ha), fun a none => get?_of_not_mem fun tracked => ?_,
    fun a e ha found => ?_, fun a => ?_, ?_, sheds.highest, sheds.stats⟩
  · rw [get?_of_mem (sheds.mem_ids.1 tracked).1] at none
    exact absurd none (by simp)
  · have left : a ∈ d.ids := sheds.mem_ids.2 ⟨mem_ids_of_get? found, stays a ha⟩
    have agrees := sheds.entries a (stays a ha)
    rw [entry_of_get? found] at agrees
    refine ⟨d.referenceCount a, ?_, ?_⟩
    · rw [get?_of_mem left, referenceCount_eq, ← agrees.roots, ← agrees.edges, ← agrees.leaves]
    · have kept : d.inflow a = ∑ p ∈ c.ids \ order.toFinset, c.flow p a := by
        rw [inflow, sheds.ids]
        exact Finset.sum_congr rfl fun p hp => sheds.flow (Finset.mem_sdiff.1 hp).2 a
      have whole := before.references a
      rw [referenceCount_eq, entry_of_get? found] at whole
      rw [after.references, kept, whole, inflow, ← List.sum_toFinset _ distinct]
      exact Finset.sum_sdiff sheds.tracked
  · rw [sheds.candidates]
    refine or_congr (by rw [List.mem_toFinset]) ?_
    constructor
    · rintro ⟨tracked, unrooted, lost | ⟨p, hp, edge⟩⟩
      · exact absurd tracked (out a (inside a lost))
      · have stayed := (sheds.mem_ids.1 tracked).2
        exact ⟨Counter.mem_ids.1 tracked, (sheds.rootCount stayed).trans unrooted, p,
          List.mem_toFinset.1 hp, edge⟩
    · rintro ⟨tracked, unrooted, p, hp, edge⟩
      have here := Counter.mem_ids.2 tracked
      exact ⟨here, (sheds.rootCount (sheds.mem_ids.1 here).2).symm.trans unrooted,
        .inr ⟨p, List.mem_toFinset.2 hp, edge⟩⟩
  · have lengths : ∑ a ∈ order.toFinset, (c.entry a).weight =
        order.length + (order.map c.leafCount).sum := by
      rw [← List.sum_toFinset _ distinct, ← List.toFinset_card_of_nodup distinct,
        Finset.card_eq_sum_ones, ← Finset.sum_add_distrib]
      rfl
    rw [← lengths]
    exact sheds.count

theorem Sheds.freed (before : Coherent (fun _ => 0) c) (after : Coherent (fun _ => 0) d)
    (distinct : order.Nodup) (sheds : Sheds ∅ {id} order.toFinset c d)
    (first : id ∈ order) : Freed order c d :=
  sheds.freed_of_subset before after distinct fun _ ha => (Set.mem_singleton_iff.1 ha).symm ▸ first

/-- Freeing an object without roots and references succeeds. The loop works off all that waits and
frees no object twice; what it frees is the least set that absorbs what the object has held. -/
theorem free_least (tallied : c.Tallied) (tracked : c.isTracked id = true)
    (unrooted : c.rootCount id = 0) (unreferenced : c.referenceCount id = 0) :
    ∃ order d, (free id).apply c = (.ok (), d) ∧ Topples [id] c order d ∧ order.Nodup ∧
      IsLeast {S | c.Absorbs id S} {a | a ∈ order} ∧ Freed order c d := by
  obtain ⟨gone, d, run, after, sheds, out⟩ := free_sheds tallied.coherent unrooted unreferenced
  obtain ⟨order, topples⟩ := cascade_topples c.tracked.size [id] c (card_ids c).le run
  obtain ⟨distinct, among, left⟩ := topples.distinct
  have same : gone = order.toFinset := by
    rw [← Finset.sdiff_sdiff_eq_self sheds.tracked, ← sheds.ids, left]
    exact Finset.sdiff_sdiff_eq_self fun a ha => among a (List.mem_toFinset.1 ha)
  subst same
  have first : id ∈ order.toFinset := by
    by_contra stays
    exact out (sheds.mem_ids.2 ⟨mem_ids.2 tracked, stays⟩)
  have members : {a | a ∈ order} = {a | a ∈ order.toFinset} := by
    ext a
    exact List.mem_toFinset.symm
  refine ⟨order, d, run, topples, distinct, ⟨?_, fun S absorbs a ha => ?_⟩,
    sheds.freed tallied.coherent after distinct (List.mem_toFinset.1 first)⟩
  · rw [members]
    exact sheds.absorbs tallied.coherent after first
  · exact sheds.least S (Set.empty_subset S) absorbs.swallows a (List.mem_toFinset.2 ha)

end Counter

namespace Session

/-- An array of two arrays that share a third one, of one that holds itself and of one that a stack
holds. Nothing holds the array itself. -/
def diamond : List Step :=
  [.perform (.create "shared" (.list .array [.leaf .null] (some 0))) none true,
    .perform (.create "left" (.list .array [.named "shared"] (some 0))) none true,
    .perform (.create "right" (.list .array [.named "shared"] (some 0))) none true,
    .perform (.create "ring" (.list .array [] (some 0))) none true,
    .perform (.onList "ring" (.push (.named "ring"))) none true,
    .perform (.create "kept" (.list .array [] (some 0))) none true,
    .perform (.onEngine (.push (.named "kept"))) none true,
    .perform (.create "top" (.list .array
      [.named "left", .named "right", .named "ring", .named "kept"] (some 0))) none true,
    .perform (.onCounter 0 (.suspect (.named "top"))) none true]

theorem diamond_grown : Grown True 1 (run diamond (start {} default)).2 :=
  started_grown ⟨first_lt_one, first_lt_one, first_lt_one, first_lt_one, trivial, first_lt_one,
    trivial, first_lt_one, ⟨Nat.one_pos, trivial⟩, trivial⟩

/-- The array goes with the three arrays of the diamond. The one that holds itself keeps one of its
two references and waits for a pass. -/
theorem free_least_diamond : ∃ order d, let c := (run diamond (start {} default)).2.memory.counter 0
    (Counter.free 6).apply c = (.ok (), d) ∧ Counter.Topples [6] c order d ∧
      IsLeast {S | c.Absorbs 6 S} {a | a ∈ order} ∧ Counter.Freed order c d ∧
      d.tracked.keys = [4, 5] ∧ d.candidates.keys = [4] ∧ d.count = 2 := by
  have accounts := diamond_grown.reachable.sound.memory.accounts 0 diamond_grown.counters
  have tracked : ((run diamond (start {} default)).2.memory.counter 0).isTracked 6 = true := by
    decide +kernel
  obtain ⟨order, d, run, topples, -, least, freed⟩ := Counter.free_least accounts.coherent.tallied
    tracked (by decide +kernel) (by decide +kernel)
  have left : ((Counter.free 6).apply _).2 = d := congrArg Prod.snd run
  refine ⟨order, d, run, topples, least, freed, ?_, ?_, ?_⟩ <;> subst left <;> decide +kernel

end Session

end LiveItems
