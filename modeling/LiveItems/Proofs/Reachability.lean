import Mathlib.Data.Fintype.Card
import Mathlib.Data.Set.Finite.Basic
import LiveItems.Proofs.Session.Reachable
set_option autoImplicit false

namespace LiveItems

namespace Heap

def Stores (h : Heap) (p a : ItemId) : Prop := ∃ x ∈ h.children p, x.id? = some a

/-- Reachable through storage from the items in `held`. -/
def Reaches (h : Heap) (held : Multiset Item) (a : ItemId) : Prop :=
  ∃ x ∈ held, ∃ r, x.id? = some r ∧ Relation.ReflTransGen h.Stores r a

theorem stores_iff {h : Heap} {p a : ItemId} :
    h.Stores p a ↔ 0 < occurrences a (h.children p) := by
  rw [occurrences_pos]
  rfl

theorem Reaches.tail {h : Heap} {held : Multiset Item} {p a : ItemId} (reaches : h.Reaches held p)
    (stores : h.Stores p a) : h.Reaches held a := by
  obtain ⟨x, hx, r, hr, path⟩ := reaches
  exact ⟨x, hx, r, hr, path.tail stores⟩

/-- The count that `live` would have if it was what is live. -/
def weigh (h : Heap) (held : Multiset Item) (live : Finset ItemId) : Nat :=
  live.card + ∑ p ∈ live, leafOccurrences (h.children p) + leafOccurrences held

end Heap

namespace Counter

variable {strict : Prop} {S : Set ItemId} {h h' : Heap} {held : Multiset Item} {c c' : Counter}

section Accounts

variable (acc : Accounts strict S (fun p => h.children p) held c)
include acc

theorem Accounts.flow_pos_iff {p a : ItemId} :
    0 < c.flow p a ↔ p ∈ c.ids ∧ h.Stores p a := by
  rw [Heap.stores_iff]
  constructor
  · intro edge
    have hp := mem_ids_of_flow edge
    exact ⟨hp, acc.mirrors.flow p hp (by simp) a ▸ edge⟩
  · rintro ⟨hp, stores⟩
    rw [acc.mirrors.flow p hp (by simp) a]
    exact stores

theorem Accounts.mem_of_stores {p a : ItemId} (hp : p ∈ c.ids) (stores : h.Stores p a) :
    a ∈ c.ids :=
  acc.coherent.closed (acc.flow_pos_iff.2 ⟨hp, stores⟩)

theorem Accounts.rooted_iff {a : ItemId} : 0 < c.rootCount a ↔ ∃ x ∈ held, x.id? = some a := by
  rw [acc.mirrors.rooted]
  exact occurrences_pos

theorem Accounts.mem_of_path {p a : ItemId} (hp : p ∈ c.ids)
    (path : Relation.ReflTransGen h.Stores p a) : a ∈ c.ids := by
  induction path with
  | refl => exact hp
  | tail _ stores ih => exact acc.mem_of_stores ih stores

theorem Accounts.leads_iff {p a : ItemId} (hp : p ∈ c.ids) :
    c.Leads p a ↔ Relation.ReflTransGen h.Stores p a := by
  constructor
  · exact Relation.ReflTransGen.mono (fun p b edge => (acc.flow_pos_iff.1 edge).2) _ _
  · intro path
    induction path with
    | refl => exact .refl
    | tail before stores ih =>
      exact ih.tail (acc.flow_pos_iff.2 ⟨acc.mem_of_path hp before, stores⟩)

theorem Accounts.live_iff {a : ItemId} : c.Live a ↔ h.Reaches held a := by
  constructor
  · rintro ⟨r, rooted, path⟩
    obtain ⟨x, hx, hr⟩ := acc.rooted_iff.1 rooted
    exact ⟨x, hx, r, hr, (acc.leads_iff (mem_ids_of_roots rooted)).1 path⟩
  · rintro ⟨x, hx, r, hr, path⟩
    have rooted := acc.rooted_iff.2 ⟨x, hx, hr⟩
    exact ⟨r, rooted, (acc.leads_iff (mem_ids_of_roots rooted)).2 path⟩

theorem Accounts.mem_of_reaches {a : ItemId} (reaches : h.Reaches held a) : a ∈ c.ids := by
  obtain ⟨x, hx, r, hr, path⟩ := reaches
  exact acc.mem_of_path (mem_ids_of_roots (acc.rooted_iff.2 ⟨x, hx, hr⟩)) path

theorem Accounts.count_eq : c.count = h.weigh held c.ids := by
  have leaves : ∀ p ∈ c.ids, c.leafCount p = leafOccurrences (h.children p) :=
    fun p hp => acc.mirrors.leaves p hp (by simp)
  rw [acc.mirrors.count, Heap.weigh, weight, Finset.sum_add_distrib, ← Finset.card_eq_sum_ones,
    Finset.sum_congr rfl leaves]

end Accounts

/-- In a finite set in which every element has a predecessor, every element comes from a cycle. -/
theorem exists_cycle_above {α : Type} {r : α → α → Prop} {D : Set α} (finite : D.Finite)
    (pred : ∀ a ∈ D, ∃ p ∈ D, r p a) {a : α} (ha : a ∈ D) :
    ∃ x ∈ D, Relation.TransGen r x x ∧ Relation.ReflTransGen r x a := by
  by_contra acyclic
  push Not at acyclic
  -- the elements from which `a` can be reached have a first one, and that has a predecessor
  let above : Set α := {x | x ∈ D ∧ Relation.ReflTransGen r x a}
  have few : Finite above := (Set.Finite.subset finite fun x hx => hx.1).to_subtype
  let before : above → above → Prop := fun x y => Relation.TransGen r x y
  have trans : IsTrans above before := ⟨fun _ _ _ first second => first.trans second⟩
  have irrefl : Std.Irrefl before := ⟨fun x cycle => acyclic x x.2.1 cycle x.2.2⟩
  have wf : WellFounded before := Finite.wellFounded_of_trans_of_irrefl before
  obtain ⟨first, -, least⟩ := wf.has_min Set.univ ⟨⟨a, ha, .refl⟩, trivial⟩
  obtain ⟨p, hp, edge⟩ := pred first first.2.1
  exact least ⟨p, hp, .head edge first.2.2⟩ trivial (.single edge)

/-- Under a strict account, what is tracked and not live is held by something that is no more live
than itself. -/
theorem Accounts.exists_pred (acc : Accounts strict S (fun p => h.children p) held c)
    (firm : strict) {a : ItemId} (tracked : a ∈ c.ids) (dead : ¬h.Reaches held a) :
    ∃ p, (p ∈ c.ids ∧ ¬h.Reaches held p) ∧ h.Stores p a := by
  have unrooted : c.rootCount a = 0 := by
    by_contra rooted
    exact dead (acc.live_iff.1 ⟨a, Nat.pos_of_ne_zero rooted, .refl⟩)
  have referenced := acc.mirrors.firm firm a tracked (Set.notMem_empty a) unrooted
  rw [acc.coherent.references, Nat.add_zero] at referenced
  obtain ⟨p, hp, edge⟩ := Finset.sum_pos_iff.1 referenced
  obtain ⟨-, stores⟩ := acc.flow_pos_iff.1 edge
  exact ⟨p, ⟨hp, fun reaches => dead (reaches.tail stores)⟩, stores⟩

theorem Accounts.exists_cycle (acc : Accounts strict S (fun p => h.children p) held c)
    (firm : strict) {a : ItemId} (tracked : a ∈ c.ids) (dead : ¬h.Reaches held a) :
    ∃ r, (r ∈ c.ids ∧ ¬h.Reaches held r) ∧ Relation.TransGen h.Stores r r ∧
      Relation.ReflTransGen h.Stores r a := by
  have finite : {p | p ∈ c.ids ∧ ¬h.Reaches held p}.Finite :=
    c.ids.finite_toSet.subset fun p hp => hp.1
  exact exists_cycle_above finite (fun b hb => acc.exists_pred firm hb.1 hb.2) ⟨tracked, dead⟩

end Counter

namespace Memory

variable {suspects strict : Prop} {m m' : Memory} {roots : CounterId → Multiset Item}
  {c : CounterId}

/-- A pass takes nothing out of what is live. -/
theorem Collected.reaches_iff {ids : List ItemId} (collected : Collected c ids m m')
    (sound : m.Sound strict roots) (hc : c < m.counters.length) (a : ItemId) :
    m'.heap.Reaches (roots c) a ↔ m.heap.Reaches (roots c) a := by
  have acc := sound.accounts c hc
  constructor
  · rintro ⟨x, hx, r, hr, path⟩
    refine ⟨x, hx, r, hr, Relation.ReflTransGen.mono (fun p b stores => ?_) _ _ path⟩
    obtain ⟨y, hy, hb⟩ := stores
    rw [collected.children] at hy
    split at hy
    · exact absurd hy List.not_mem_nil
    · exact ⟨y, hy, hb⟩
  · rintro ⟨x, hx, r, hr, path⟩
    induction path with
    | refl => exact ⟨x, hx, r, hr, .refl⟩
    | @tail p b before stores ih =>
      refine ih.tail ?_
      obtain ⟨y, hy, hb⟩ := stores
      refine ⟨y, ?_, hb⟩
      have live : (m.counter c).Live p := acc.live_iff.2 ⟨x, hx, r, hr, before⟩
      rwa [collected.children, if_neg fun garbage => (collected.swept.collected p garbage).2 live]

/-- A pass changes nothing in what any roots reach: the objects that other counters reach as well
are buffers. -/
theorem Collected.object_of_reaches {ids : List ItemId} (collected : Collected c ids m m')
    (sound : m.Sound strict roots) (hc : c < m.counters.length) {d : CounterId} {a : ItemId}
    (reaches : m.heap.Reaches (roots d) a) : m'.heap.object? a = m.heap.object? a := by
  rw [collected.objects]
  split
  · rename_i emptied
    have garbage := collected.swept.collected a emptied
    have hd : d < m.counters.length := by
      by_contra none
      obtain ⟨x, hx, -⟩ := reaches
      rw [sound.outside d (Nat.not_lt.1 none)] at hx
      exact absurd hx (Multiset.notMem_zero x)
    have acc := sound.accounts c hc
    have acc' := sound.accounts d hd
    have ne : c ≠ d := by
      rintro rfl
      exact garbage.2 (acc.live_iff.2 reaches)
    obtain ⟨data, stored⟩ := Heap.bytes_of_belongs_two ne (acc.within a garbage.1)
      (acc'.within a (acc'.mem_of_reaches reaches))
    obtain ⟨o, ho, storage⟩ := Option.map_eq_some_iff.1 stored
    rw [ho, Option.map_some, storage, Storage.emptied, ← storage]
  · rfl

theorem collect_of_isEmpty (none : (m.counter c).candidates.isEmpty = true) :
    (Memory.collect c).apply m = (.ok (m.counter c).count, m) := by
  have run :
      Pass.sweep.apply { counter := m.counter c } = (.ok (), { counter := m.counter c }) := by
    simp only [Pass.sweep, Action.apply_bind, Action.apply_get, none, if_true, Action.apply_pure]
  rw [Memory.collect, Action.apply_of, run]
  simp only [List.foldl_nil, setCounter_self]
  rfl

end Memory

namespace Session

variable {suspects : Prop} {m : Memory} {roots : CounterId → Multiset Item} {c : CounterId}

/-- In every state of a balanced run a pass succeeds and leaves exactly what roots reach, along the
storage before it and after it, and a second pass changes nothing at all. -/
theorem Yields.collect_exact (yields : Yields suspects m roots) (hc : c < m.counters.length) :
    ∃ m', (Memory.collect c).apply m = (.ok (m'.counter c).count, m') ∧
      (∀ a, (m'.counter c).isTracked a = true ↔ m'.heap.Reaches (roots c) a) ∧
      (∀ a, m'.heap.Reaches (roots c) a ↔ m.heap.Reaches (roots c) a) ∧
      (m'.counter c).count = m'.heap.weigh (roots c) (m'.counter c).tracked.keys.toFinset ∧
      (m'.counter c).candidates.isEmpty = true ∧
      (Memory.collect c).apply m' = (.ok (m'.counter c).count, m') := by
  have sound := yields.sound
  obtain ⟨m', ids, run, sound', moved, collected⟩ := sound.collect hc
  have acc := sound.accounts c hc
  have acc' := sound'.accounts c (collected.counters ▸ hc)
  have same := collected.reaches_iff sound hc
  -- the pass judges recorded edges, and these lead where the storage leads
  refine ⟨m', run, fun a => ?_, same, acc'.count_eq, collected.swept.candidates,
    Memory.collect_of_isEmpty collected.swept.candidates⟩
  rw [← Counter.mem_ids, collected.swept.ids, same, ← acc.live_iff]
  exact ⟨fun tracked => tracked.2, fun live => ⟨acc.mem_of_reaches (acc.live_iff.1 live), live⟩⟩

/-- An array that holds itself, and that a stack has let go. -/
def abandoned : List Step :=
  [.perform (.create "array" (.list .array [] (some 0))) none true,
    .perform (.onList "array" (.push (.named "array"))) none true,
    .perform (.onEngine (.push (.named "array"))) none true,
    .perform (.onEngine .pop) none true]

theorem abandoned_balanced (suspects : Prop) : Step.AllBalanced suspects 1 abandoned := by
  refine ⟨fun c hc => ?_, trivial, trivial, trivial, trivial⟩
  obtain rfl := Option.some.inj hc
  exact Nat.one_pos

theorem abandoned_grown (suspects : Prop) :
    Grown suspects 1 (run abandoned (start {} default)).2 :=
  run_grown abandoned _ (abandoned_balanced suspects) (start_grown suspects {} default)

theorem abandoned_dead (h : Heap) (a : ItemId) :
    ¬h.Reaches ((run abandoned (start {} default)).2.roots 0) a := by
  have none : (run abandoned (start {} default)).2.roots 0 = 0 := by decide +kernel
  rw [none]
  rintro ⟨x, hx, -⟩
  exact absurd hx (Multiset.notMem_zero x)

theorem collect_exact_abandoned :
    ((run abandoned (start {} default)).2.memory.counter 0).count = 1 ∧
      ∃ m', (Memory.collect 0).apply (run abandoned (start {} default)).2.memory =
          (.ok (m'.counter 0).count, m') ∧ ∀ a, (m'.counter 0).isTracked a = false := by
  obtain ⟨m', collected, tracked, -⟩ := Yields.collect_exact
    (.during (abandoned_grown True).reachable) (abandoned_grown True).counters
  refine ⟨by decide +kernel, m', collected, fun a => Bool.eq_false_iff.2 fun held => ?_⟩
  exact abandoned_dead _ a ((tracked a).1 held)

/-- In every state of a balanced run in which no items are made candidates by hand, what is tracked
and not live hangs below a cycle of such objects. Without such cycles the count is that of what is
live. -/
theorem Yields.lingering_cyclic (yields : Yields False m roots) (hc : c < m.counters.length) :
    (∀ a, (m.counter c).isTracked a = true → ¬m.heap.Reaches (roots c) a →
      ∃ r, (m.counter c).isTracked r = true ∧ ¬m.heap.Reaches (roots c) r ∧
        Relation.TransGen m.heap.Stores r r ∧ Relation.ReflTransGen m.heap.Stores r a) ∧
    ((∀ r, (m.counter c).isTracked r = true → ¬m.heap.Reaches (roots c) r →
        ¬Relation.TransGen m.heap.Stores r r) →
      ∃ live : Finset ItemId, (∀ a, a ∈ live ↔ m.heap.Reaches (roots c) a) ∧
        (m.counter c).count = m.heap.weigh (roots c) live) := by
  have acc := yields.sound.accounts c hc
  have lingering : ∀ a, (m.counter c).isTracked a = true → ¬m.heap.Reaches (roots c) a →
      ∃ r, (m.counter c).isTracked r = true ∧ ¬m.heap.Reaches (roots c) r ∧
        Relation.TransGen m.heap.Stores r r ∧ Relation.ReflTransGen m.heap.Stores r a := by
    intro a tracked dead
    obtain ⟨r, ⟨hr, dead'⟩, cycle, path⟩ :=
      acc.exists_cycle (fun none => none) (Counter.mem_ids.2 tracked) dead
    exact ⟨r, Counter.mem_ids.1 hr, dead', cycle, path⟩
  refine ⟨lingering, fun acyclic => ⟨(m.counter c).ids, fun a => ⟨fun tracked => ?_,
    acc.mem_of_reaches⟩, acc.count_eq⟩⟩
  by_contra dead
  obtain ⟨r, hr, dead', cycle, -⟩ := lingering a (Counter.mem_ids.1 tracked) dead
  exact acyclic r hr dead' cycle

theorem lingering_cyclic_abandoned :
    ∃ r, Relation.TransGen (run abandoned (start {} default)).2.memory.heap.Stores r r ∧
      Relation.ReflTransGen (run abandoned (start {} default)).2.memory.heap.Stores r
        ((default : IdSupply).id 1) := by
  have tracked : ((run abandoned (start {} default)).2.memory.counter 0).isTracked
      ((default : IdSupply).id 1) = true := by
    decide +kernel
  obtain ⟨r, -, -, cycle, path⟩ := (Yields.lingering_cyclic
    (.during (abandoned_grown False).reachable) (abandoned_grown False).counters).1 _ tracked
    (abandoned_dead _ _)
  exact ⟨r, cycle, path⟩

end Session

end LiveItems
