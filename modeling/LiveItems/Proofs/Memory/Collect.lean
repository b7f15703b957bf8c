import LiveItems.Proofs.Memory.Sound
set_option autoImplicit false

namespace LiveItems

namespace Heap

variable {h : Heap} {counters : Nat}

theorem children_emptyAll (ids : List ItemId) (h : Heap) (a : ItemId) :
    (ids.foldl emptyOut h).children a = if a ∈ ids then [] else h.children a := by
  induction ids generalizing h with
  | nil => rfl
  | cons id ids ih =>
    rw [List.foldl_cons, ih, children_emptyOut]
    by_cases first : a = id
    · subst first
      rw [if_pos rfl, if_pos List.mem_cons_self, ite_self]
    · simp only [List.mem_cons, first, false_or, if_false]

theorem object?_emptyAll (ids : List ItemId) (h : Heap) (a : ItemId) :
    (ids.foldl emptyOut h).object? a =
      if a ∈ ids then (h.object? a).map fun o => { o with storage := o.storage.emptied }
      else h.object? a := by
  have twice : ∀ s : Storage, s.emptied.emptied = s.emptied := fun s => by cases s <;> rfl
  induction ids generalizing h with
  | nil => rfl
  | cons id ids ih =>
    rw [List.foldl_cons, ih, emptyOut, object?_modify]
    by_cases first : a = id
    · subst first
      rw [if_pos rfl, if_pos List.mem_cons_self, Option.map_map]
      simp only [Function.comp_def, twice, ite_self]
    · simp only [List.mem_cons, first, false_or, if_false]

theorem supply_emptyAll (ids : List ItemId) (h : Heap) :
    (ids.foldl emptyOut h).supply = h.supply ∧
      (ids.foldl emptyOut h).allocated = h.allocated := by
  induction ids generalizing h with
  | nil => exact ⟨rfl, rfl⟩
  | cons id ids ih => exact ih (h.emptyOut id)

theorem extends_emptyAll (ids : List ItemId) (h : Heap) : h.Extends (ids.foldl emptyOut h) := by
  induction ids generalizing h with
  | nil => exact .refl h
  | cons id ids ih =>
    have first : h.Extends (h.emptyOut id) :=
      .modify (fun _ _ => rfl) fun _ _ _ suits => Storage.suits_emptied suits
    exact first.trans (ih _)

theorem WellFormed.emptyAll (ids : List ItemId) (wf : h.WellFormed counters) :
    (ids.foldl emptyOut h).WellFormed counters := by
  induction ids generalizing h with
  | nil => exact wf
  | cons id ids ih =>
    refine ih (wf.modify (fun o _ => rfl) (fun o _ kind suits => Storage.suits_emptied suits)
      fun o _ x hx => ?_)
    rw [Storage.children_emptied] at hx
    exact absurd hx List.not_mem_nil

end Heap

namespace Memory

variable {strict : Prop} {roots : CounterId → Multiset Item} {m : Memory} {c : CounterId}

structure Collected (c : CounterId) (ids : List ItemId) (m m' : Memory) : Prop where
  swept : Pass.Swept (m.counter c) ids (m'.counter c)
  objects : ∀ a, m'.heap.object? a =
    if a ∈ ids then (m.heap.object? a).map fun o => { o with storage := o.storage.emptied }
    else m.heap.object? a
  children : ∀ a, m'.heap.children a = if a ∈ ids then [] else m.heap.children a
  counters : m'.counters.length = m.counters.length

theorem Sound.collect (sound : m.Sound strict roots) (hc : c < m.counters.length) :
    ∃ m' ids, (Memory.collect c).apply m = (.ok (m'.counter c).count, m') ∧
      m'.Sound strict roots ∧ m.Extends m' ∧ Collected c ids m m' := by
  obtain ⟨e, ids, run, account, swept⟩ := (sound.accounts c hc).sweep
  have ext := Heap.extends_emptyAll ids m.heap
  have own : (m.setCounter c e).counter c = e := by
    rw [counter_setCounter hc, if_pos rfl]
  have length := length_setCounter m c e
  -- what the pass has emptied is tracked by no counter, but for buffers, which hold nothing
  have kept : ∀ d p, p ∈ ((m.setCounter c e).counter d).ids → d < m.counters.length →
      (ids.foldl Heap.emptyOut m.heap).children p = m.heap.children p := by
    intro d p hp hd
    rw [Heap.children_emptyAll]
    split
    · rename_i emptied
      have garbage := swept.collected p emptied
      rw [counter_setCounter hc] at hp
      split at hp
      · exact absurd ((swept.ids p).1 hp).2 garbage.2
      · rename_i ne
        obtain ⟨data, stored⟩ := Heap.bytes_of_belongs_two ne
          ((sound.accounts d hd).within p hp) ((sound.accounts c hc).within p garbage.1)
        exact (Heap.children_bytes stored).symm
    · rfl
  have sinks := Pass.sweep_follows { counter := m.counter c }
  rw [run] at sinks
  have small : e.sums = .small := Counter.Sinks.sums sinks |>.trans (sound.small c)
  have acc : (m.setCounter c e).Accounted strict m.contents roots := sound.replace hc account small
  refine ⟨{ m.setCounter c e with heap := ids.foldl Heap.emptyOut m.heap }, ids, ?_, ?_,
    ⟨ext, length.ge⟩, ?_, fun a => Heap.object?_emptyAll ids m.heap a,
    fun a => Heap.children_emptyAll ids m.heap a, length⟩
  · have count : ({ m.setCounter c e with heap := ids.foldl Heap.emptyOut m.heap } :
        Memory).counter c = e := own
    rw [count, Memory.collect, Action.apply_of, run]
    rfl
  · refine ⟨acc.heap.emptyAll ids, fun d hd => ?_, acc.small,
      fun d y hy => ext.knows (sound.known d y hy), acc.outside⟩
    have old := acc.accounts d hd
    refine old.congr (fun p hp => ?_) fun p hp => ext.belongs (old.within p hp)
    exact congrArg _ (kept d p hp (length ▸ hd)).symm
  · have count : ({ m.setCounter c e with heap := ids.foldl Heap.emptyOut m.heap } :
        Memory).counter c = e := own
    rw [count]
    exact swept

theorem supply_collect (m : Memory) (c : CounterId) :
    ((Memory.collect c).attempt m).heap.supply = m.heap.supply ∧
      ((Memory.collect c).attempt m).heap.allocated = m.heap.allocated :=
  Heap.supply_emptyAll _ m.heap

end Memory

end LiveItems
