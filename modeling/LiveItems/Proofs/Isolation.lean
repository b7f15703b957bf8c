import LiveItems.Proofs.Session.Acts
set_option autoImplicit false

namespace LiveItems

open Memory

namespace Memory

variable {m : Memory} {c d : CounterId} {id : ItemId}

section Apart

variable (apart : m.Apart)
include apart

/-- What a counter tracks is an object, and reports to the counter unless it is a buffer. -/
theorem Apart.tracked (tracked : (m.counter c).isTracked id) :
    ∃ o, m.heap.object? id = some o ∧
      ((∀ data, o.storage ≠ .bytes data) → o.owner = some c) := by
  have inside := apart.confined c id (Counter.mem_ids.2 tracked)
  obtain ⟨o, ho⟩ := Heap.mem_ids.1 (Heap.mem_ids_of_belongs inside)
  refine ⟨o, ho, fun container => ?_⟩
  rcases inside with owned | ⟨data, stored⟩
  · rwa [Heap.owner, ho, Option.bind_some] at owned
  · rw [Heap.storage?, ho, Option.map_some] at stored
    exact absurd (Option.some.inj stored) (container data)

/-- A pass leaves alone all that another counter tracks, shared buffers as well. -/
theorem Apart.collect_spares (ne : d ≠ c) (tracked : (m.counter d).isTracked id) :
    ((collect c).attempt m).heap.object? id = m.heap.object? id := by
  have affects : m.Affects c ((Method.collect.call c).attempt m) :=
    Method.affects apart .collect fun _ same => absurd same (by simp [Method.added?])
  rw [Method.call, Action.attempt_eq, Action.apply_map] at affects
  exact affects.object?_eq ne.symm (apart.confined d id (Counter.mem_ids.2 tracked))

end Apart

end Memory

namespace Session

/-- In every session, a container that is stored in a container of a counter belongs to that
counter, and so does each container that the counter tracks. An act leaves the counters that it does
not concern as they are, and all objects that belong to these; in particular a pass of one counter
empties nothing that another one tracks. -/
theorem Arises.isolated {s : Session} (arises : Arises s) :
    (∀ p c, s.memory.heap.owner p = some c → ∀ x ∈ s.memory.heap.children p, x.isCompound →
      s.memory.heap.ownerOf x = some c) ∧
    (∀ c id, (s.memory.counter c).isTracked id → ∃ o, s.memory.heap.object? id = some o ∧
      ((∀ data, o.storage ≠ .bytes data) → o.owner = some c)) ∧
    (∀ a : Act, a.InRange s.memory.counters.length → ∀ d ∉ s.affects a,
      (s.act a).memory.counter d = s.memory.counter d ∧
        ∀ id, s.memory.heap.owner id = some d →
          (s.act a).memory.heap.object? id = s.memory.heap.object? id) ∧
    (∀ c d id, d ≠ c → (s.memory.counter d).isTracked id →
      ((collect c).attempt s.memory).heap.object? id = s.memory.heap.object? id) := by
  have proper := arises.proper
  have apart := proper.apart
  refine ⟨fun p c owned x held => (apart.heap.holds p x held).fits c owned,
    fun c id tracked => apart.tracked tracked, fun a inRange d outside => ?_,
    fun c d id ne tracked => apart.collect_spares ne tracked⟩
  have frames := (act_leads proper a inRange).walks.frames apart
  exact ⟨frames.counters d outside, fun id owned => frames.objects id d owned outside⟩

/-- Two arrays of different counters that share a buffer, and that nothing holds. -/
def sharing : List Act :=
  [.create "b" (.buffer [1]), .create "x" (.list .array [] (some 0)),
    .create "y" (.list .array [] (some 1)), .onList "x" (.push (.named "b")),
    .onList "y" (.push (.named "b")), .onCounter 0 (.suspect (.named "x")),
    .onCounter 1 (.suspect (.named "y"))].map (.perform 0 · none)

theorem arises_sharing :
    Arises (sharing.foldl act ((start {} default).act (.perform 0 .newCounter none))) := by
  have two : 2 ≤ ((start {} default).act (.perform 0 .newCounter none)).memory.counters.length :=
    le_rfl
  have counters : Arises ((start {} default).act (.perform 0 .newCounter none)) :=
    .act _ (.start {} default) trivial
  refine counters.acts sharing two fun a among => ?_
  simp only [sharing, List.map_cons, List.map_nil, List.mem_cons, List.not_mem_nil, or_false]
    at among
  rcases among with rfl | rfl | rfl | rfl | rfl | rfl | rfl <;>
    simp [Act.InRange, Command.InRange, Creation.Balanced]

/-- The pass of one counter empties its own array, and leaves the buffer in the other one. -/
theorem isolated_sharing :
    ∃ s, Arises s ∧ ((s.memory.counter 0).isTracked 1 ∧ (s.memory.counter 1).isTracked 1) ∧
      (s.memory.heap.children 2 = [.object .buffer 1] ∧
        ((collect 0).attempt s.memory).heap.children 2 = []) ∧
      s.memory.heap.children 3 = [.object .buffer 1] ∧
        ((collect 0).attempt s.memory).heap.object? 3 = s.memory.heap.object? 3 := by
  refine ⟨_, arises_sharing, ⟨rfl, rfl⟩, ⟨rfl, by decide +kernel⟩, rfl, ?_⟩
  exact arises_sharing.isolated.2.2.2 0 1 3 (by decide) rfl

end Session

end LiveItems
