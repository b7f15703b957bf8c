import LiveItems.Proofs.Session.Echoes
set_option autoImplicit false

/-!
# Ids do not matter

Two sessions that get their ids from different supplies go through the same steps. The `i`-th object
of one corresponds to the `i`-th object of the other. Up to this correspondence, all that a session
reports, stores and records is the same after every step, and so are the orders that drive a pass:
those of the candidates, of the edges and of the components.

Both runs are images of one run in which the objects are named by their numbers.
-/

namespace LiveItems

def IdSupply.embedding (σ : IdSupply) : Nat ↪ ItemId := ⟨σ.id, fun i j same => σ.injective i j same⟩

def Alike {α : Type} (rename : (Nat ↪ ItemId) → α → α) (σ τ : IdSupply) (x y : α) : Prop :=
  ∃ z, x = rename σ.embedding z ∧ y = rename τ.embedding z

namespace Session

/-- Two sessions with ids from `σ` and `τ` are the same up to the ids. -/
structure Corresponds (σ τ : IdSupply) (s t : Session) : Prop where
  whole : Alike rename σ τ s t
  /-- Counts, peaks, numbers of tracked objects and candidates, and totals over the passes. -/
  readings : s.readings = t.readings
  /-- The stage, the fault, and what the engine holds. -/
  view : Alike EngineView.rename σ τ s.machine.view t.machine.view
  stack (name : String) : Alike (fun f => Option.map (Stack.rename f)) σ τ
    s.namedStacks[name]? t.namedStacks[name]?
  slot (name : String) : Alike (fun f => Option.map (Slot.rename f)) σ τ
    s.namedSlots[name]? t.namedSlots[name]?
  name (name : String) : Alike (fun f => Option.map (Item.rename f)) σ τ
    s.names[name]? t.names[name]?
  allocated : s.memory.heap.allocated = t.memory.heap.allocated
  object (i : Nat) : Alike (fun f => Option.map (Object.rename f)) σ τ
    (s.memory.heap.object? (σ.id i)) (t.memory.heap.object? (τ.id i))
  /-- The roots, the references, the leaves and the edges in their order. -/
  entry (c : CounterId) (i : Nat) : Alike (fun f => Option.map (Entry.rename f)) σ τ
    ((s.memory.counter c).get? (σ.id i)) ((t.memory.counter c).get? (τ.id i))
  successors (c : CounterId) (i : Nat) : Alike (fun f => List.map f) σ τ
    ((s.memory.counter c).successors (σ.id i)) ((t.memory.counter c).successors (τ.id i))
  candidates (c : CounterId) : Alike (fun f => List.map f) σ τ
    (s.memory.counter c).candidates.keys (t.memory.counter c).candidates.keys
  /-- What a pass would complete from here, component by component. -/
  components (c : CounterId) : Alike (fun f => List.map (List.map f)) σ τ
    (s.memory.counter c).candidateComponents.1 (t.memory.counter c).candidateComponents.1

theorem Corresponds.of_images (σ τ : IdSupply) (u : Session) :
    Corresponds σ τ (u.rename σ.embedding) (u.rename τ.embedding) where
  whole := ⟨u, rfl, rfl⟩
  readings := (readings_rename u).trans (readings_rename u).symm
  view := ⟨u.machine.view, Machine.view_rename _, Machine.view_rename _⟩
  stack name := ⟨u.namedStacks[name]?, Std.ExtTreeMap.getElem?_map, Std.ExtTreeMap.getElem?_map⟩
  slot name := ⟨u.namedSlots[name]?, Std.ExtTreeMap.getElem?_map, Std.ExtTreeMap.getElem?_map⟩
  name name := ⟨u.names[name]?, Std.ExtTreeMap.getElem?_map, Std.ExtTreeMap.getElem?_map⟩
  allocated := rfl
  object i := ⟨u.memory.heap.object? i, Heap.object?_rename _ _ i, Heap.object?_rename _ _ i⟩
  entry c i := by
    refine ⟨(u.memory.counter c).get? i, ?_, ?_⟩ <;> rw [memory_rename, Memory.counter_rename] <;>
      exact Counter.get?_rename _ _ i
  successors c i := by
    refine ⟨(u.memory.counter c).successors i, ?_, ?_⟩ <;>
      rw [memory_rename, Memory.counter_rename] <;> exact Counter.successors_rename _ _ i
  candidates c := by
    refine ⟨(u.memory.counter c).candidates.keys, ?_, ?_⟩ <;>
      rw [memory_rename, Memory.counter_rename] <;> exact OrderedMap.keys_rekey ..
  components c := by
    refine ⟨(u.memory.counter c).candidateComponents.1, ?_, ?_⟩ <;>
      rw [memory_rename, Memory.counter_rename, Counter.candidateComponents_rename]

theorem start_rename (limits : Limits) (σ : IdSupply) :
    (start limits {}).rename σ.embedding = start limits σ := by
  have heap : Heap.rename σ.embedding {} = { supply := σ } := by
    rw [Heap.rename, Table.rekey_empty]
    rfl
  have unnamed : ∀ {β : Type} (g : β → β), (({} : Std.ExtTreeMap String β).map fun _ => g) = {} :=
    fun g => Std.ExtTreeMap.ext_getElem? fun k => by simp
  simp only [start, rename, Machine.rename, Memory.rename, heap, unnamed, List.map_cons,
    List.map_nil, Counter.rename_fresh]
  rfl

theorem run_start (limits : Limits) (σ : IdSupply) (steps : List Step) :
    run steps (start limits σ) =
      ((run steps (start limits {})).1.map (Report.rename σ.embedding),
        (run steps (start limits {})).2.rename σ.embedding) := by
  rw [← start_rename limits σ, run_rename]

theorem trace_start (limits : Limits) (σ : IdSupply) (steps : List Step) :
    trace steps (start limits σ) = renameMoves σ.embedding (trace steps (start limits {})) := by
  rw [← start_rename limits σ, trace_rename]

theorem forall₂_images {α β : Type} {r : β → β → Prop} {g h : α → β} (related : ∀ a, r (g a) (h a))
    (as : List α) : List.Forall₂ r (as.map g) (as.map h) := by
  rw [List.forall₂_map_left_iff, List.forall₂_map_right_iff]
  exact List.forall₂_same.2 fun a _ => related a

/-- Any steps give the same reports, moves and sessions up to the ids, at their end as on the way,
and the sessions come to corresponding ends. The same holds of executions in which the host makes
anything of the results in its bodies. -/
theorem run_corresponds (limits : Limits) (σ τ : IdSupply) (steps : List Step) :
    List.Forall₂ (Alike Report.rename σ τ) (run steps (start limits σ)).1
        (run steps (start limits τ)).1 ∧
      List.Forall₂ (Alike Move.rename σ τ) (trace steps (start limits σ))
        (trace steps (start limits τ)) ∧
      List.Forall₂ (Corresponds σ τ)
        (Move.visited (start limits σ) (trace steps (start limits σ)))
        (Move.visited (start limits τ) (trace steps (start limits τ))) ∧
      Corresponds σ τ (run steps (start limits σ)).2 (run steps (start limits τ)).2 ∧
      Corresponds σ τ (run steps (start limits σ)).2.close (run steps (start limits τ)).2.close ∧
      ∀ (moves : List Move) (u : Session), Executes (start limits {}) moves u →
        Executes (start limits σ) (renameMoves σ.embedding moves) (u.rename σ.embedding) ∧
        Executes (start limits τ) (renameMoves τ.embedding moves) (u.rename τ.embedding) ∧
        List.Forall₂ (Corresponds σ τ)
          (Move.visited (start limits σ) (renameMoves σ.embedding moves))
          (Move.visited (start limits τ) (renameMoves τ.embedding moves)) := by
  have visited : ∀ moves : List Move, List.Forall₂ (Corresponds σ τ)
      (Move.visited (start limits σ) (renameMoves σ.embedding moves))
      (Move.visited (start limits τ) (renameMoves τ.embedding moves)) := by
    intro moves
    rw [← start_rename limits σ, ← start_rename limits τ, Move.visited_rename, Move.visited_rename]
    exact forall₂_images (Corresponds.of_images σ τ) _
  have executes : ∀ (ρ : IdSupply) {moves : List Move} {u : Session},
      Executes (start limits {}) moves u →
        Executes (start limits ρ) (renameMoves ρ.embedding moves) (u.rename ρ.embedding) := by
    intro ρ moves u execution
    rw [← start_rename limits ρ]
    exact execution.rename
  -- both sides are images of the run that names objects by their numbers
  rw [run_start limits σ, run_start limits τ, trace_start limits σ, trace_start limits τ]
  refine ⟨forall₂_images (fun r => ⟨r, rfl, rfl⟩) _, ?_, visited _, .of_images σ τ _, ?_,
    fun moves u execution => ⟨executes σ execution, executes τ execution, visited moves⟩⟩
  · rw [renameMoves_eq_map, renameMoves_eq_map]
    exact forall₂_images (fun move => ⟨move, rfl, rfl⟩) _
  · rw [close_rename, close_rename]
    exact .of_images σ τ _

/-- Ids with gaps of six between them, the first of which is 47. -/
def spread : IdSupply where
  id n := 7 * n + 40
  injective i j same := Nat.eq_of_mul_eq_mul_left (by decide) (Nat.add_right_cancel same)

/-- A list that holds itself loses its root, and then one that it does not have. -/
def knotted : List Step :=
  [.perform (.create "list" (.list .array [] (some 0))) none false,
    .perform (.onList "list" (.push (.named "list"))) none false,
    .perform (.onEngine (.push (.named "list"))) none false,
    .perform (.onEngine .pop) none false,
    .perform (.onCounter 0 (.removeRoot (.named "list"))) none false]

theorem corresponds_knotted :
    List.Forall₂ (Corresponds {} spread)
        (Move.visited (start {} {}) (trace knotted (start {} {})))
        (Move.visited (start {} spread) (trace knotted (start {} spread))) ∧
      Executes (start {} spread) (renameMoves spread.embedding (trace knotted (start {} {})))
        ((run knotted (start {} {})).2.rename spread.embedding) ∧
      ((run knotted (start {} {})).1.map Report.outcome).getLast? =
        some (.error (.invariantViolation (.negativeRoots 1))) ∧
      ((run knotted (start {} spread)).1.map Report.outcome).getLast? =
        some (.error (.invariantViolation (.negativeRoots 47))) := by
  have corresponds := run_corresponds {} {} spread knotted
  exact ⟨corresponds.2.2.1, (corresponds.2.2.2.2.2 _ _ (run_executes knotted _)).2.1,
    by decide +kernel, by decide +kernel⟩

end Session

end LiveItems
