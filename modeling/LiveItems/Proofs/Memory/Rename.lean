import LiveItems.Memory
import LiveItems.Proofs.Counter.RenamePasses
set_option autoImplicit false

namespace LiveItems

open LiveItems.Action (Echoes)

namespace Memory

def rename (f : ItemId ↪ ItemId) (m : Memory) : Memory where
  heap := m.heap.rename f
  counters := m.counters.map (Counter.rename f)

variable (f : ItemId ↪ ItemId) (m : Memory) (c : CounterId)

@[simp] theorem heap_rename : (m.rename f).heap = m.heap.rename f := rfl

@[simp] theorem counter_rename : (m.rename f).counter c = (m.counter c).rename f := by
  rw [counter, counter, List.getD_eq_getElem?_getD, List.getD_eq_getElem?_getD, rename,
    List.getElem?_map]
  cases m.counters[c]? with
  | none => exact (Counter.rename_fresh f).symm
  | some k => rfl

theorem setCounter_rename (x : Counter) :
    (m.rename f).setCounter c (x.rename f) = (m.setCounter c x).rename f := by
  simp only [setCounter, rename, List.map_set]

@[simp] theorem multiplicity_rename (parent child : Item) :
    (m.rename f).multiplicity c (parent.rename f) (child.rename f) =
      m.multiplicity c parent child := by
  rw [multiplicity, Item.id?_rename, Item.id?_rename, counter_rename, multiplicity]
  cases parent.id? with
  | none => rfl
  | some p =>
    cases child.id? with
    | none => rfl
    | some k =>
      simp only [Option.map_some, Counter.edges_rename, Edges.multiplicity_rekey]

variable {f}

theorem onCounter_echoes {α β : Type} {g : α → β} {x : Action Counter α} {y : Action Counter β}
    (echoes : Echoes f g (Counter.rename f) y x) :
    Echoes f g (rename f) (onCounter c y) (onCounter c x) :=
  echoes.onPart (fun m => counter_rename f m c) fun x m => setCounter_rename f m c x

theorem updateCounter_echoes {u u' : Heap → Counter → Counter}
    (same : ∀ h x, u' (h.rename f) (x.rename f) = (u h x).rename f) :
    Echoes f id (rename f) (updateCounter c u') (updateCounter c u) := by
  refine .modify fun m => ?_
  rw [counter_rename, ← setCounter_rename, ← same]
  rfl

theorem newCounter_echoes : Echoes f id (rename f) newCounter newCounter := by
  intro m
  have added : (m.rename f).counters ++ [Counter.fresh] =
      (m.counters ++ [Counter.fresh]).map (Counter.rename f) := by
    rw [List.map_append, List.map_singleton, Counter.rename_fresh]
    rfl
  have number : (m.rename f).counters.length = m.counters.length := List.length_map _
  simp only [newCounter, Action.apply_bind, Action.apply_get, Action.apply_set, Action.apply_pure,
    added, number]
  rfl

theorem newObject_echoes (o : Object) :
    Echoes f f (rename f) (newObject (o.rename f)) (newObject o) := by
  intro m
  have made := Heap.allocate_rename f m.heap o
  simp only [newObject, Action.apply_bind, Action.apply_get, Action.apply_set, Action.apply_pure,
    rename, made]
  rfl

theorem store_echoes (a : ItemId) (s : Storage) :
    Echoes f id (rename f) (store (f a) (s.rename f)) (store a s) :=
  .modify fun m =>
    congrArg (fun h => { m.rename f with heap := h }) (Heap.store_rename f m.heap a s)

theorem mustBelong_echoes (x : Item) :
    Echoes f id (rename f) (mustBelong c (x.rename f)) (mustBelong c x) := by
  refine .ite (by rw [Item.isCompound_rename]) (.get_bind fun m => ?_) (.pure _)
  simp only [rename, Heap.ownerOf_rename, Item.type_rename]
  cases m.heap.ownerOf x with
  | none => exact .refuse _
  | some owner => exact .ite Iff.rfl (.pure _) (.refuse _)

theorem addRoots_echoes (x : Item) (n : Nat) :
    Echoes f id (rename f) (addRoots c (x.rename f) n) (addRoots c x n) :=
  .ite Iff.rfl (.pure _) ((mustBelong_echoes c x).bind fun _ =>
    updateCounter_echoes c fun h k => Counter.addRoots_rename f k h x n)

theorem addLooseRoots_echoes (x : Item) (n : Nat) :
    Echoes f id (rename f) (addLooseRoots c (x.rename f) n) (addLooseRoots c x n) :=
  (updateCounter_echoes c fun _ _ => rfl).bind fun _ => addRoots_echoes c x n

theorem addRoot_echoes (x : Item) :
    Echoes f id (rename f) (addRoot c (x.rename f)) (addRoot c x) := addRoots_echoes c x 1

theorem removeRoot_echoes (x : Item) :
    Echoes f id (rename f) (removeRoot c (x.rename f)) (removeRoot c x) :=
  onCounter_echoes c (Counter.removeRoot_echoes x)

theorem addOccurrence_echoes (child : Item) (parent : ItemId) :
    Echoes f id (rename f) (addOccurrence c (child.rename f) (f parent))
      (addOccurrence c child parent) :=
  (mustBelong_echoes c child).bind fun _ =>
    updateCounter_echoes c fun h k => Counter.addOccurrence_rename f k h child parent

theorem removeOccurrence_echoes (child : Item) (parent : ItemId) :
    Echoes f id (rename f) (removeOccurrence c (child.rename f) (f parent))
      (removeOccurrence c child parent) :=
  onCounter_echoes c (Counter.removeOccurrence_echoes child parent)

theorem suspect_echoes (x : Item) :
    Echoes f id (rename f) (suspect c (x.rename f)) (suspect c x) :=
  (mustBelong_echoes c x).bind fun _ =>
    updateCounter_echoes c fun h k => Counter.suspect_rename f k h x

theorem collect_echoes : Echoes f id (rename f) (collect c) (collect c) := by
  intro m
  have swept := Pass.sweep_echoes (f := f) { counter := m.counter c }
  simp only [Pass.rename, List.map_nil, ← counter_rename] at swept
  simp only [collect, Action.apply_of, swept]
  rcases Pass.sweep.apply { counter := m.counter c } with ⟨r, p⟩
  refine Prod.ext ?_ ?_
  · cases r <;> rfl
  · have emptied := Heap.emptyOut_foldl_rename f p.collected m.heap
    have counted := setCounter_rename f m c p.counter
    simp only [rename] at emptied counted ⊢
    rw [emptied, counted]

theorem resetPeak_echoes : Echoes f id (rename f) (resetPeak c) (resetPeak c) :=
  updateCounter_echoes c fun _ k => Counter.resetPeak_rename f k

theorem removeRoots_echoes (xs : List Item) :
    Echoes f id (rename f) (Action.forAll (removeRoot c) (xs.map (Item.rename f)))
      (Action.forAll (removeRoot c) xs) :=
  .forAll (removeRoot_echoes c) xs

end Memory

end LiveItems
