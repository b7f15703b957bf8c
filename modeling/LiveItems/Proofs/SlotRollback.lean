import LiveItems.Proofs.Accounting
import LiveItems.Proofs.Container.Effects
import LiveItems.Proofs.Unobserved
set_option autoImplicit false

namespace LiveItems

open LiveItems.Action (Ends)

namespace Memory

variable {strict : Prop} {roots : CounterId → Multiset Item} {m n t : Memory} {c d : CounterId}
  {x : Item} {e : Error}

/-- Passes over memories that hold the same, with the same roots, end with the same records. -/
theorem Sound.collect_sameRecords (sound : m.Sound strict roots) (sound' : n.Sound strict roots)
    (same : m.SameHeap n) (hc : c < m.counters.length) :
    ∃ p q, (Memory.collect c).apply m = (.ok (p.counter c).count, p) ∧
      (Memory.collect c).apply n = (.ok (q.counter c).count, q) ∧
      (p.counter c).SameRecords (q.counter c) := by
  have hc' : c < n.counters.length := same.counters ▸ hc
  obtain ⟨p, ids, run, after, -, collected⟩ := sound.collect hc
  obtain ⟨q, ids', run', after', -, collected'⟩ := sound'.collect hc'
  exact ⟨p, q, run, run', collected.sameRecords collected' sound sound' after after' hc hc' rfl
    (fun a => by rw [same.heap]) fun a _ => by rw [same.heap]⟩

theorem addRoot_ends (m : Memory) (c : CounterId) (x : Item) :
    Ends (fun _ t => t = m ∧ ¬(x.isCompound → m.heap.ownerOf x = some c))
      (fun _ t => m.Elsewhere c t ∧ (x.isCompound → m.heap.ownerOf x = some c))
      (addRoot c x) m := by
  by_cases owned : x.isCompound → m.heap.ownerOf x = some c
  · exact .of_ok (addRoot_apply owned) ⟨elsewhere_setCounter m c _, owned⟩
  · rcases mustBelong_cases m c x with ⟨why, refused⟩ | accepted
    · have unfolded : addRoot c x = (mustBelong c x >>= fun _ =>
          updateCounter c fun h => Counter.addRoots h x 1) := rfl
      refine .of_error (e := .invalidOperation why) (t := m) ?_ ⟨rfl, owned⟩
      rw [unfolded, Action.apply_bind, refused]
    · exact absurd accepted owned

end Memory

namespace Slot

open Memory

variable {m : Memory} {c : CounterId}

/-- The items of a list are accepted when all containers among them belong to the counter. -/
theorem addRoots_accepts (c : CounterId) (xs : List Item) : ∀ (m : Memory) (done : List Item),
    Ends (fun _ t => m.Elsewhere c t ∧ ¬∀ x ∈ xs, x.isCompound → m.heap.ownerOf x = some c)
      (fun _ t => m.Elsewhere c t ∧ ∀ x ∈ xs, x.isCompound → m.heap.ownerOf x = some c)
      (addRoots c done xs) m := by
  induction xs with
  | nil => exact fun m _ => .pure ⟨refl_of (Elsewhere c) m, fun x hx => absurd hx List.not_mem_nil⟩
  | cons x xs ih =>
    intro m done
    rcases (addRoot_ends m c x).cases with ⟨e, t, run, rfl, foreign⟩ | ⟨_, t, run, moved, owned⟩
    · refine .of_error (e := e) (t := (removeRoots c done.reverse).attempt t) ?_
        ⟨elsewhere_removeRoots c done.reverse t, fun fits => foreign (fits x List.mem_cons_self)⟩
      rw [addRoots, Action.apply_of, run]
    · have same : (addRoots c done (x :: xs)).apply m = (addRoots c (x :: done) xs).apply t := by
        rw [addRoots, Action.apply_of, run]
      rw [Ends, same]
      refine (ih t (x :: done)).mono ?_ ?_
      · rintro e u ⟨further, foreign⟩
        rw [moved.heap] at foreign
        exact ⟨trans_of (Elsewhere c) moved further, fun fits =>
          foreign fun y hy => fits y (List.mem_cons_of_mem x hy)⟩
      · rintro _ u ⟨further, fits⟩
        rw [moved.heap] at fits
        exact ⟨trans_of (Elsewhere c) moved further, List.forall_mem_cons.2 ⟨owned, fits⟩⟩

theorem create_accepts (m : Memory) (c : CounterId) (xs : List Item) :
    Ends (fun _ t => m.Elsewhere c t ∧ ¬∀ x ∈ xs, x.isCompound → m.heap.ownerOf x = some c)
      (fun _ t => m.Elsewhere c t ∧ ∀ x ∈ xs, x.isCompound → m.heap.ownerOf x = some c)
      (create c xs) m :=
  (addRoots_accepts c xs m []).bind fun _ _ accepted => .pure accepted

end Slot

namespace Session

open Memory

variable {suspects strict : Prop} {m t : Memory} {roots : CounterId → Multiset Item} {c : CounterId}
  {xs : List Item}

/-- The memory holds what it held, each root is counted as before, and the counts are exact. The
next pass of each counter ends as it would have ended before. -/
structure Undone (roots : CounterId → Multiset Item) (m t : Memory) : Prop extends
    SameHeap m t where
  rootCount : ∀ c a, (t.counter c).rootCount a = (m.counter c).rootCount a
  exact : ∀ c < t.counters.length, (t.counter c).Exact t.heap (roots c)
  passes : ∀ c < t.counters.length, ∃ p q,
    (Memory.collect c).apply m = (.ok (p.counter c).count, p) ∧
      (Memory.collect c).apply t = (.ok (q.counter c).count, q) ∧
      (p.counter c).SameRecords (q.counter c)

theorem undone_of_sound (sound : m.Sound strict roots) (sound' : t.Sound strict roots)
    (same : m.SameHeap t) : Undone roots m t := by
  refine ⟨same, fun c a => ?_, fun c hc => (sound'.accounts c hc).exact,
    fun c hc => sound.collect_sameRecords sound' same (same.counters ▸ hc)⟩
  by_cases hc : c < m.counters.length
  · rw [(sound.accounts c hc).exact.roots, (sound'.accounts c (same.counters ▸ hc)).exact.roots]
  · have outside := Nat.not_lt.1 hc
    rw [counter_of_le outside, counter_of_le (same.counters ▸ outside)]

/-- A slot is made exactly when all containers in it belong to its counter, and then each item has
one root more for each time it occurs. Otherwise it is refused and all is undone. -/
theorem Yields.slot_create (yields : Yields suspects m roots) (hc : c < m.counters.length)
    (known : ∀ x ∈ xs, m.heap.Knows x) :
    ((∀ x ∈ xs, x.isCompound → m.heap.ownerOf x = some c) →
      ∃ t, (Slot.create c xs).apply m = (.ok { counter := c, items := xs }, t) ∧
        m.Elsewhere c t ∧
        (∀ a, (t.counter c).rootCount a = (m.counter c).rootCount a + occurrences a xs) ∧
        (t.counter c).Exact t.heap (xs + roots c)) ∧
    ((¬∀ x ∈ xs, x.isCompound → m.heap.ownerOf x = some c) →
      ∃ why t, (Slot.create c xs).apply m = (.error (.invalidOperation why), t) ∧
        m.Elsewhere c t ∧ Undone roots m t) := by
  have sound := yields.sound
  rcases ((Slot.create_ends sound hc known).and (Slot.create_accepts m c xs)).cases with
    ⟨_, t, run, ⟨⟨why, rfl⟩, -, sound', -⟩, elsewhere, foreign⟩ |
    ⟨_, t, run, ⟨rfl, carries, -⟩, elsewhere, fits⟩
  · exact ⟨fun fits => absurd fits foreign, fun _ => ⟨why, t, run, elsewhere,
      undone_of_sound sound sound' elsewhere.toSameHeap⟩⟩
  · have exact := (carries.sound.accounts c carries.counter).exact
    rw [Pi.add_apply, rootsOf_self] at exact
    refine ⟨fun _ => ⟨t, run, elsewhere, fun a => ?_, exact⟩, fun foreign => absurd fits foreign⟩
    rw [exact.roots, (sound.accounts c hc).exact.roots, occurrences_add, Nat.add_comm]

/-- An array that holds itself and is held by no root, and an array without a counter. -/
def unheld : List Step :=
  [.perform (.create "array" (.list .array [.leaf .null] (some 0))) none true,
    .perform (.onList "array" (.push (.named "array"))) none true,
    .perform (.create "free" (.list .array [] none)) none true]

/-- The first array is registered and left behind as a candidate; a pass takes it away. -/
theorem slot_create_unheld :
    (∃ t, (Slot.create 0 [.object .array ((default : IdSupply).id 1), .null]).apply
        (run unheld (start {} default)).2.memory =
          (.ok { counter := 0, items := [.object .array ((default : IdSupply).id 1), .null] }, t)) ∧
      ∃ why t, (Slot.create 0 [.object .array ((default : IdSupply).id 1), .null,
          .object .array ((default : IdSupply).id 2)]).apply
        (run unheld (start {} default)).2.memory = (.error (.invalidOperation why), t) ∧
          Undone (run unheld (start {} default)).2.roots
            (run unheld (start {} default)).2.memory t := by
  have grown : Grown True 1 (run unheld (start {} default)).2 :=
    started_grown ⟨first_lt_one, trivial, fun _ none => absurd none (by simp), trivial⟩
  have array : (run unheld (start {} default)).2.memory.heap.storage?
      ((default : IdSupply).id 1) =
        some (.list [.leaf .null, .object .array ((default : IdSupply).id 1)]) := rfl
  have free : (run unheld (start {} default)).2.memory.heap.storage?
      ((default : IdSupply).id 2) = some (.list []) := rfl
  have null := Heap.Knows.leaf (run unheld (start {} default)).2.memory.heap .null
  have two : ∀ x ∈ [Item.object .array ((default : IdSupply).id 1), .null],
      (run unheld (start {} default)).2.memory.heap.Knows x :=
    List.forall_mem_cons.2 ⟨ListObject.knows_of_list array (.inl rfl),
      List.forall_mem_singleton.2 null⟩
  have three : ∀ x ∈ [Item.object .array ((default : IdSupply).id 1), .null,
      .object .array ((default : IdSupply).id 2)],
      (run unheld (start {} default)).2.memory.heap.Knows x :=
    List.forall_mem_append.2 ⟨two,
      List.forall_mem_singleton.2 (ListObject.knows_of_list free (.inl rfl))⟩
  obtain ⟨t, made, -⟩ := (Yields.slot_create (.during grown.reachable) grown.counters two).1
    (by decide +kernel)
  obtain ⟨why, u, failed, -, undone⟩ :=
    (Yields.slot_create (.during grown.reachable) grown.counters three).2 (by decide +kernel)
  exact ⟨⟨t, made⟩, why, u, failed, undone⟩

end Session

end LiveItems
