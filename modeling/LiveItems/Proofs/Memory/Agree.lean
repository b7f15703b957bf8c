import Mathlib.Data.Set.Insert
import LiveItems.Roots.Basic
import LiveItems.Proofs.Twins
set_option autoImplicit false

/-!
# Memories that agree on what can be seen

Two memories agree on a set of objects when they store the same in them and the set leads nowhere
else. What counters have recorded and what is stored in other objects may differ. The counters do
not decide how an operation ends, unless they find a violation.
-/

namespace LiveItems

open LiveItems.Action (Faithful Follows Twins)

def Item.Within (K : Set ItemId) (x : Item) : Prop := ∀ a, x.id? = some a → a ∈ K

theorem Item.Within.leaf (K : Set ItemId) (l : Leaf) : (Item.leaf l).Within K :=
  fun _ h => absurd h (by simp [Item.id?])

theorem Item.Within.mono {K K' : Set ItemId} {x : Item} (within : x.Within K) (subset : K ⊆ K') :
    x.Within K' := fun a ha => subset (within a ha)

namespace Counter

theorem faithful_decrease (n : Nat) : Faithful (decrease n) := by
  intro c
  refine .get_bind ?_
  split
  · exact .violate ⟨_, rfl, nofun⟩
  · exact trivial

theorem faithful_releaseChildren (parent : ItemId) (children : List (ItemId × Nat))
    (unheld : List ItemId) : Faithful (releaseChildren parent children unheld) := by
  induction children generalizing unheld with
  | nil => exact fun _ => trivial
  | cons child rest ih =>
    intro c
    rw [releaseChildren]
    refine .get_bind ?_
    split
    · exact .violate ⟨_, rfl, nofun⟩
    · split
      · exact .violate ⟨_, rfl, nofun⟩
      · refine Faithful.bind (.modify _) (fun _ => ?_) c
        split
        · exact ih _
        · split
          · exact ih _
          · exact .bind (.modify _) fun _ => ih _

theorem faithful_freeOne (id : ItemId) : Faithful (freeOne id) := by
  intro c
  refine .get_bind ?_
  split
  · exact trivial
  · rename_i e _
    refine Faithful.bind (.modify _) (fun _ => ?_) c
    split
    · exact fun _ => .violate ⟨_, rfl, nofun⟩
    · exact .bind (.modify _) fun _ => .bind (faithful_decrease _) fun _ =>
        faithful_releaseChildren id _ _

theorem faithful_cascade (fuel : Nat) (unheld : List ItemId) : Faithful (cascade fuel unheld) := by
  induction fuel generalizing unheld with
  | zero => exact fun _ => trivial
  | succ fuel ih =>
    intro c
    refine .get_bind ?_
    split
    · exact trivial
    · exact Faithful.bind (faithful_freeOne _) (fun _ => ih _) c

theorem faithful_free (id : ItemId) : Faithful (free id) :=
  fun c => .get_bind (faithful_cascade _ _ c)

theorem faithful_release (id : ItemId) (n : Nat) : Faithful (release id n) := by
  intro c
  refine .get_bind ?_
  split
  · exact .violate ⟨_, rfl, nofun⟩
  · split
    · exact .violate ⟨_, rfl, nofun⟩
    · refine Faithful.bind (.modify _) (fun _ => ?_) c
      split
      · exact fun _ => trivial
      · split
        · exact faithful_free id
        · exact .modify _

theorem faithful_removeRoot (x : Item) : Faithful (removeRoot x) := by
  intro c
  rw [removeRoot]
  split
  · exact faithful_decrease 1 c
  · refine .get_bind ?_
    split
    · exact .violate ⟨_, rfl, nofun⟩
    · split
      · exact .violate ⟨_, rfl, nofun⟩
      · refine Faithful.bind (.modify _) (fun _ => ?_) c
        split
        · exact fun _ => trivial
        · split
          · exact faithful_free _
          · exact .modify _

theorem faithful_removeOccurrence (child : Item) (parent : ItemId) :
    Faithful (removeOccurrence child parent) := by
  intro c
  refine .get_bind ?_
  split
  · exact trivial
  · split
    · split
      · exact .violate ⟨_, rfl, nofun⟩
      · exact Faithful.bind (.modify _) (fun _ => faithful_decrease 1) c
    · split
      · exact .violate ⟨_, rfl, nofun⟩
      · exact Faithful.bind (.modify _) (fun _ => faithful_release _ 1) c

end Counter

namespace Pass

theorem faithful_onCounter {x : Action Counter Unit} (faithful : Faithful x) :
    Faithful (onCounter x) :=
  fun p => Action.Ends.onPart (fun p : Pass => p.counter) (faithful p.counter)
    (fun _ _ failed => failed) fun _ _ _ => trivial

theorem faithful_releaseOutside (members : Std.ExtTreeMap ItemId Unit)
    (edges : List (ItemId × Nat)) : Faithful (releaseOutside members edges) := by
  induction edges with
  | nil => exact fun _ => trivial
  | cons edge rest ih =>
    rw [releaseOutside]
    split
    · exact (faithful_onCounter (Counter.faithful_release _ _)).bind fun _ => ih
    · exact ih

theorem faithful_freeComponent (ids : List ItemId) : Faithful (freeComponent ids) := by
  refine fun p => .get_bind (Faithful.bind (.modify _) (fun _ => ?_) p)
  refine (faithful_onCounter (Counter.faithful_decrease _)).bind fun _ => ?_
  exact .bind (.modify _) fun _ => .forM (fun (e : Entry) => faithful_releaseOutside _ _) _

theorem faithful_judge (components : List (List ItemId)) : Faithful (judge components) := by
  induction components with
  | nil => exact fun _ => trivial
  | cons ids rest ih =>
    refine fun p => .get_bind ?_
    split
    · exact (faithful_freeComponent ids).bind (fun _ => ih) p
    · exact ih p

theorem faithful_sweep : Faithful sweep := by
  refine fun p => .get_bind ?_
  by_cases none : p.counter.candidates.isEmpty = true
  · simp only [if_pos none]
    exact trivial
  · simp only [if_neg none]
    exact Faithful.bind (.modify _) (fun _ => (faithful_judge _).bind fun _ => .modify _) p

end Pass

namespace Memory

structure SameHeap (m m' : Memory) : Prop where
  heap : m'.heap = m.heap
  counters : m'.counters.length = m.counters.length

instance : IsPreorder Memory SameHeap where
  refl _ := ⟨rfl, rfl⟩
  trans _ _ _ first second :=
    ⟨second.heap.trans first.heap, second.counters.trans first.counters⟩

theorem sameHeap_setCounter (m : Memory) (c : CounterId) (e : Counter) :
    m.SameHeap (m.setCounter c e) := ⟨rfl, by rw [setCounter, List.length_set]⟩

theorem sameHeap_onCounter {α : Type} (c : CounterId) (x : Action Counter α) :
    Follows SameHeap (onCounter c x) := fun m => sameHeap_setCounter m c _

theorem faithful_onCounter {x : Action Counter Unit} (c : CounterId) (faithful : Faithful x) :
    Faithful (onCounter c x) :=
  fun m => Action.Ends.onPart (fun m : Memory => m.counter c) (faithful (m.counter c))
    (fun _ _ failed => failed) fun _ _ _ => trivial

theorem faithful_removeRoot (c : CounterId) (x : Item) : Faithful (removeRoot c x) :=
  faithful_onCounter c (Counter.faithful_removeRoot x)

theorem faithful_collect (c : CounterId) : Faithful (collect c) := by
  intro m
  rw [Action.Ends, collect, Action.apply_of]
  rcases (Pass.faithful_sweep { counter := m.counter c }).cases with
    ⟨e, p, run, failed⟩ | ⟨_, p, run, -⟩
  · rw [run]
    exact failed
  · rw [run]
    exact trivial

theorem sameHeap_removeRoots (c : CounterId) (xs : List Item) :
    Follows SameHeap (removeRoots c xs) :=
  .forAll (fun x => sameHeap_onCounter c (Counter.removeRoot x)) xs

structure Elsewhere (c : CounterId) (m m' : Memory) : Prop extends SameHeap m m' where
  others : ∀ d, d ≠ c → m'.counter d = m.counter d

instance (c : CounterId) : IsPreorder Memory (Elsewhere c) where
  refl _ := ⟨⟨rfl, rfl⟩, fun _ _ => rfl⟩
  trans _ _ _ first second := ⟨trans_of SameHeap first.toSameHeap second.toSameHeap,
    fun d ne => (second.others d ne).trans (first.others d ne)⟩

theorem elsewhere_setCounter (m : Memory) (c : CounterId) (e : Counter) :
    m.Elsewhere c (m.setCounter c e) := by
  refine ⟨sameHeap_setCounter m c e, fun d ne => ?_⟩
  rw [counter, setCounter, List.getD_eq_getElem?_getD, List.getElem?_set_ne (Ne.symm ne), counter,
    List.getD_eq_getElem?_getD]

theorem elsewhere_onCounter {α : Type} (c : CounterId) (x : Action Counter α) :
    Follows (Elsewhere c) (onCounter c x) := fun m => elsewhere_setCounter m c _

theorem elsewhere_removeRoots (c : CounterId) (xs : List Item) :
    Follows (Elsewhere c) (removeRoots c xs) :=
  .forAll (fun x => elsewhere_onCounter c (Counter.removeRoot x)) xs

/-- The same is stored in the objects of the set, and they lead to nothing outside of it. The next
new object gets the same id. -/
structure Agrees (K : Set ItemId) (m n : Memory) : Prop where
  objects : ∀ a ∈ K, n.heap.object? a = m.heap.object? a
  closed : ∀ p ∈ K, ∀ x ∈ m.heap.children p, x.Within K
  supply : n.heap.supply = m.heap.supply
  allocated : n.heap.allocated = m.heap.allocated
  counters : n.counters.length = m.counters.length

def AgreesBeyond (K : Set ItemId) (m n : Memory) : Prop := ∃ K', K ⊆ K' ∧ m.Agrees K' n

abbrev Matches {α : Type} (K : Set ItemId) (post : α → Prop) (x : Action Memory α) (m n : Memory) :
    Prop :=
  Twins (Agrees K) (fun a m n => m.Agrees K n ∧ post a) x x m n

variable {K K' : Set ItemId} {m n m' n' : Memory} {id : ItemId} {x : Item} {c : CounterId}

theorem Matches.beyond {α : Type} {base : Set ItemId} {post : α → Prop} {x : Action Memory α}
    (twins : Matches K post x m n) (subset : base ⊆ K) :
    Twins (AgreesBeyond base) (fun a m n => m.Agrees K n ∧ post a) x x m n :=
  twins.mono (fun _ _ agrees => ⟨K, subset, agrees⟩) fun _ _ _ kept => kept

theorem Agrees.refl (m : Memory) : m.Agrees Set.univ m :=
  ⟨fun _ _ => rfl, fun _ _ _ _ _ _ => Set.mem_univ _, rfl, rfl, rfl⟩

theorem Agrees.storage (agrees : m.Agrees K n) (inside : id ∈ K) :
    n.heap.storage? id = m.heap.storage? id := by
  rw [Heap.storage?, agrees.objects id inside, Heap.storage?]

theorem Agrees.children (agrees : m.Agrees K n) (inside : id ∈ K) :
    n.heap.children id = m.heap.children id := by
  rw [Heap.children, agrees.storage inside, Heap.children]

theorem Agrees.listItems (agrees : m.Agrees K n) (inside : id ∈ K) :
    n.heap.listItems id = m.heap.listItems id := by
  rw [Heap.listItems, agrees.storage inside, Heap.listItems]

theorem Agrees.mapEntries (agrees : m.Agrees K n) (inside : id ∈ K) :
    n.heap.mapEntries id = m.heap.mapEntries id := by
  rw [Heap.mapEntries, agrees.storage inside, Heap.mapEntries]

theorem Agrees.bytes (agrees : m.Agrees K n) (inside : id ∈ K) :
    n.heap.bytes id = m.heap.bytes id := by
  rw [Heap.bytes, agrees.storage inside, Heap.bytes]

theorem Agrees.owner (agrees : m.Agrees K n) (inside : id ∈ K) :
    n.heap.owner id = m.heap.owner id := by
  rw [Heap.owner, agrees.objects id inside, Heap.owner]

theorem Agrees.isReadOnly (agrees : m.Agrees K n) (inside : id ∈ K) :
    n.heap.isReadOnly id = m.heap.isReadOnly id := by
  rw [Heap.isReadOnly, agrees.objects id inside, Heap.isReadOnly]

theorem Agrees.ownerOf (agrees : m.Agrees K n) (within : x.Within K) :
    n.heap.ownerOf x = m.heap.ownerOf x := by
  cases x with
  | leaf l => rfl
  | object kind id => exact agrees.owner (within id rfl)

theorem Agrees.symm (agrees : m.Agrees K n) : n.Agrees K m :=
  ⟨fun a ha => (agrees.objects a ha).symm,
    fun p hp x hx => agrees.closed p hp x (agrees.children hp ▸ hx), agrees.supply.symm,
    agrees.allocated.symm, agrees.counters.symm⟩

theorem Agrees.sameHeap (agrees : m.Agrees K n) (first : m.SameHeap m') (second : n.SameHeap n') :
    m'.Agrees K n' := by
  refine ⟨fun a ha => ?_, fun p hp x hx => ?_, ?_, ?_, ?_⟩
  · rw [first.heap, second.heap]
    exact agrees.objects a ha
  · rw [first.heap] at hx
    exact agrees.closed p hp x hx
  · rw [first.heap, second.heap]
    exact agrees.supply
  · rw [first.heap, second.heap]
    exact agrees.allocated
  · rw [first.counters, second.counters]
    exact agrees.counters

theorem Agrees.modify (agrees : m.Agrees K n) (id : ItemId) (f : Object → Object)
    (within : ∀ o, m.heap.object? id = some o → ∀ x ∈ (f o).storage.children, x.Within K)
    (inside : id ∈ K) :
    Agrees K { m with heap := m.heap.modify id f } { n with heap := n.heap.modify id f } := by
  refine ⟨fun a ha => ?_, fun p hp x hx => ?_, agrees.supply, agrees.allocated, agrees.counters⟩
  · rw [Heap.object?_modify, Heap.object?_modify, agrees.objects a ha, agrees.objects id inside]
  · rw [Heap.children, Heap.storage?, Heap.object?_modify] at hx
    by_cases same : p = id
    · rw [if_pos same] at hx
      cases found : m.heap.object? id with
      | none => simp [found] at hx
      | some o =>
        simp only [found, Option.map_some] at hx
        exact within o found x hx
    · rw [if_neg same] at hx
      exact agrees.closed p hp x hx

theorem Agrees.allocate (agrees : m.Agrees K n) (o : Object)
    (within : ∀ x ∈ o.storage.children, x.Within K) :
    Agrees (insert (m.heap.allocate o).1 K) { m with heap := (m.heap.allocate o).2 }
      { n with heap := (n.heap.allocate o).2 } := by
  have same : (n.heap.allocate o).1 = (m.heap.allocate o).1 := by
    simp only [Heap.allocate, agrees.supply, agrees.allocated]
  have subset : K ⊆ insert (m.heap.allocate o).1 K := Set.subset_insert _ _
  refine ⟨fun a ha => ?_, fun p hp x hx => ?_, agrees.supply, congrArg (· + 1) agrees.allocated,
    agrees.counters⟩
  · rw [Heap.object?_allocate, Heap.object?_allocate, same]
    split
    · rfl
    · rename_i ne
      exact agrees.objects a (ha.resolve_left ne)
  · rw [Heap.children, Heap.storage?, Heap.object?_allocate] at hx
    by_cases new : p = (m.heap.allocate o).1
    · rw [if_pos new] at hx
      exact (within x hx).mono subset
    · rw [if_neg new] at hx
      exact (agrees.closed p (hp.resolve_left new) x hx).mono subset

theorem Agrees.store (agrees : m.Agrees K n) (inside : id ∈ K) {s : Storage}
    (within : ∀ x ∈ s.children, x.Within K) :
    Agrees K { m with heap := m.heap.store id s } { n with heap := n.heap.store id s } :=
  agrees.modify id _ (fun _ _ => within) inside

section Twins

variable (agrees : m.Agrees K n)
include agrees

theorem store_matches (inside : id ∈ K) {s : Storage} (within : ∀ x ∈ s.children, x.Within K) :
    Matches K (fun _ => True) (store id s) m n :=
  .modify ⟨agrees.store inside within, trivial⟩

theorem newObject_twins (o : Object) (within : ∀ x ∈ o.storage.children, x.Within K) :
    Twins (Agrees K) (fun a m n => m.Agrees (insert a K) n) (newObject o) (newObject o) m n := by
  have same : (n.heap.allocate o).1 = (m.heap.allocate o).1 := by
    simp only [Heap.allocate, agrees.supply, agrees.allocated]
  have first : (newObject o).apply m =
      (.ok (m.heap.allocate o).1, { m with heap := (m.heap.allocate o).2 }) := rfl
  have second : (newObject o).apply n =
      (.ok (n.heap.allocate o).1, { n with heap := (n.heap.allocate o).2 }) := rfl
  rw [same] at second
  exact .of_ok first second (agrees.allocate o within)

theorem mustBelong_matches (c : CounterId) (within : x.Within K) :
    Matches K (fun _ => True) (mustBelong c x) m n := by
  rw [mustBelong]
  split
  · refine .get_bind ?_
    rw [agrees.ownerOf within]
    split
    · split
      · exact .pure ⟨agrees, trivial⟩
      · exact .refuse agrees
    · exact .refuse agrees
  · exact .pure ⟨agrees, trivial⟩

theorem updateCounter_matches (c : CounterId) (f : Heap → Counter → Counter) :
    Matches K (fun _ => True) (updateCounter c f) m n :=
  .modify ⟨agrees.sameHeap (sameHeap_setCounter m c _) (sameHeap_setCounter n c _), trivial⟩

/-- What only counters take part in ends the same way, unless one of them finds a mismatch. -/
theorem Agrees.faithful {x : Action Memory Unit} (faithful : Faithful x)
    (follows : Follows SameHeap x) : Matches K (fun _ => True) x m n :=
  faithful.twins ⟨agrees.sameHeap (follows m) (follows n), trivial⟩

theorem addRoot_matches (c : CounterId) (within : x.Within K) :
    Matches K (fun _ => True) (addRoot c x) m n :=
  (mustBelong_matches agrees c within).bind fun _ _ _ kept => updateCounter_matches kept.1 c _

theorem removeRoot_matches (c : CounterId) (x : Item) :
    Matches K (fun _ => True) (removeRoot c x) m n :=
  agrees.faithful (faithful_removeRoot c x) (sameHeap_onCounter c _)

theorem removeRoots_matches (c : CounterId) (xs : List Item) :
    Matches K (fun _ => True) (removeRoots c xs) m n :=
  agrees.faithful (.forAll (faithful_removeRoot c) xs) (sameHeap_removeRoots c xs)

theorem addOccurrence_matches (c : CounterId) (within : x.Within K) (parent : ItemId) :
    Matches K (fun _ => True) (addOccurrence c x parent) m n :=
  (mustBelong_matches agrees c within).bind fun _ _ _ kept => updateCounter_matches kept.1 c _

theorem removeOccurrence_matches (c : CounterId) (x : Item) (parent : ItemId) :
    Matches K (fun _ => True) (removeOccurrence c x parent) m n :=
  agrees.faithful (faithful_onCounter c (Counter.faithful_removeOccurrence x parent))
    (sameHeap_onCounter c _)

end Twins

end Memory

end LiveItems
