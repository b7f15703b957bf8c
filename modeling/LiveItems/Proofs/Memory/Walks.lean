import LiveItems.Container.Basic
import LiveItems.Roots.Basic
import LiveItems.Proofs.Memory.Calls
set_option autoImplicit false

namespace LiveItems

open LiveItems.Action (Ends Refused)

namespace Memory

def Walks (A : Set CounterId) (m t : Memory) : Prop := ∃ calls, Path A m calls t

abbrev Walking {α : Type} (A : Set CounterId) (post : α → Memory → Prop) (x : Action Memory α)
    (m : Memory) : Prop :=
  Ends (fun _ t => m.Walks A t) (fun a t => m.Walks A t ∧ post a t) x m

structure Governs (m : Memory) (A : Set CounterId) (id : ItemId) : Prop where
  exists_object : id ∈ m.heap.ids
  owner : ∀ c, m.heap.owner id = some c → c ∈ A

variable {A B : Set CounterId} {m t u : Memory} {c : CounterId} {id : ItemId} {x : Item}
  {α β : Type} {post : α → Memory → Prop} {mid : β → Memory → Prop}

theorem Walks.refl (A : Set CounterId) (m : Memory) : m.Walks A m := ⟨[], .done m⟩

theorem Walks.trans (first : m.Walks A t) (second : t.Walks A u) : m.Walks A u := by
  obtain ⟨calls, path⟩ := first
  obtain ⟨more, further⟩ := second
  exact ⟨calls ++ more, path.append further⟩

instance (A : Set CounterId) : IsTrans Memory (Walks A) where
  trans _ _ _ := Walks.trans

theorem Walks.mono (walks : m.Walks A t) (sub : A ⊆ B) : m.Walks B t := by
  obtain ⟨calls, path⟩ := walks
  exact ⟨calls, path.mono sub⟩

theorem Walks.keeps (walks : m.Walks A t) (apart : m.Apart) :
    t.Apart ∧ m.Extends t ∧ m.Frames A t := by
  obtain ⟨calls, path⟩ := walks
  exact path.keeps apart

theorem Walks.apart (walks : m.Walks A t) (apart : m.Apart) : t.Apart := (walks.keeps apart).1

theorem Walks.extends (walks : m.Walks A t) (apart : m.Apart) : m.Extends t :=
  (walks.keeps apart).2.1

theorem Walks.frames (walks : m.Walks A t) (apart : m.Apart) : m.Frames A t :=
  (walks.keeps apart).2.2

theorem Walks.knows (walks : m.Walks A t) (apart : m.Apart) (known : m.heap.Knows x) :
    t.heap.Knows x := (walks.extends apart).heap.knows known

theorem Walks.governs (walks : m.Walks A t) (apart : m.Apart) (governs : m.Governs A id) :
    t.Governs A id := by
  have ext := (walks.extends apart).heap
  refine ⟨ext.mem_ids governs.exists_object, fun c owned => governs.owner c ?_⟩
  rw [← ext.owner id governs.exists_object, owned]

theorem Walking.bind {x : Action Memory β} {f : β → Action Memory α} (first : Walking A mid x m)
    (next : ∀ b t, m.Walks A t → mid b t → Walking A post (f b) t) :
    Walking A post (x >>= f) m :=
  Ends.along first next

theorem Walking.widen {x : Action Memory α} (walking : Walking A post x m) (sub : A ⊆ B) :
    Walking B post x m :=
  Ends.mono walking (fun _ _ walks => walks.mono sub) fun _ _ reached =>
    ⟨reached.1.mono sub, reached.2⟩

/-- A check that is refused has changed nothing. -/
theorem Walking.checked {x : Action Memory β} {f : β → Action Memory α}
    (first : Ends (Refused m) (fun b t => t = m ∧ mid b t) x m)
    (next : ∀ b, mid b m → Walking A post (f b) m) : Walking A post (x >>= f) m := by
  refine (first.worsen ?_).bind ?_
  · rintro _ t ⟨-, rfl⟩
    exact .refl A t
  · rintro b t ⟨rfl, answered⟩
    exact next b answered

theorem Walking.pure {a : α} (answered : post a m) : Walking A post (pure a) m :=
  Ends.pure ⟨.refl A m, answered⟩

theorem Walking.refuse (why : Refusal) : Walking A post (Action.refuse why) m :=
  Ends.refuse (.refl A m)

theorem walking_of_walks {x : Action Memory α} (walks : m.Walks A (x.attempt m)) :
    Walking A (fun _ _ => True) x m := by
  rw [Action.attempt_eq] at walks
  rcases run : x.apply m with ⟨e | a, t⟩
  · rw [run] at walks
    exact .of_error run walks
  · rw [run] at walks
    exact .of_ok run ⟨walks, trivial⟩

theorem Walking.attempt {x : Action Memory α} (walking : Walking A post x m) :
    m.Walks A (x.attempt m) := by
  rcases walking.cases with ⟨e, t, run, walks⟩ | ⟨a, t, run, walks, -⟩
  · rwa [Action.attempt_eq, run]
  · rwa [Action.attempt_eq, run]

theorem Method.walks (method : Method) (among : c ∈ A) (bound : c < m.counters.length)
    (known : ∀ x, method.added? = some x → m.heap.Knows x) :
    m.Walks A ((method.call c).attempt m) :=
  ⟨_, .call method among bound known (.done _)⟩

section Calls

variable (among : c ∈ A) (bound : c < m.counters.length)
include among bound

theorem addLooseRoots_walking (known : m.heap.Knows x) (n : Nat) :
    Walking A (fun _ _ => True) (addLooseRoots c x n) m := by
  have still : c < (m.setCounter c (m.counter c).inWords).counters.length := by
    rwa [length_setCounter]
  exact walking_of_walks ⟨_, .words among bound (.call (.addRoots x n) among still
    (fun _ same => Option.some.inj same ▸ known) (.done _))⟩

theorem addRoots_walking (known : m.heap.Knows x) (n : Nat) :
    Walking A (fun _ _ => True) (addRoots c x n) m :=
  walking_of_walks (Method.walks (.addRoots x n) among bound fun _ same =>
    Option.some.inj same ▸ known)

theorem removeRoot_walking (x : Item) : Walking A (fun _ _ => True) (removeRoot c x) m :=
  walking_of_walks (Method.walks (.removeRoot x) among bound fun _ same =>
    absurd same (by simp [Method.added?]))

theorem addOccurrence_walking (known : m.heap.Knows x) (parent : ItemId) :
    Walking A (fun _ _ => True) (addOccurrence c x parent) m :=
  walking_of_walks (Method.walks (.addOccurrence x parent) among bound fun _ same =>
    Option.some.inj same ▸ known)

theorem removeOccurrence_walking (x : Item) (parent : ItemId) :
    Walking A (fun _ _ => True) (removeOccurrence c x parent) m :=
  walking_of_walks (Method.walks (.removeOccurrence x parent) among bound fun _ same =>
    absurd same (by simp [Method.added?]))

theorem suspect_walking (known : m.heap.Knows x) :
    Walking A (fun _ _ => True) (suspect c x) m :=
  walking_of_walks (Method.walks (.suspect x) among bound fun _ same =>
    Option.some.inj same ▸ known)

theorem collect_walking : Walking A (fun _ _ => True) (collect c) m := by
  have walks : m.Walks A _ :=
    Method.walks .collect among bound fun _ same => absurd same (by simp [Method.added?])
  rw [Method.call, Action.attempt_eq, Action.apply_map] at walks
  exact walking_of_walks walks

theorem resetPeak_walking : Walking A (fun _ _ => True) (resetPeak c) m :=
  walking_of_walks (Method.walks .resetPeak among bound fun _ same =>
    absurd same (by simp [Method.added?]))

theorem removeRoots_walking (apart : m.Apart) (xs : List Item) :
    Walking A (fun _ _ => True) (removeRoots c xs) m := by
  refine walking_of_walks ?_
  induction xs generalizing m with
  | nil => exact .refl A m
  | cons x xs ih =>
    have first : m.Walks A ((removeRoot c x).apply m).2 :=
      Method.walks (.removeRoot x) among bound fun _ same => absurd same (by simp [Method.added?])
    rw [removeRoots, Action.attempt_eq, Action.apply_forAll_cons]
    exact first.trans (ih (bound.trans_le (first.extends apart).counters) (first.apart apart))

end Calls

section Storage

variable (apart : m.Apart)
include apart

theorem modify_walks (governs : m.Governs A id) {f : Object → Object}
    (kept : ∀ o, m.heap.object? id = some o → (f o).owner = o.owner)
    (suits : ∀ o, m.heap.object? id = some o → ∀ kind, o.storage.Suits kind →
      (f o).storage.Suits kind)
    (may : ∀ o, m.heap.object? id = some o → ∀ x ∈ (f o).storage.children, m.heap.MayHold id x) :
    m.Walks A { m with heap := m.heap.modify id f } := by
  refine ⟨[], .write (.modify kept suits) (apart.heap.modify kept suits may)
    (fun a d owned out => ?_) (.done _)⟩
  have ne : a ≠ id := by
    rintro rfl
    exact out (governs.owner d owned)
  rw [Heap.object?_modify, if_neg ne]

theorem store_walks (governs : m.Governs A id) {old new : Storage}
    (stored : m.heap.storage? id = some old) (suits : ∀ kind, old.Suits kind → new.Suits kind)
    (may : ∀ x ∈ new.children, m.heap.MayHold id x) :
    m.Walks A { m with heap := m.heap.store id new } := by
  refine modify_walks apart governs (fun _ _ => rfl) (fun o ho kind fits => suits kind ?_)
    fun _ _ => may
  rw [Heap.storage?, ho] at stored
  exact Option.some.inj stored ▸ fits

theorem setReadOnly_walking (governs : m.Governs A id) (value : Bool) :
    Walking A (fun _ _ => True) (setReadOnly id value) m := by
  refine walking_of_walks (modify_walks apart governs (fun _ _ => rfl) (fun _ _ _ fits => fits)
    fun o ho x hx => apart.heap.holds id x ?_)
  rw [Heap.children, Heap.storage?, ho]
  exact hx

section Allocate

variable {o : Object} (known : ∀ x ∈ o.storage.children, m.heap.Knows x)
  (fits : ∀ x ∈ o.storage.children, ∀ d, o.owner = some d →
    x.isCompound → m.heap.ownerOf x = some d)
  (owners : ∀ d, o.owner = some d → d < m.counters.length)
include known fits owners

theorem Path.allocate : Path A m [] { m with heap := (m.heap.allocate o).2 } := by
  refine .write (apart.heap.extends_allocate o) (apart.heap.allocate known fits owners)
    (fun a d owned _ => ?_) (.done _)
  have ne : a ≠ (m.heap.allocate o).1 := by
    rintro rfl
    exact apart.heap.fresh o (Heap.mem_ids_of_owner owned)
  rw [Heap.object?_allocate, if_neg ne]

theorem newObject_walking :
    Walking A (fun a t => t.heap.object? a = some o) (newObject o) m := by
  have run : (newObject o).apply m =
      (.ok (m.heap.allocate o).1, { m with heap := (m.heap.allocate o).2 }) := rfl
  refine .of_ok run ⟨⟨[], .allocate apart known fits owners⟩, ?_⟩
  change (m.heap.allocate o).2.object? (m.heap.allocate o).1 = some o
  rw [Heap.object?_allocate, if_pos rfl]

end Allocate

variable (governs : m.Governs A id)
include governs

theorem reportAdded_walking (known : m.heap.Knows x) :
    Walking A (fun _ _ => True) (reportAdded id x) m := by
  refine Ends.get_bind ?_
  split
  · rename_i c owned
    exact addOccurrence_walking (governs.owner c owned) (apart.heap.owners id c owned) known id
  · exact Walking.pure trivial

theorem reportRemoved_walking (x : Item) :
    Walking A (fun _ _ => True) (reportRemoved id x) m := by
  refine Ends.get_bind ?_
  split
  · rename_i c owned
    exact removeOccurrence_walking (governs.owner c owned) (apart.heap.owners id c owned) x id
  · exact Walking.pure trivial

theorem reportAllRemoved_walking (xs : List Item) :
    Walking A (fun _ _ => True) (xs.forM (reportRemoved id)) m := by
  induction xs generalizing m with
  | nil => exact Walking.pure trivial
  | cons x xs ih =>
    refine (reportRemoved_walking apart governs x).bind fun _ t walks _ => ?_
    exact ih (walks.apart apart) (walks.governs apart governs)

theorem Walking.store {old new : Storage} {reports : Action Memory α}
    (stored : m.heap.storage? id = some old) (suits : ∀ kind, old.Suits kind → new.Suits kind)
    (may : ∀ x ∈ new.children, m.heap.MayHold id x)
    (next : ∀ t, m.Walks A t → t.Apart → t.Governs A id → Walking A post reports t) :
    Walking A post (Memory.store id new >>= fun _ => reports) m := by
  have walks := store_walks apart governs stored suits may
  refine Walking.bind (walking_of_walks walks) fun _ t walks _ => ?_
  exact next t walks (walks.apart apart) (walks.governs apart governs)

end Storage

end Memory

end LiveItems
