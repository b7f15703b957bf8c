import LiveItems.Roots.Stack
import LiveItems.Roots.Slot
import LiveItems.Proofs.Memory.Walks
set_option autoImplicit false

namespace LiveItems

open LiveItems.Action (Ends)
open Memory

section Holder

variable {ρ : Type} (counter : ρ → CounterId) (items : ρ → List Item)

structure Hosted (s : Memory × ρ) : Prop where
  apart : s.1.Apart
  bound : counter s.2 < s.1.counters.length
  known : ∀ x ∈ items s.2, s.1.heap.Knows x

structure Leads (s t : Memory × ρ) : Prop where
  walks : s.1.Walks {counter s.2} t.1
  counter : counter t.2 = counter s.2
  known : ∀ x ∈ items t.2, t.1.heap.Knows x

abbrev Leading {α : Type} (post : α → Memory → Prop) (x : Action (Memory × ρ) α)
    (s : Memory × ρ) : Prop :=
  Ends (fun _ t => Leads counter items s t) (fun a t => Leads counter items s t ∧ post a t.1) x s

variable {counter : ρ → CounterId} {items : ρ → List Item} {s t u : Memory × ρ} {α β : Type}
  {post : α → Memory → Prop} {mid : β → Memory → Prop}

theorem Leads.trans (first : Leads counter items s t) (second : Leads counter items t u) :
    Leads counter items s u := by
  refine ⟨first.walks.trans ?_, second.counter.trans first.counter, second.known⟩
  rw [← first.counter]
  exact second.walks

instance : IsTrans (Memory × ρ) (Leads counter items) where
  trans _ _ _ := Leads.trans

theorem Hosted.leads (hosted : Hosted counter items s) (leads : Leads counter items s t) :
    Hosted counter items t := by
  refine ⟨leads.walks.apart hosted.apart, ?_, leads.known⟩
  rw [leads.counter]
  exact hosted.bound.trans_le (leads.walks.extends hosted.apart).counters

theorem Hosted.refl (hosted : Hosted counter items s) : Leads counter items s s :=
  ⟨.refl _ s.1, rfl, hosted.known⟩

theorem Leading.bind {x : Action (Memory × ρ) β} {f : β → Action (Memory × ρ) α}
    (first : Leading counter items mid x s)
    (next : ∀ b t, Leads counter items s t → mid b t.1 → Leading counter items post (f b) t) :
    Leading counter items post (x >>= f) s :=
  Ends.along first next

theorem Leading.hold {f : ρ → ρ} (same : counter (f s.2) = counter s.2)
    (known : ∀ x ∈ items (f s.2), s.1.heap.Knows x) :
    Leading counter items (fun _ _ => True) (modify fun s => (s.1, f s.2)) s :=
  Ends.of_ok (t := (s.1, f s.2)) rfl ⟨⟨.refl _ s.1, same, known⟩, trivial⟩

section Hosted

variable (hosted : Hosted counter items s)
include hosted

theorem Hosted.pure {a : α} (answered : post a s.1) : Leading counter items post (pure a) s :=
  Ends.pure ⟨hosted.refl, answered⟩

theorem Hosted.onMemory {x : Action Memory α}
    (walking : Memory.Walking {counter s.2} post x s.1) :
    Leading counter items post (onMemory x) s := by
  have beside : ∀ m, s.1.Walks {counter s.2} m → Leads counter items s (m, s.2) := fun m walks =>
    ⟨walks, rfl, fun x hx => walks.knows hosted.apart (hosted.known x hx)⟩
  exact Ends.onPart (fun s : Memory × ρ => s.1) walking (fun _ m walks => beside m walks)
    fun _ m walks => ⟨beside m walks.1, walks.2⟩

theorem Hosted.addRoot {x : Item} (known : s.1.heap.Knows x) :
    Leading counter items (fun _ _ => True)
      (LiveItems.onMemory (Memory.addRoot (counter s.2) x)) s :=
  hosted.onMemory (addRoots_walking (Set.mem_singleton _) hosted.bound known 1)

theorem Hosted.removeRoot (x : Item) :
    Leading counter items (fun _ _ => True)
      (LiveItems.onMemory (Memory.removeRoot (counter s.2) x)) s :=
  hosted.onMemory (removeRoot_walking (Set.mem_singleton _) hosted.bound x)

theorem Hosted.removeRoots (xs : List Item) :
    Leading counter items (fun _ _ => True)
      (LiveItems.onMemory (Memory.removeRoots (counter s.2) xs)) s :=
  hosted.onMemory (removeRoots_walking (Set.mem_singleton _) hosted.bound hosted.apart xs)

end Hosted

end Holder

namespace Stack

abbrev Hosted (s : Memory × Stack) : Prop := LiveItems.Hosted Stack.counter Stack.items s

abbrev Leading {α : Type} (post : α → Memory → Prop) (x : Action (Memory × Stack) α)
    (s : Memory × Stack) : Prop :=
  LiveItems.Leading Stack.counter Stack.items post x s

variable {s : Memory × Stack} {x : Item}

theorem setItems_leading {xs : List Item} (known : ∀ x ∈ xs, s.1.heap.Knows x) :
    Leading (fun _ _ => True) (setItems xs) s :=
  LiveItems.Leading.hold (f := fun s : Stack => { s with items := xs }) rfl known

section Hosted

variable (hosted : Hosted s)
include hosted

theorem known_of_item {depth : Nat} (found : s.2.items[depth]? = some x) : s.1.heap.Knows x :=
  hosted.known x (List.mem_of_getElem? found)

theorem known_of_peek_hosted {depth : Int} (found : s.2.peek depth = .ok x) :
    s.1.heap.Knows x := by
  rw [peek] at found
  split at found
  · rename_i y at_depth
    obtain rfl : y = x := Except.ok.inj found
    exact known_of_item hosted (Option.ite_none_left_eq_some.1 at_depth).2
  · exact absurd found (by simp)

theorem put_leading (known : s.1.heap.Knows x) {xs : List Item}
    (sub : ∀ y ∈ xs, y = x ∨ y ∈ s.2.items) :
    Leading (fun _ _ => True) (onMemory (addRoot s.2.counter x) >>= fun _ => setItems xs) s := by
  refine (hosted.addRoot known).bind fun _ t leads _ => ?_
  refine setItems_leading fun y hy => ?_
  rcases sub y hy with rfl | hy
  · exact leads.walks.knows hosted.apart known
  · exact leads.walks.knows hosted.apart (hosted.known y hy)

theorem push_leading (known : s.1.heap.Knows x) : Leading (fun _ _ => True) (push x) s :=
  Ends.get_bind (put_leading hosted known fun y hy => by simpa using hy)

theorem insert_leading (known : s.1.heap.Knows x) (depth : Nat) :
    Leading (fun _ _ => True) (insert depth x) s := by
  refine Ends.get_bind ?_
  by_cases outside : depth > s.2.items.length
  · simp only [if_pos outside]
    exact Ends.refuse hosted.refl
  · simp only [if_neg outside]
    exact put_leading hosted known fun y hy => (List.mem_insertIdx (by omega)).1 hy

theorem take_leading (known : s.1.heap.Knows x) {xs : List Item}
    (sub : ∀ y ∈ xs, y ∈ s.2.items) :
    Leading (fun a m => m.heap.Knows a)
      (setItems xs >>= fun _ => onMemory (removeRoot s.2.counter x) >>= fun _ => pure x) s := by
  refine (setItems_leading fun y hy => hosted.known y (sub y hy)).bind
    fun _ t leads _ => ?_
  have hosted₁ := hosted.leads leads
  rw [← leads.counter]
  refine (hosted₁.removeRoot x).bind fun _ u further _ => (hosted₁.leads further).pure ?_
  exact further.walks.knows hosted₁.apart (leads.walks.knows hosted.apart known)

theorem pop_leading : Leading (fun a m => m.heap.Knows a) pop s := by
  refine Ends.get_bind ?_
  cases items : s.2.items with
  | nil =>
    simp only [items]
    exact Ends.violate hosted.refl
  | cons x xs =>
    simp only [items]
    exact take_leading hosted (hosted.known x (items ▸ List.mem_cons_self))
      fun y hy => items ▸ List.mem_cons_of_mem x hy

theorem remove_leading (depth : Nat) : Leading (fun a m => m.heap.Knows a) (remove depth) s := by
  refine Ends.get_bind ?_
  cases found : s.2.items[depth]? with
  | none =>
    simp only [found]
    exact Ends.refuse hosted.refl
  | some x =>
    simp only [found]
    exact take_leading hosted (known_of_item hosted found) fun y hy => List.mem_of_mem_eraseIdx hy

theorem reverse_leading (n : Nat) : Leading (fun _ _ => True) (reverse n) s := by
  refine Ends.get_bind ?_
  by_cases outside : n > s.2.items.length
  · simp only [if_pos outside]
    exact Ends.refuse hosted.refl
  · simp only [if_neg outside]
    refine setItems_leading fun y hy => hosted.known y ?_
    rcases List.mem_append.1 hy with hy | hy
    · exact List.mem_of_mem_take (List.mem_reverse.1 hy)
    · exact List.mem_of_mem_drop hy

theorem clear_leading : Leading (fun _ _ => True) clear s := by
  obtain ⟨m, stack⟩ := s
  refine Ends.get_bind ?_
  simp only
  change Leading (fun _ _ => True) _ _
  refine (setItems_leading fun y hy => absurd hy List.not_mem_nil).bind fun _ t leads _ => ?_
  have same : t.2.counter = stack.counter := leads.counter
  rw [← same]
  exact (hosted.leads leads).removeRoots _

end Hosted

theorem drop_walks {m : Memory} {stack : Stack} (hosted : Hosted (m, stack)) :
    m.Walks {stack.counter} (stack.drop m) := by
  rw [drop, Action.attempt_eq]
  rcases (clear_leading hosted).cases with ⟨e, t, run, leads⟩ | ⟨a, t, run, leads, -⟩
  · rw [run]
    exact leads.walks
  · rw [run]
    exact leads.walks

end Stack

namespace Slot

abbrev Hosted (s : Memory × Slot) : Prop := LiveItems.Hosted Slot.counter Slot.items s

abbrev Leading {α : Type} (post : α → Memory → Prop) (x : Action (Memory × Slot) α)
    (s : Memory × Slot) : Prop :=
  LiveItems.Leading Slot.counter Slot.items post x s

variable {s : Memory × Slot} {x : Item} {c : CounterId}

/-- Taking back the roots that have been added is a path as well. -/
theorem addRoots_walking (xs : List Item) : ∀ {m : Memory} {done : List Item}, m.Apart →
    c < m.counters.length → (∀ x ∈ xs, m.heap.Knows x) →
    Memory.Walking {c} (fun _ _ => True) (addRoots c done xs) m := by
  induction xs with
  | nil => exact fun _ _ _ => Memory.Walking.pure trivial
  | cons x xs ih =>
    intro m done apart bound known
    obtain ⟨first, others⟩ := List.forall_mem_cons.1 known
    rw [Memory.Walking, Ends, addRoots, Action.apply_of]
    rcases (Memory.addRoots_walking (Set.mem_singleton _) bound first 1).cases with
      ⟨e, t, run, walks⟩ | ⟨u, t, run, walks, -⟩
    · have bound' := bound.trans_le (walks.extends apart).counters
      have rolled := Memory.removeRoots_walking (Set.mem_singleton c) bound' (walks.apart apart)
        done.reverse
      rw [addRoot, run]
      rcases rolled.cases with ⟨e', u, run', back⟩ | ⟨a, u, run', back, -⟩
      · simp only [Action.attempt_eq, run']
        exact walks.trans back
      · simp only [Action.attempt_eq, run']
        exact walks.trans back
    · have bound' := bound.trans_le (walks.extends apart).counters
      have further : Memory.Walking {c} (fun _ _ => True) (addRoots c (x :: done) xs) t :=
        ih (walks.apart apart) bound' fun y hy => walks.knows apart (others y hy)
      rw [addRoot, run]
      exact further.mono (fun _ _ more => walks.trans more) fun _ _ more =>
        ⟨walks.trans more.1, trivial⟩

theorem create_walking {m : Memory} (apart : m.Apart) (bound : c < m.counters.length)
    {xs : List Item} (known : ∀ x ∈ xs, m.heap.Knows x) :
    Memory.Walking {c} (fun slot _ => slot = { counter := c, items := xs }) (create c xs) m :=
  (addRoots_walking xs apart bound known).bind fun _ _ _ _ => Memory.Walking.pure rfl

section Hosted

variable (hosted : Hosted s)
include hosted

theorem known_of_get_hosted {index : Nat} (found : s.2.get? index = .ok x) :
    s.1.heap.Knows x := by
  rw [get?] at found
  split at found
  · rename_i y at_index
    obtain rfl : y = x := Except.ok.inj found
    exact hosted.known y (List.mem_of_getElem? at_index)
  · exact absurd found (by simp)

theorem set_leading (known : s.1.heap.Knows x) (index : Nat) :
    Leading (fun _ _ => True) (set index x) s := by
  obtain ⟨m, slot⟩ := s
  refine Ends.get_bind ?_
  simp only
  change Leading (fun _ _ => True) _ _
  have got : Leading (fun _ _ => True) (liftM (slot.get? index)) (m, slot) :=
    Ends.lift (fun _ _ => hosted.refl) fun _ _ => ⟨hosted.refl, trivial⟩
  refine got.bind fun old t leads _ => ?_
  have hosted₁ := hosted.leads leads
  have same₁ : t.2.counter = slot.counter := leads.counter
  rw [← same₁]
  refine (hosted₁.addRoot (leads.walks.knows hosted.apart known)).bind fun _ u further _ => ?_
  have hosted₂ := hosted₁.leads further
  have known₂ := (leads.trans further).walks.knows hosted.apart known
  have placed : Leading (fun _ _ => True)
      (modify fun s => (s.1, { s.2 with items := s.2.items.set index x })) u := by
    refine LiveItems.Leading.hold (f := fun s : Slot => { s with items := s.items.set index x }) rfl
      fun y hy => ?_
    rcases List.mem_or_eq_of_mem_set hy with hy | rfl
    · exact hosted₂.known y hy
    · exact known₂
  refine placed.bind fun _ v last _ => ?_
  have same : v.2.counter = t.2.counter := last.counter.trans further.counter
  rw [← same]
  exact (hosted₂.leads last).removeRoot old

theorem clear_leading : Leading (fun _ _ => True) clear s := by
  obtain ⟨m, slot⟩ := s
  refine Ends.get_bind ?_
  simp only
  change Leading (fun _ _ => True) _ _
  refine (LiveItems.Leading.hold (f := fun s : Slot => { s with items := [] }) rfl
    fun y hy => absurd hy List.not_mem_nil).bind fun _ t leads _ => ?_
  have same : t.2.counter = slot.counter := leads.counter
  rw [← same]
  exact (hosted.leads leads).removeRoots _

end Hosted

theorem drop_walks {m : Memory} {slot : Slot} (hosted : Hosted (m, slot)) :
    m.Walks {slot.counter} (slot.drop m) := by
  rw [drop, Action.attempt_eq]
  rcases (clear_leading hosted).cases with ⟨e, t, run, leads⟩ | ⟨a, t, run, leads, -⟩
  · rw [run]
    exact leads.walks
  · rw [run]
    exact leads.walks

end Slot

end LiveItems
