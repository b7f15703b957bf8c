import LiveItems.Roots.Stack
import LiveItems.Roots.Slot
import LiveItems.Proofs.Memory.Agree
set_option autoImplicit false

namespace LiveItems

open LiveItems.Action (Twins)

namespace Memory

section Holder

variable {ρ α : Type} (items : ρ → List Item) (K : Set ItemId)

structure Holds (u v : Memory × ρ) : Prop where
  memory : u.1.Agrees K v.1
  same : v.2 = u.2
  within : ∀ x ∈ items u.2, x.Within K

abbrev MatchesBeside (x : Action (Memory × ρ) α) (u v : Memory × ρ) : Prop :=
  Twins (Holds items K) (fun _ => Holds items K) x x u v

variable {items K} {post : α → Prop} {m n : Memory} {s : ρ}

theorem Matches.onMemory {x : Action Memory α} (twins : Matches K post x m n)
    (within : ∀ x ∈ items s, x.Within K) :
    Twins (Holds items K) (fun _ u v => ∃ m n, m.Agrees K n ∧ u = (m, s) ∧ v = (n, s))
      (onMemory x) (onMemory x) (m, s) (n, s) :=
  twins.onPart (fun _ _ agrees => ⟨agrees, rfl, within⟩)
    fun _ m n kept => ⟨m, n, kept.1, rfl, rfl⟩

theorem release_matches (change : ρ → ρ) (within : ∀ y ∈ items (change s), y.Within K)
    {x : Action Memory Unit} (twins : Matches K (fun _ => True) x m n) :
    MatchesBeside items K
      ((modify fun (m, s) => (m, change s)) >>= fun _ => LiveItems.onMemory x) (m, s) (n, s) := by
  have changed : Twins (Holds items K) (fun _ u v => u = (m, change s) ∧ v = (n, change s))
      (modify fun (m, s) => (m, change s)) (modify fun (m, s) => (m, change s)) (m, s) (n, s) :=
    .modify ⟨rfl, rfl⟩
  refine changed.bind ?_
  rintro _ _ _ ⟨rfl, rfl⟩
  refine (twins.onMemory within).imp ?_
  rintro _ _ _ ⟨m, n, agrees, rfl, rfl⟩
  exact ⟨agrees, rfl, within⟩

end Holder

end Memory

open Memory

namespace Stack

variable {K : Set ItemId} {m n : Memory} {s : Stack} {x : Item}

theorem sameHeap_drop (s : Stack) (m : Memory) : m.SameHeap (s.drop m) := by
  have released := sameHeap_removeRoots s.counter s.bottomUp m
  rw [drop, Action.attempt_eq, clear, Action.apply_bind, Action.apply_get]
  simp only [setItems, Action.apply_bind, Action.apply_modify, onMemory, Action.apply_onPart]
  exact released

section Operations

variable (agrees : m.Agrees K n)
include agrees

theorem clear_matches : MatchesBeside Stack.items K clear (m, s) (n, s) := by
  refine .get_bind ?_
  exact release_matches (fun s : Stack => { s with items := [] })
    (fun y hy => absurd hy List.not_mem_nil) (removeRoots_matches agrees s.counter s.bottomUp)

variable (within : ∀ y ∈ s.items, y.Within K)
include within

theorem push_matches (new : x.Within K) : MatchesBeside Stack.items K (push x) (m, s) (n, s) := by
  refine .get_bind ?_
  refine ((addRoot_matches agrees s.counter new).onMemory within).bind ?_
  rintro _ _ _ ⟨m, n, agrees, rfl, rfl⟩
  exact .modify ⟨agrees, rfl, List.forall_mem_cons.2 ⟨new, within⟩⟩

theorem pop_matches : MatchesBeside Stack.items K pop (m, s) (n, s) := by
  refine .get_bind ?_
  rcases s with ⟨c, _ | ⟨x, xs⟩⟩
  · exact .violate ⟨agrees, rfl, within⟩
  · dsimp only
    rw [← bind_assoc]
    exact (release_matches (fun s : Stack => { s with items := xs })
      (List.forall_mem_cons.1 within).2 (removeRoot_matches agrees c x)).bind
        fun _ _ _ holds => .pure holds

theorem remove_matches (depth : Nat) :
    MatchesBeside Stack.items K (remove depth) (m, s) (n, s) := by
  refine .get_bind ?_
  dsimp only
  split
  · exact .refuse ⟨agrees, rfl, within⟩
  · rename_i x _
    rw [← bind_assoc]
    exact (release_matches (fun s : Stack => { s with items := s.items.eraseIdx depth })
      (fun y hy => within y (List.mem_of_mem_eraseIdx hy))
      (removeRoot_matches agrees s.counter x)).bind fun _ _ _ holds => .pure holds

theorem insert_matches (depth : Nat) (new : x.Within K) :
    MatchesBeside Stack.items K (insert depth x) (m, s) (n, s) := by
  refine .get_bind ?_
  dsimp only
  split
  · exact .refuse ⟨agrees, rfl, within⟩
  · rename_i bound
    refine ((addRoot_matches agrees s.counter new).onMemory within).bind ?_
    rintro _ _ _ ⟨m, n, agrees, rfl, rfl⟩
    refine .modify ⟨agrees, rfl, fun y hy => ?_⟩
    rcases (List.mem_insertIdx (Nat.not_lt.1 bound)).1 hy with rfl | hy
    · exact new
    · exact within y hy

theorem reverse_matches (k : Nat) : MatchesBeside Stack.items K (reverse k) (m, s) (n, s) := by
  refine .get_bind ?_
  dsimp only
  split
  · exact .refuse ⟨agrees, rfl, within⟩
  · refine .modify ⟨agrees, rfl, fun y hy => ?_⟩
    rcases List.mem_append.1 hy with hy | hy
    · exact within y (List.mem_of_mem_take (List.mem_reverse.1 hy))
    · exact within y (List.mem_of_mem_drop hy)

end Operations

end Stack

namespace Slot

variable {K : Set ItemId} {m n : Memory} {s : Slot} {x : Item} {c : CounterId}

theorem sameHeap_drop (s : Slot) (m : Memory) : m.SameHeap (s.drop m) := by
  have released := sameHeap_removeRoots s.counter s.items m
  rw [drop, Action.attempt_eq, clear, Action.apply_bind, Action.apply_get]
  simp only [Action.apply_bind, Action.apply_modify, onMemory, Action.apply_onPart]
  exact released

theorem clear_matches (agrees : m.Agrees K n) :
    MatchesBeside Slot.items K clear (m, s) (n, s) := by
  refine .get_bind ?_
  exact release_matches (fun s : Slot => { s with items := [] })
    (fun y hy => absurd hy List.not_mem_nil) (removeRoots_matches agrees s.counter s.items)

theorem set_matches (agrees : m.Agrees K n) (within : ∀ y ∈ s.items, y.Within K)
    (new : x.Within K) (index : Nat) :
    MatchesBeside Slot.items K (set index x) (m, s) (n, s) := by
  have got : Twins (Holds Slot.items K) (fun _ u v => u = (m, s) ∧ v = (n, s))
      (liftM (s.get? index)) (liftM (s.get? index)) (m, s) (n, s) :=
    .lift ⟨agrees, rfl, within⟩ fun _ _ => ⟨rfl, rfl⟩
  refine .get_bind (got.bind ?_)
  rintro old _ _ ⟨rfl, rfl⟩
  refine ((addRoot_matches agrees s.counter new).onMemory within).bind ?_
  rintro _ _ _ ⟨m, n, agrees, rfl, rfl⟩
  refine release_matches (fun s : Slot => { s with items := s.items.set index x })
    (fun y hy => ?_) (removeRoot_matches agrees s.counter old)
  rcases List.mem_or_eq_of_mem_set hy with hy | rfl
  · exact within y hy
  · exact new

/-- Roots that are taken back leave the heap as it is. -/
theorem addRoots_matches (done xs : List Item) : ∀ {m n : Memory}, m.Agrees K n →
    (∀ y ∈ xs, y.Within K) →
    Memory.Matches K (fun _ => True) (addRoots c done xs) m n := by
  induction xs generalizing done with
  | nil => exact fun agrees _ => .pure ⟨agrees, trivial⟩
  | cons x xs ih =>
    intro m n agrees within
    obtain ⟨first, others⟩ := List.forall_mem_cons.1 within
    refine (addRoot_matches agrees c first).undo (removeRoots c done.reverse).attempt
      (fun m e t run => ?_) (fun m t run => ?_) (fun m n agrees => ?_)
      fun m n kept => ih (x :: done) kept.1 others
    · rw [addRoots, Action.apply_of, run]
    · rw [addRoots, Action.apply_of, run]
    · exact agrees.sameHeap (sameHeap_removeRoots c done.reverse m)
        (sameHeap_removeRoots c done.reverse n)

theorem create_matches (agrees : m.Agrees K n) (c : CounterId) {xs : List Item}
    (within : ∀ y ∈ xs, y.Within K) :
    Memory.Matches K (fun slot => ∀ y ∈ slot.items, y.Within K) (create c xs) m n :=
  (addRoots_matches [] xs agrees within).bind fun _ _ _ kept => .pure ⟨kept.1, within⟩

end Slot

end LiveItems
