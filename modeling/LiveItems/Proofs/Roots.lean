import LiveItems.Roots.Stack
import LiveItems.Roots.Slot
import LiveItems.Proofs.Memory.Sound
set_option autoImplicit false

namespace LiveItems

namespace Memory

structure Carries (strict : Prop) (roots : CounterId → Multiset Item) (c : CounterId)
    (xs : List Item) (m : Memory) : Prop where
  sound : m.Sound strict (rootsOf c xs + roots)
  counter : c < m.counters.length

variable {strict : Prop} {roots : CounterId → Multiset Item} {c : CounterId} {m : Memory} {x : Item}
  {xs ys : List Item}

theorem Carries.perm (carries : m.Carries strict roots c xs) (perm : xs.Perm ys) :
    m.Carries strict roots c ys :=
  ⟨rootsOf_perm perm c ▸ carries.sound, carries.counter⟩

theorem Carries.known (carries : m.Carries strict roots c xs) (hx : x ∈ xs) : m.heap.Knows x :=
  carries.sound.known c x (mem_rootsOf hx roots)

theorem Carries.add (carries : m.Carries strict roots c xs) (known : m.heap.Knows x) :
    (∃ why, (addRoot c x).apply m = (.error (.invalidOperation why), m)) ∨
      ∃ m', (addRoot c x).apply m = (.ok (), m') ∧ m'.Carries strict roots c (x :: xs) ∧
        m.Recounts m' := by
  rcases carries.sound.addRoot carries.counter known with refused | ⟨m', run, sound, recounts⟩
  · exact .inl refused
  · refine .inr ⟨m', run, ⟨?_, recounts.counters ▸ carries.counter⟩, recounts⟩
    rw [rootsOf_cons, add_assoc]
    exact sound

theorem Carries.addLeaf (carries : m.Carries strict roots c xs) (l : Leaf) :
    ∃ m', (addRoot c (.leaf l)).apply m = (.ok (), m') ∧
      m'.Carries strict roots c (.leaf l :: xs) ∧ m.Recounts m' := by
  have accepted : ((addRoot c (.leaf l)).apply m).1 = .ok () := by
    have unfolded : addRoot c (.leaf l) = (mustBelong c (.leaf l) >>= fun _ =>
        updateCounter c fun h => Counter.addRoots h (.leaf l) 1) := rfl
    have leaf : ¬(Item.leaf l).isCompound := by cases l <;> exact Bool.false_ne_true
    rw [unfolded, Action.apply_bind, mustBelong_ok fun compound => absurd compound leaf]
    rfl
  rcases carries.add (.leaf _ l) with ⟨why, refused⟩ | added
  · rw [refused] at accepted
    exact absurd accepted (by simp)
  · exact added

theorem Carries.remove (carries : m.Carries strict roots c (x :: xs)) :
    ∃ m', (removeRoot c x).apply m = (.ok (), m') ∧ m'.Carries strict roots c xs ∧
      m.Recounts m' := by
  have sound := carries.sound
  rw [rootsOf_cons, add_assoc] at sound
  obtain ⟨m', run, sound', recounts⟩ := sound.removeRoot
  exact ⟨m', run, ⟨sound', recounts.counters ▸ carries.counter⟩, recounts⟩

theorem Carries.removeAll (carries : m.Carries strict roots c xs) (perm : xs.Perm ys) :
    ∃ m', (removeRoots c ys).apply m = (.ok (), m') ∧ m'.Carries strict roots c [] ∧
      m.Recounts m' := by
  obtain ⟨m', run, sound, recounts⟩ := Sound.removeRoots ys (carries.perm perm).sound
  refine ⟨m', run, ⟨?_, recounts.counters ▸ carries.counter⟩, recounts⟩
  rwa [rootsOf_nil, zero_add]

theorem Carries.empty (sound : m.Sound strict roots) (hc : c < m.counters.length) :
    m.Carries strict roots c [] := by
  refine ⟨?_, hc⟩
  rwa [rootsOf_nil, zero_add]

theorem Carries.without (carries : m.Carries strict roots c []) : m.Sound strict roots := by
  have sound := carries.sound
  rwa [rootsOf_nil, zero_add] at sound

end Memory

namespace Stack

open Memory

def Held (strict : Prop) (roots : CounterId → Multiset Item) (s : Memory × Stack) : Prop :=
  s.1.Carries strict roots s.2.counter s.2.items

def Moves (s t : Memory × Stack) : Prop := s.1.Recounts t.1 ∧ t.2.counter = s.2.counter

abbrev Safe {α : Type} (strict : Prop) (roots : CounterId → Multiset Item)
    (post : α → Memory × Stack → Prop) (x : Action (Memory × Stack) α) (s : Memory × Stack) :
    Prop :=
  Action.Ends (Action.Refused s) (fun a t => Held strict roots t ∧ Moves s t ∧ post a t) x s

variable {strict : Prop} {roots : CounterId → Multiset Item} {s : Memory × Stack} {x : Item}

section Held

variable (held : Held strict roots s)
include held

theorem known_of_peek {depth : Int} (found : s.2.peek depth = .ok x) : s.1.heap.Knows x := by
  refine held.known ?_
  rw [peek] at found
  split at found
  · rename_i y at_depth
    obtain rfl : y = x := Except.ok.inj found
    obtain ⟨-, at_depth⟩ := Option.ite_none_left_eq_some.1 at_depth
    exact List.mem_of_getElem? at_depth
  · exact absurd found (by simp)

theorem push_safe (known : s.1.heap.Knows x) : Safe strict roots (fun _ _ => True) (push x) s := by
  refine .get_bind ?_
  rcases held.add known with ⟨why, refused⟩ | ⟨m', run, carries, recounts⟩
  · refine .of_error (e := .invalidOperation why) (t := s) ?_ (.intro why s)
    rw [Action.apply_bind, onMemory, Action.apply_onPart, refused]
  · refine .of_ok (a := ()) (t := (m', ({ s.2 with items := x :: s.2.items } : Stack))) ?_
      ⟨carries, ⟨recounts, rfl⟩, trivial⟩
    rw [Action.apply_bind, onMemory, Action.apply_onPart, run]
    rfl

theorem insert_safe (known : s.1.heap.Knows x) (depth : Nat) :
    Safe strict roots (fun _ _ => True) (insert depth x) s := by
  refine .get_bind ?_
  by_cases outside : depth > s.2.items.length
  · simp only [if_pos outside]
    exact .refuse (.intro _ s)
  · simp only [if_neg outside]
    rcases held.add known with ⟨why, refused⟩ | ⟨m', run, carries, recounts⟩
    · refine .of_error (e := .invalidOperation why) (t := s) ?_ (.intro why s)
      rw [Action.apply_bind, onMemory, Action.apply_onPart, refused]
    · refine .of_ok (a := ())
        (t := (m', ({ s.2 with items := s.2.items.insertIdx depth x } : Stack))) ?_
        ⟨carries.perm (List.perm_insertIdx x _ (by omega)).symm, ⟨recounts, rfl⟩, trivial⟩
      rw [Action.apply_bind, onMemory, Action.apply_onPart, run]
      rfl

/-- An item leaves the stack before it loses its root. -/
theorem take_ends {failed : Error → Memory × Stack → Prop} {ys : List Item}
    (perm : (x :: ys).Perm s.2.items) :
    Action.Ends failed (fun a t => Held strict roots t ∧ Moves s t ∧ t.1.heap.Knows a)
      (setItems ys >>= fun _ => onMemory (removeRoot s.2.counter x) >>= fun _ => pure x) s := by
  obtain ⟨m', run, carries, recounts⟩ := (held.perm perm.symm).remove
  have known : s.1.heap.Knows x := held.known (perm.mem_iff.1 List.mem_cons_self)
  refine .of_ok (a := x) (t := (m', ({ s.2 with items := ys } : Stack))) ?_
    ⟨carries, ⟨recounts, rfl⟩, recounts.extends.heap.knows known⟩
  rw [Action.apply_bind, setItems, Action.apply_modify]
  simp only [Action.apply_bind, onMemory, Action.apply_onPart, run, Action.apply_pure]

theorem pop_ends :
    Action.Ends (fun e t => e = .invariantViolation .popFromEmpty ∧ s.2.items = [] ∧ t = s)
      (fun a t => Held strict roots t ∧ Moves s t ∧ t.1.heap.Knows a) pop s := by
  refine .get_bind ?_
  cases items : s.2.items with
  | nil =>
    simp only [items]
    exact .violate ⟨rfl, trivial, rfl⟩
  | cons x xs =>
    simp only [items]
    exact take_ends held (items ▸ .refl _)

theorem remove_safe (depth : Nat) :
    Safe strict roots (fun a t => t.1.heap.Knows a) (remove depth) s := by
  refine .get_bind ?_
  cases found : s.2.items[depth]? with
  | none =>
    simp only [found]
    exact .refuse (.intro _ s)
  | some x =>
    simp only [found]
    exact take_ends held (eraseIdx_perm found)

theorem reverse_safe (n : Nat) : Safe strict roots (fun _ _ => True) (reverse n) s := by
  refine .get_bind ?_
  by_cases outside : n > s.2.items.length
  · simp only [if_pos outside]
    exact .refuse (.intro _ s)
  · simp only [if_neg outside]
    refine .of_ok rfl ⟨held.perm ?_, ⟨.refl s.1, rfl⟩, trivial⟩
    calc
      s.2.items.Perm (s.2.items.take n ++ s.2.items.drop n) := by rw [List.take_append_drop]
      _ |>.Perm ((s.2.items.take n).reverse ++ s.2.items.drop n) :=
        (List.reverse_perm _).symm.append_right _

theorem apply_clear : ∃ m', clear.apply s = (.ok (), (m', { s.2 with items := [] })) ∧
    m'.Carries strict roots s.2.counter [] ∧ s.1.Recounts m' := by
  obtain ⟨m', run, carries, recounts⟩ := held.removeAll (List.reverse_perm s.2.items).symm
  refine ⟨m', ?_, carries, recounts⟩
  rw [clear, Action.apply_bind, Action.apply_get]
  simp only [Action.apply_bind, setItems, Action.apply_modify, onMemory, Action.apply_onPart,
    bottomUp, run]

theorem clear_safe : Safe strict roots (fun _ _ => True) clear s := by
  obtain ⟨m', run, carries, recounts⟩ := apply_clear held
  exact .of_ok run ⟨carries, ⟨recounts, rfl⟩, trivial⟩

end Held

theorem peek_refused {stack : Stack} {depth : Int} {e : Error}
    (failed : stack.peek depth = .error e) : ∃ why, e = .invalidOperation why := by
  rw [peek] at failed
  split at failed
  · exact absurd failed (by simp)
  · exact ⟨_, (Except.error.inj failed).symm⟩

theorem drop_sound {m : Memory} {stack : Stack} (held : Held strict roots (m, stack)) :
    (stack.drop m).Sound strict roots ∧ m.Recounts (stack.drop m) := by
  obtain ⟨m', run, carries, recounts⟩ := apply_clear held
  have same : stack.drop m = m' := by rw [drop, Action.attempt_eq, run]
  rw [same]
  exact ⟨carries.without, recounts⟩

end Stack

namespace Slot

open Memory

def Held (strict : Prop) (roots : CounterId → Multiset Item) (s : Memory × Slot) : Prop :=
  s.1.Carries strict roots s.2.counter s.2.items

def Moves (s t : Memory × Slot) : Prop := s.1.Recounts t.1 ∧ t.2.counter = s.2.counter

abbrev Safe {α : Type} (strict : Prop) (roots : CounterId → Multiset Item)
    (post : α → Memory × Slot → Prop) (x : Action (Memory × Slot) α) (s : Memory × Slot) : Prop :=
  Action.Ends (Action.Refused s) (fun a t => Held strict roots t ∧ Moves s t ∧ post a t) x s

variable {strict : Prop} {roots : CounterId → Multiset Item} {c : CounterId} {s : Memory × Slot}
  {x : Item}

/-- Either all items get their roots, or all that have got one lose it again. Only containers may be
refused. -/
theorem addRoots_ends (xs : List Item) : ∀ {m base : Memory} {done : List Item},
    m.Carries strict roots c done → base.Recounts m → (∀ x ∈ xs, m.heap.Knows x) →
    Action.Ends
      (fun e t => (∃ why, e = .invalidOperation why) ∧ (∃ x ∈ xs, ∀ l, x ≠ .leaf l) ∧
        t.Sound strict roots ∧ base.Recounts t)
      (fun _ t => t.Carries strict roots c (xs.reverse ++ done) ∧ base.Recounts t)
      (addRoots c done xs) m := by
  induction xs with
  | nil =>
    intro m base done carries before _
    exact .pure ⟨carries, before⟩
  | cons x xs ih =>
    intro m base done carries before known
    obtain ⟨first, others⟩ := List.forall_mem_cons.1 known
    rcases carries.add first with ⟨why, refused⟩ | ⟨m₁, run, carries₁, recounts₁⟩
    · obtain ⟨m₁, run, carries₁, recounts₁⟩ := carries.removeAll (List.reverse_perm done).symm
      refine .of_error (e := .invalidOperation why) (t := m₁) ?_ ⟨⟨why, rfl⟩,
        ⟨x, List.mem_cons_self, ?_⟩, carries₁.without, before.trans recounts₁⟩
      · rw [addRoots, Action.apply_of, refused]
        simp only [Action.attempt_eq, run]
      · rintro l rfl
        obtain ⟨_, accepted, -⟩ := carries.addLeaf l
        rw [refused] at accepted
        exact absurd accepted (by simp)
    · have added := ih carries₁ (before.trans recounts₁) fun y hy => recounts₁.heap ▸ others y hy
      have same : (addRoots c done (x :: xs)).apply m = (addRoots c (x :: done) xs).apply m₁ := by
        rw [addRoots, Action.apply_of, run]
      rw [List.reverse_cons, List.append_assoc]
      rw [Action.Ends, same]
      refine added.worsen ?_
      rintro e t ⟨refused, ⟨y, hy, container⟩, rolled⟩
      exact ⟨refused, ⟨y, List.mem_cons_of_mem x hy, container⟩, rolled⟩

theorem create_ends {m : Memory} (sound : m.Sound strict roots) (hc : c < m.counters.length)
    {xs : List Item} (known : ∀ x ∈ xs, m.heap.Knows x) :
    Action.Ends
      (fun e t => (∃ why, e = .invalidOperation why) ∧ (∃ x ∈ xs, ∀ l, x ≠ .leaf l) ∧
        t.Sound strict roots ∧ m.Recounts t)
      (fun slot t => slot = { counter := c, items := xs } ∧ t.Carries strict roots c xs ∧
        m.Recounts t)
      (create c xs) m := by
  refine (addRoots_ends xs (Carries.empty sound hc) (.refl m) known).bind ?_
  rintro _ t ⟨carries, recounts⟩
  rw [List.append_nil] at carries
  exact .pure ⟨rfl, carries.perm (List.reverse_perm xs), recounts⟩

theorem createNulls_run {m : Memory} (sound : m.Sound strict roots) (hc : c < m.counters.length)
    (n : Nat) :
    ∃ m', (createNulls c n).apply m =
        (.ok { counter := c, items := List.replicate n .null }, m') ∧
      m'.Carries strict roots c (List.replicate n .null) ∧ m.Recounts m' := by
  have nulls : ∀ x ∈ List.replicate n Item.null, x = .null :=
    fun x hx => (List.mem_replicate.1 hx).2
  have known : ∀ x ∈ List.replicate n Item.null, m.heap.Knows x :=
    fun x hx => nulls x hx ▸ .leaf _ _
  rcases (create_ends sound hc known).cases with
    ⟨e, t, -, -, ⟨x, hx, container⟩, -⟩ | ⟨_, t, run, rfl, carries, recounts⟩
  · exact absurd (nulls x hx) (container .null)
  · exact ⟨t, run, carries, recounts⟩

theorem get_eq_ok {slot : Slot} {index : Nat} :
    slot.get? index = .ok x ↔ slot.items[index]? = some x := by
  rw [get?]
  split <;> simp [*]

theorem get_refused {slot : Slot} {index : Nat} {e : Error} (failed : slot.get? index = .error e) :
    ∃ why, e = .invalidOperation why := by
  rw [get?] at failed
  split at failed
  · exact absurd failed (by simp)
  · exact ⟨_, (Except.error.inj failed).symm⟩

section Held

variable (held : Held strict roots s)
include held

theorem known_of_get {index : Nat} (found : s.2.get? index = .ok x) : s.1.heap.Knows x :=
  held.known (List.mem_of_getElem? (get_eq_ok.1 found))

/-- The new item has its root before the old one loses its own. -/
theorem set_safe (known : s.1.heap.Knows x) (index : Nat) :
    Safe strict roots (fun _ _ => True) (set index x) s := by
  refine .get_bind ?_
  have got : Action.Ends (Action.Refused s)
      (fun old t => t = s ∧ s.2.items[index]? = some old) (liftM (s.2.get? index)) s :=
    .lift (fun e failed => ⟨get_refused failed, rfl⟩) fun old found => ⟨rfl, get_eq_ok.1 found⟩
  refine got.bind ?_
  rintro old t ⟨rfl, found⟩
  rcases held.add known with ⟨why, refused⟩ | ⟨m₁, first, carries₁, recounts₁⟩
  · refine .of_error (e := .invalidOperation why) (t := t) ?_ (.intro why t)
    rw [Action.apply_bind, onMemory, Action.apply_onPart, refused]
  · obtain ⟨m₂, second, carries₂, recounts₂⟩ := (carries₁.perm (set_perm found x).symm).remove
    refine .of_ok (a := ())
      (t := (m₂, ({ t.2 with items := t.2.items.set index x } : Slot))) ?_
      ⟨carries₂, ⟨recounts₁.trans recounts₂, rfl⟩, trivial⟩
    rw [Action.apply_bind, onMemory, Action.apply_onPart, first]
    simp only [Action.apply_bind, Action.apply_modify, onMemory, Action.apply_onPart, second]

theorem apply_clear : ∃ m', clear.apply s = (.ok (), (m', { s.2 with items := [] })) ∧
    m'.Carries strict roots s.2.counter [] ∧ s.1.Recounts m' := by
  obtain ⟨m', run, carries, recounts⟩ := held.removeAll (List.Perm.refl s.2.items)
  refine ⟨m', ?_, carries, recounts⟩
  rw [clear, Action.apply_bind, Action.apply_get]
  simp only [Action.apply_bind, Action.apply_modify, onMemory, Action.apply_onPart, run]

theorem clear_safe : Safe strict roots (fun _ _ => True) clear s := by
  obtain ⟨m', run, carries, recounts⟩ := apply_clear held
  exact .of_ok run ⟨carries, ⟨recounts, rfl⟩, trivial⟩

end Held

theorem drop_sound {m : Memory} {slot : Slot} (held : Held strict roots (m, slot)) :
    (slot.drop m).Sound strict roots ∧ m.Recounts (slot.drop m) := by
  obtain ⟨m', run, carries, recounts⟩ := apply_clear held
  have same : slot.drop m = m' := by rw [drop, Action.attempt_eq, run]
  rw [same]
  exact ⟨carries.without, recounts⟩

end Slot

end LiveItems
