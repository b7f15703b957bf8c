import LiveItems.Roots.Basic
import LiveItems.Proofs.Heap
import LiveItems.Proofs.Ends
import LiveItems.Proofs.Counter.Accounts
set_option autoImplicit false

/-!
# Sound memories

A memory is sound when its heap is well-formed and each counter accounts for what the objects of the
heap hold and for the roots of the counter. Adding a root for an item gives a memory that is sound
with one root more, and taking it away never fails. Neither drops anything that lies on a cycle.
-/

namespace LiveItems

section Positions

variable {x : Item} {xs : List Item} {index : Nat} {old : Item}

theorem set_perm (at_index : xs[index]? = some old) (x : Item) :
    (old :: xs.set index x).Perm (x :: xs) := by
  obtain ⟨bound, rfl⟩ := List.getElem?_eq_some_iff.1 at_index
  have replaced : (xs.set index x).Perm (x :: xs.eraseIdx index) :=
    List.set_perm_cons_eraseIdx bound x
  calc
    (xs[index] :: xs.set index x).Perm (xs[index] :: x :: xs.eraseIdx index) := replaced.cons _
    _ |>.Perm (x :: xs[index] :: xs.eraseIdx index) := List.Perm.swap ..
    _ |>.Perm (x :: xs) := (List.getElem_cons_eraseIdx_perm bound).cons x

theorem eraseIdx_perm (at_index : xs[index]? = some old) :
    (old :: xs.eraseIdx index).Perm xs := by
  obtain ⟨bound, rfl⟩ := List.getElem?_eq_some_iff.1 at_index
  exact List.getElem_cons_eraseIdx_perm bound

theorem dropLast_perm (last : xs.getLast? = some old) :
    (old :: xs.dropLast).Perm xs := by
  have whole := List.dropLast_append_getLast? old last
  calc
    (old :: xs.dropLast).Perm (xs.dropLast ++ [old]) := (List.perm_append_singleton old _).symm
    _ = xs := whole

end Positions

namespace Memory

def contents (m : Memory) (p : ItemId) : Multiset Item := m.heap.children p

def rootsOf (c : CounterId) (xs : List Item) : CounterId → Multiset Item :=
  fun d => if d = c then xs else 0

/-- Each counter accounts for the given contents and for its roots, which are places in memory.
There are no roots without a counter. -/
structure Accounted (strict : Prop) (contents : ItemId → Multiset Item)
    (roots : CounterId → Multiset Item) (m : Memory) : Prop where
  heap : m.heap.WellFormed m.counters.length
  accounts : ∀ c < m.counters.length,
    (m.counter c).Accounts strict (m.heap.Belongs c) contents (roots c)
  small : ∀ c, (m.counter c).sums = .small
  known : ∀ c, ∀ x ∈ roots c, m.heap.Knows x
  outside : ∀ c, m.counters.length ≤ c → roots c = 0

def Sound (strict : Prop) (roots : CounterId → Multiset Item) (m : Memory) : Prop :=
  m.Accounted strict m.contents roots

structure Extends (m m' : Memory) : Prop where
  heap : m.heap.Extends m'.heap
  counters : m.counters.length ≤ m'.counters.length

structure Advances (m m' : Memory) : Prop extends Extends m m' where
  spares : ∀ d, (m.counter d).Spares m'.contents (m'.counter d)

structure Recounts (m m' : Memory) : Prop where
  heap : m'.heap = m.heap
  counters : m'.counters.length = m.counters.length
  spares : ∀ d, (m.counter d).Spares m.contents (m'.counter d)

def Retains (m m' : Memory) : Prop := ∀ d, (m.counter d).ids ⊆ (m'.counter d).ids

/-- Keeps the memory sound, or is refused and changes nothing. -/
abbrev Safe {α : Type} (strict : Prop) (roots : CounterId → Multiset Item)
    (post : α → Memory → Prop) (x : Action Memory α) (m : Memory) : Prop :=
  Action.Ends (Action.Refused m) (fun a t => t.Sound strict roots ∧ m.Advances t ∧ post a t) x m

variable {strict : Prop} {contents contents' : ItemId → Multiset Item}
  {roots roots' : CounterId → Multiset Item} {m m' m'' : Memory} {c d : CounterId} {x : Item}
  {xs : List Item}

theorem rootsOf_self (c : CounterId) (xs : List Item) : rootsOf c xs c = xs := if_pos rfl

theorem rootsOf_ne (ne : d ≠ c) (xs : List Item) : rootsOf c xs d = 0 := if_neg ne

@[simp] theorem rootsOf_nil (c : CounterId) : rootsOf c [] = 0 := by
  funext d
  rw [rootsOf]
  split <;> rfl

theorem rootsOf_perm {ys : List Item} (perm : xs.Perm ys) (c : CounterId) :
    rootsOf c xs = rootsOf c ys := by
  funext d
  rw [rootsOf, rootsOf, Multiset.coe_eq_coe.2 perm]

theorem rootsOf_append (c : CounterId) (xs ys : List Item) :
    rootsOf c (xs ++ ys) = rootsOf c xs + rootsOf c ys := by
  funext d
  rw [Pi.add_apply, rootsOf, rootsOf, rootsOf, ← Multiset.coe_add]
  split <;> rfl

theorem rootsOf_cons (c : CounterId) (x : Item) (xs : List Item) :
    rootsOf c (x :: xs) = rootsOf c [x] + rootsOf c xs := rootsOf_append c [x] xs

theorem mem_rootsOf (hx : x ∈ xs) (roots : CounterId → Multiset Item) :
    x ∈ (rootsOf c xs + roots) c := by
  rw [Pi.add_apply, rootsOf_self]
  exact Multiset.mem_add.2 (.inl (Multiset.mem_coe.2 hx))

theorem mem_of_mem_rootsOf (hx : x ∈ rootsOf c xs d) : x ∈ xs := by
  rw [rootsOf] at hx
  split at hx
  · exact Multiset.mem_coe.1 hx
  · exact absurd hx (Multiset.notMem_zero x)

theorem Extends.refl (m : Memory) : m.Extends m := ⟨.refl _, le_rfl⟩

theorem Extends.trans (first : m.Extends m') (second : m'.Extends m'') : m.Extends m'' :=
  ⟨first.heap.trans second.heap, first.counters.trans second.counters⟩

instance : IsPreorder Memory Extends where
  refl := Extends.refl
  trans _ _ _ := Extends.trans

theorem contents_recounts (recounts : m.Recounts m') : m'.contents = m.contents := by
  funext p
  rw [Memory.contents, Memory.contents, recounts.heap]

theorem Recounts.refl (m : Memory) : m.Recounts m := ⟨rfl, rfl, fun _ => .refl _ _⟩

theorem Recounts.trans (first : m.Recounts m') (second : m'.Recounts m'') : m.Recounts m'' := by
  refine ⟨second.heap.trans first.heap, second.counters.trans first.counters, fun d => ?_⟩
  have next := second.spares d
  rw [contents_recounts first] at next
  exact (first.spares d).trans next

instance : IsPreorder Memory Recounts where
  refl := Recounts.refl
  trans _ _ _ := Recounts.trans

theorem Recounts.advances (recounts : m.Recounts m') : m.Advances m' := by
  refine ⟨⟨recounts.heap ▸ .refl _, recounts.counters.ge⟩, fun d => ?_⟩
  rw [contents_recounts recounts]
  exact recounts.spares d

theorem Recounts.extends (recounts : m.Recounts m') : m.Extends m' := recounts.advances.toExtends

theorem Advances.refl (m : Memory) : m.Advances m := (Recounts.refl m).advances

theorem Advances.recounts (first : m.Advances m') (second : m'.Recounts m'') : m.Advances m'' := by
  refine ⟨first.toExtends.trans second.extends, fun d => ?_⟩
  rw [contents_recounts second]
  exact (first.spares d).trans (second.spares d)

theorem Retains.refl (m : Memory) : m.Retains m := fun _ => Finset.Subset.refl _

theorem Retains.trans (first : m.Retains m') (second : m'.Retains m'') : m.Retains m'' :=
  fun d => (first d).trans (second d)

theorem Retains.advances (retains : m.Retains m') (extended : m.Extends m') : m.Advances m' :=
  ⟨extended, fun d => .of_subset (retains d)⟩

theorem length_setCounter (m : Memory) (c : CounterId) (e : Counter) :
    (m.setCounter c e).counters.length = m.counters.length := by
  rw [setCounter, List.length_set]

theorem contents_setCounter (m : Memory) (c : CounterId) (e : Counter) :
    (m.setCounter c e).contents = m.contents := rfl

theorem recounts_setCounter (hc : c < m.counters.length) {e : Counter}
    (spares : (m.counter c).Spares m.contents e) : m.Recounts (m.setCounter c e) := by
  refine ⟨rfl, length_setCounter m c e, fun d => ?_⟩
  rw [counter_setCounter hc]
  split
  · rename_i same
    exact same ▸ spares
  · exact .refl _ _

theorem retains_setCounter (hc : c < m.counters.length) {e : Counter}
    (subset : (m.counter c).ids ⊆ e.ids) : m.Retains (m.setCounter c e) := by
  intro d
  rw [counter_setCounter hc]
  split
  · rename_i same
    exact same ▸ subset
  · exact Finset.Subset.refl _

/-- It is enough that the counter that changes accounts for what has changed. -/
theorem Accounted.setCounter (acc : m.Accounted strict contents roots)
    (roots' : CounterId → Multiset Item) (hc : c < m.counters.length) {e : Counter}
    (account : e.Accounts strict (m.heap.Belongs c) contents' (roots' c)) (small : e.sums = .small)
    (others : ∀ d, d ≠ c → roots' d = roots d)
    (same : ∀ d, d ≠ c → ∀ p ∈ m.heap.Belongs d, contents p = contents' p)
    (known : ∀ x ∈ roots' c, m.heap.Knows x) :
    (m.setCounter c e).Accounted strict contents' roots' := by
  have length := length_setCounter m c e
  refine ⟨length ▸ acc.heap, fun d hd => ?_, fun d => ?_, fun d x hx => ?_, fun d hd => ?_⟩
  · rw [counter_setCounter hc]
    by_cases ne : d = c
    · subst ne
      rw [if_pos rfl]
      exact account
    · rw [if_neg ne, others d ne]
      have old := acc.accounts d (length ▸ hd)
      exact old.congr (fun p hp => same d ne p (old.within p hp)) old.within
  · rw [counter_setCounter hc]
    split
    · exact small
    · exact acc.small d
  · by_cases ne : d = c
    · subst ne
      exact known x hx
    · exact acc.known d x (others d ne ▸ hx)
  · rw [length] at hd
    rw [others d fun same => absurd hc (same ▸ Nat.not_lt.2 hd)]
    exact acc.outside d hd

theorem Sound.replace (sound : m.Sound strict roots) (hc : c < m.counters.length) {e : Counter}
    (account : e.Accounts strict (m.heap.Belongs c) m.contents (roots c))
    (small : e.sums = .small) : (m.setCounter c e).Sound strict roots :=
  Accounted.setCounter sound roots hc account small (fun _ _ => rfl) (fun _ _ _ _ => rfl)
    (sound.known c)

theorem Sound.inside (sound : m.Sound strict roots) (c : CounterId) :
    ∀ p ∈ m.heap.Belongs c, ∀ a, 0 < occurrences a (m.contents p) → a ∈ m.heap.Belongs c := by
  intro p hp a ha
  obtain ⟨y, hy, hid⟩ := occurrences_pos.1 ha
  exact (sound.heap.holds p y (Multiset.mem_coe.1 hy)).belongs hp hid

theorem mustBelong_ok (owned : x.isCompound → m.heap.ownerOf x = some c) :
    (mustBelong c x).apply m = (.ok (), m) := by
  rw [mustBelong]
  split
  · rename_i compound
    rw [Action.apply_bind, Action.apply_get]
    simp only [owned compound, if_true]
    rfl
  · rfl

theorem mustBelong_cases (m : Memory) (c : CounterId) (x : Item) :
    (∃ why, (mustBelong c x).apply m = (.error (.invalidOperation why), m)) ∨
      (x.isCompound → m.heap.ownerOf x = some c) := by
  by_cases owned : x.isCompound → m.heap.ownerOf x = some c
  · exact .inr owned
  · refine .inl ?_
    obtain ⟨compound, foreign⟩ := Classical.not_imp.1 owned
    rw [mustBelong, if_pos compound, Action.apply_bind, Action.apply_get]
    cases owner : m.heap.ownerOf x with
    | none =>
      simp only [owner]
      exact ⟨_, rfl⟩
    | some d =>
      have ne : d ≠ c := fun e => foreign (e ▸ owner)
      simp only [owner, if_neg ne]
      exact ⟨_, rfl⟩

theorem Sound.addRoot (sound : m.Sound strict roots) (hc : c < m.counters.length)
    (known : m.heap.Knows x) :
    (∃ why, (Memory.addRoot c x).apply m = (.error (.invalidOperation why), m)) ∨
      ∃ m', (Memory.addRoot c x).apply m = (.ok (), m') ∧
        m'.Sound strict (rootsOf c [x] + roots) ∧ m.Recounts m' := by
  have unfolded : Memory.addRoot c x = (mustBelong c x >>= fun _ =>
      updateCounter c fun h => Counter.addRoots h x 1) := rfl
  rw [unfolded, Action.apply_bind]
  rcases mustBelong_cases m c x with ⟨why, refused⟩ | owned
  · rw [refused]
    exact .inl ⟨why, rfl⟩
  · rw [mustBelong_ok owned]
    have grown := Counter.addRoots_subset (c := m.counter c) sound.heap.closed x 1
    have grows := Counter.grows_addRoots m.heap x 1 (m.counter c)
    refine .inr ⟨_, rfl, ?_, recounts_setCounter hc (.of_subset grown)⟩
    have account := (sound.accounts c hc).addRoots sound.heap.closed (fun _ _ => rfl)
      (sound.inside c) (fun id hid => known.belongs owned hid) Nat.one_ne_zero
      (grows.unwrapped_of_small (sound.small c))
    refine Accounted.setCounter sound (rootsOf c [x] + roots) hc ?_ (grows.small (sound.small c))
      (fun d ne => ?_) (fun _ _ _ _ => rfl) fun y hy => ?_
    · rw [Pi.add_apply, rootsOf_self]
      exact account
    · rw [Pi.add_apply, rootsOf_ne ne, zero_add]
    · rw [Pi.add_apply, rootsOf_self] at hy
      rcases Multiset.mem_add.1 hy with hy | hy
      · obtain rfl := List.mem_singleton.1 (Multiset.mem_coe.1 hy)
        exact known
      · exact sound.known c y hy

theorem Sound.counter_lt (sound : m.Sound strict (rootsOf c (x :: xs) + roots)) :
    c < m.counters.length := by
  by_contra outside
  have none := sound.outside c (Nat.not_lt.1 outside)
  have held := mem_rootsOf (List.mem_cons_self (a := x) (l := xs)) (c := c) roots
  rw [none] at held
  exact absurd held (Multiset.notMem_zero x)

theorem Sound.removeRoot (sound : m.Sound strict (rootsOf c [x] + roots)) :
    ∃ m', (Memory.removeRoot c x).apply m = (.ok (), m') ∧ m'.Sound strict roots ∧
      m.Recounts m' := by
  have hc := sound.counter_lt
  have before := sound.accounts c hc
  rw [Pi.add_apply, rootsOf_self] at before
  obtain ⟨e, run, account, spares⟩ := Counter.Accounts.removeRoot before
  have sinks := Counter.removeRoot_follows x (m.counter c)
  rw [run] at sinks
  refine ⟨m.setCounter c e, ?_, ?_, recounts_setCounter hc spares⟩
  · rw [Memory.removeRoot, onCounter, Action.apply_onPart, run]
  · refine Accounted.setCounter sound roots hc account (sinks.sums.trans (sound.small c))
      (fun d ne => ?_) (fun _ _ _ _ => rfl) fun y hy => sound.known c y ?_
    · rw [Pi.add_apply, rootsOf_ne ne, zero_add]
    · exact Multiset.mem_add.2 (.inr hy)

theorem Sound.removeRoots (xs : List Item) {m : Memory}
    (sound : m.Sound strict (rootsOf c xs + roots)) :
    ∃ m', (Memory.removeRoots c xs).apply m = (.ok (), m') ∧ m'.Sound strict roots ∧
      m.Recounts m' := by
  induction xs generalizing m with
  | nil =>
    rw [rootsOf_nil, zero_add] at sound
    exact ⟨m, rfl, sound, .refl m⟩
  | cons x xs ih =>
    rw [rootsOf_cons, add_assoc] at sound
    obtain ⟨m', first, sound', recounts⟩ := sound.removeRoot
    obtain ⟨m'', others, sound'', recounts'⟩ := ih sound'
    refine ⟨m'', ?_, sound'', recounts.trans recounts'⟩
    rw [Memory.removeRoots] at others ⊢
    rw [Action.apply_forAll_cons, first]
    simp only [others]
    rfl

section Counters

variable (sound : m.Sound strict roots)
include sound

/-- A suspicion is accounted for where no strict account is kept. -/
theorem Sound.suspect (hc : c < m.counters.length) (known : m.heap.Knows x) (lax : ¬strict) :
    Safe strict roots (fun _ _ => True) (Memory.suspect c x) m := by
  rcases mustBelong_cases m c x with ⟨why, refused⟩ | owned
  · refine .of_error (e := .invalidOperation why) (t := m) ?_ (.intro why m)
    rw [Memory.suspect, Action.apply_bind, refused]
  · have run : (Memory.suspect c x).apply m =
        (.ok (), m.setCounter c ((m.counter c).suspect m.heap x)) := by
      rw [Memory.suspect, Action.apply_bind, mustBelong_ok owned]
      rfl
    have grows := Counter.grows_suspect m.heap x (m.counter c)
    have account := (sound.accounts c hc).suspect sound.heap.closed (fun _ _ => rfl)
      (sound.inside c) (fun id hid => known.belongs owned hid) lax
      (grows.unwrapped_of_small (sound.small c))
    have grown := Counter.suspect_subset (c := m.counter c) sound.heap.closed x
    exact .of_ok run
      ⟨sound.replace hc account (grows.small (sound.small c)),
        (recounts_setCounter hc (.of_subset grown)).advances, trivial⟩

theorem Sound.resetPeak (hc : c < m.counters.length) :
    ∃ m', (Memory.resetPeak c).apply m = (.ok (), m') ∧ m'.Sound strict roots ∧ m.Recounts m' := by
  refine ⟨m.setCounter c (m.counter c).resetPeak, rfl,
    sound.replace hc (sound.accounts c hc).resetPeak (sound.small c),
    recounts_setCounter hc (.refl _ _)⟩

theorem Sound.newCounter : Safe strict roots (fun _ _ => True) Memory.newCounter m := by
  have run : (Memory.newCounter).apply m =
      (.ok m.counters.length, { m with counters := m.counters ++ [Counter.fresh] }) := rfl
  have retains : m.Retains { m with counters := m.counters ++ [Counter.fresh] } := by
    intro d
    rw [counter_append]
  refine .of_ok run ⟨⟨⟨sound.heap.given, sound.heap.holds, fun p d owned => ?_⟩, fun d hd => ?_,
    fun d => ?_, sound.known, fun d hd => ?_⟩, retains.advances ⟨.refl _, ?_⟩, trivial⟩
  · rw [List.length_append]
    exact Nat.lt_of_lt_of_le (sound.heap.owners p d owned) (Nat.le_add_right _ _)
  · rw [List.length_append, List.length_singleton] at hd
    rw [counter_append]
    by_cases before : d < m.counters.length
    · exact sound.accounts d before
    · have outside := Nat.not_lt.1 before
      rw [counter_of_le outside, sound.outside d outside]
      exact Counter.accounts_fresh strict _ _
  · rw [counter_append]
    exact sound.small d
  · rw [List.length_append, List.length_singleton] at hd
    exact sound.outside d (Nat.le_of_succ_le hd)
  · rw [List.length_append]
    exact Nat.le_add_right _ _

end Counters

end Memory

end LiveItems
