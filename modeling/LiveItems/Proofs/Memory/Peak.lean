import LiveItems.Container.Map
import LiveItems.Container.Buffer
import LiveItems.Container.Copy
import LiveItems.Roots.Slot
import LiveItems.Roots.Stack
import LiveItems.Proofs.Counter.Peak
set_option autoImplicit false

/-!
# The highest count of a memory

What adds references or roots lets counters grow, what takes them away lets them sink, and nothing
else changes a count, whether an operation succeeds or fails. So a counter moves along any preorder
that these two go along with; only a reset of the peak need not. As one such preorder, the highest
count never goes down.
-/

namespace LiveItems

open LiveItems.Action (Follows)

variable {step : Counter → Counter → Prop} [IsPreorder Counter step]
  (up : Subrelation Counter.Grows step) (down : Subrelation Counter.Sinks step)

namespace Memory

def Steps (step : Counter → Counter → Prop) (d : CounterId) (m m' : Memory) : Prop :=
  step (m.counter d) (m'.counter d)

def Rises (d : CounterId) (m m' : Memory) : Prop := (m.counter d).Rises (m'.counter d)

instance (d : CounterId) : IsPreorder Memory (Rises d) where
  refl m := .refl (m.counter d)
  trans _ _ _ first second := Counter.Rises.trans first second

instance (d : CounterId) : IsPreorder Memory (Steps step d) where
  refl m := refl_of step (m.counter d)
  trans _ _ _ first second := trans_of step first second

/-- Of a counter that changes and others that do not, each moves along a preorder. -/
theorem steps_setCounter (step : Counter → Counter → Prop) [IsPreorder Counter step] {m : Memory}
    {c : CounterId} {e : Counter} (moves : step (m.counter c) e) (d : CounterId) :
    step (m.counter d) ((m.setCounter c e).counter d) := by
  by_cases bound : c < m.counters.length
  · rw [counter_setCounter bound]
    split
    · rename_i own
      rw [own]
      exact moves
    · exact refl_of step _
  · rw [setCounter_of_le (Nat.not_lt.1 bound)]
    exact refl_of step _

variable (d : CounterId)

/-! ## Operations of counters -/

theorem onCounter_follows {α : Type} {x : Action Counter α} (follows : Follows step x)
    (c : CounterId) : Follows (Steps step d) (onCounter c x) :=
  follows.onPart fun _ _ moves => steps_setCounter step moves d

theorem updateCounter_follows {f : Heap → Counter → Counter}
    (moves : ∀ (h : Heap) (e : Counter), step e (f h e)) (c : CounterId) :
    Follows (Steps step d) (updateCounter c f) :=
  .modify fun m => steps_setCounter step (moves m.heap (m.counter c)) d

theorem mustBelong_follows (c : CounterId) (x : Item) :
    Follows (Steps step d) (mustBelong c x) := by
  rw [mustBelong]
  split
  · refine .get_bind fun m => ?_
    split
    · split
      · exact .pure ()
      · exact .refuse _
    · exact .refuse _
  · exact .pure ()

include up in
theorem addRoots_follows (c : CounterId) (x : Item) (n : Nat) :
    Follows (Steps step d) (addRoots c x n) := by
  rw [addRoots]
  split
  · exact .pure ()
  · exact (mustBelong_follows d c x).bind fun _ =>
      updateCounter_follows d (fun h e => up (e.grows_addRoots h x n)) c

theorem addLooseRoots_follows (wide : Subrelation Counter.Swells step) (c : CounterId) (x : Item)
    (n : Nat) : Follows (Steps step d) (addLooseRoots c x n) :=
  (updateCounter_follows d (fun _ e => wide e.swells_inWords) c).bind fun _ =>
    addRoots_follows (fun grows => wide grows.toSwells) d c x n

include up in
theorem addRoot_follows (c : CounterId) (x : Item) : Follows (Steps step d) (addRoot c x) :=
  addRoots_follows up d c x 1

include down in
theorem removeRoot_follows (c : CounterId) (x : Item) : Follows (Steps step d) (removeRoot c x) :=
  onCounter_follows d ((Counter.removeRoot_follows x).mono down) c

include down in
theorem removeRoots_follows (c : CounterId) (xs : List Item) :
    Follows (Steps step d) (removeRoots c xs) :=
  .forAll (removeRoot_follows down d c) xs

include up in
theorem addOccurrence_follows (c : CounterId) (child : Item) (parent : ItemId) :
    Follows (Steps step d) (addOccurrence c child parent) :=
  (mustBelong_follows d c child).bind fun _ =>
    updateCounter_follows d (fun h e => up (e.grows_addOccurrence h child parent)) c

include down in
theorem removeOccurrence_follows (c : CounterId) (child : Item) (parent : ItemId) :
    Follows (Steps step d) (removeOccurrence c child parent) :=
  onCounter_follows d ((Counter.removeOccurrence_follows child parent).mono down) c

include up in
theorem suspect_follows (c : CounterId) (x : Item) : Follows (Steps step d) (suspect c x) :=
  (mustBelong_follows d c x).bind fun _ =>
    updateCounter_follows d (fun h e => up (e.grows_suspect h x)) c

theorem sinks_collect (c : CounterId) (m : Memory) :
    (m.counter d).Sinks (((collect c).apply m).2.counter d) := by
  have swept := Pass.sweep_follows { counter := m.counter c }
  exact steps_setCounter Counter.Sinks swept d

omit [IsPreorder Counter step] in
include down in
theorem collect_follows (c : CounterId) : Follows (Steps step d) (collect c) :=
  fun m => down (sinks_collect d c m)

theorem counter_resetPeak (c : CounterId) (m : Memory) :
    ((resetPeak c).attempt m).counter c = (m.counter c).resetPeak := by
  change (m.setCounter c (m.counter c).resetPeak).counter c = _
  by_cases bound : c < m.counters.length
  · rw [counter_setCounter bound, if_pos rfl]
  · have outside := Nat.not_lt.1 bound
    rw [setCounter_of_le outside, counter_of_le outside]
    rfl

theorem resetPeak_follows {c : CounterId} (other : c ≠ d) :
    Follows (Steps step d) (resetPeak c) := by
  refine .modify fun m => ?_
  rw [Steps]
  by_cases bound : c < m.counters.length
  · rw [counter_setCounter bound, if_neg other.symm]
    exact refl_of step _
  · rw [setCounter_of_le (Nat.not_lt.1 bound)]
    exact refl_of step _

theorem newCounter_follows : Follows (Steps step d) newCounter := by
  intro m
  have after : (newCounter.apply m).2.counter d = m.counter d := counter_append m d
  rw [Steps, after]
  exact refl_of step _

/-! ## Containers -/

theorem newObject_follows (o : Object) : Follows (Steps step d) (newObject o) :=
  fun m => refl_of step (m.counter d)

theorem store_follows (id : ItemId) (s : Storage) : Follows (Steps step d) (store id s) :=
  fun m => refl_of step (m.counter d)

theorem setReadOnly_follows (id : ItemId) (value : Bool) :
    Follows (Steps step d) (setReadOnly id value) := fun m => refl_of step (m.counter d)

theorem mustShareOwner_follows (owner : Option CounterId) (x : Item) :
    Follows (Steps step d) (mustShareOwner owner x) := by
  cases owner with
  | none => exact .pure ()
  | some c =>
    refine .get_bind fun m => ?_
    split
    · exact .refuse _
    · exact .pure ()

theorem mustAccept_follows (id : ItemId) (x : Item) : Follows (Steps step d) (mustAccept id x) :=
  .get_bind fun m => mustShareOwner_follows d (m.heap.owner id) x

theorem mustBeWritable_follows (id : ItemId) : Follows (Steps step d) (mustBeWritable id) := by
  refine .get_bind fun m => ?_
  split
  · exact .refuse _
  · exact .pure ()

include up in
theorem reportAdded_follows (id : ItemId) (x : Item) :
    Follows (Steps step d) (reportAdded id x) := by
  refine .get_bind fun m => ?_
  split
  · exact addOccurrence_follows up d _ x id
  · exact .pure ()

include down in
theorem reportRemoved_follows (id : ItemId) (x : Item) :
    Follows (Steps step d) (reportRemoved id x) := by
  refine .get_bind fun m => ?_
  split
  · exact removeOccurrence_follows down d _ x id
  · exact .pure ()

end Memory

namespace ListObject

open Memory

variable (d : CounterId)

theorem create_follows (owner : Option CounterId) (xs : List Item) :
    Follows (Steps step d) (create owner xs) :=
  (Follows.forM (mustShareOwner_follows d owner) xs).bind fun _ => newObject_follows d _

theorem items_follows (id : ItemId) : Follows (Steps step d) (items id) :=
  .get_bind fun m => .pure (m.heap.listItems id)

include up in
theorem push_follows (id : ItemId) (x : Item) : Follows (Steps step d) (push id x) := by
  refine (mustAccept_follows d id x).bind fun _ => ?_
  refine (mustBeWritable_follows d id).bind fun _ => ?_
  refine (items_follows d id).bind fun xs => ?_
  exact (store_follows d id _).bind fun _ => reportAdded_follows up d id x

include up down in
theorem set_follows (id : ItemId) (index : Nat) (x : Item) :
    Follows (Steps step d) (set id index x) := by
  refine (mustAccept_follows d id x).bind fun _ => ?_
  refine (mustBeWritable_follows d id).bind fun _ => ?_
  refine (items_follows d id).bind fun xs => ?_
  split
  · exact .refuse _
  · rename_i old _
    refine (store_follows d id _).bind fun _ => ?_
    exact (reportAdded_follows up d id x).bind fun _ => reportRemoved_follows down d id old

include up in
theorem insert_follows (id : ItemId) (index : Nat) (x : Item) :
    Follows (Steps step d) (insert id index x) := by
  refine (mustAccept_follows d id x).bind fun _ => ?_
  refine (mustBeWritable_follows d id).bind fun _ => ?_
  refine (items_follows d id).bind fun xs => ?_
  split
  · exact .refuse _
  · exact (store_follows d id _).bind fun _ => reportAdded_follows up d id x

include down in
theorem remove_follows (id : ItemId) (index : Nat) : Follows (Steps step d) (remove id index) := by
  refine (mustBeWritable_follows d id).bind fun _ => ?_
  refine (items_follows d id).bind fun xs => ?_
  split
  · exact .refuse _
  · rename_i old _
    refine (store_follows d id _).bind fun _ => ?_
    exact (reportRemoved_follows down d id old).bind fun _ => .pure old

include down in
theorem pop_follows (id : ItemId) : Follows (Steps step d) (pop id) := by
  refine (mustBeWritable_follows d id).bind fun _ => ?_
  refine (items_follows d id).bind fun xs => ?_
  split
  · exact .refuse _
  · rename_i old _
    refine (store_follows d id _).bind fun _ => ?_
    exact (reportRemoved_follows down d id old).bind fun _ => .pure old

include down in
theorem clear_follows (id : ItemId) : Follows (Steps step d) (clear id) := by
  refine (mustBeWritable_follows d id).bind fun _ => ?_
  refine (items_follows d id).bind fun xs => ?_
  exact (store_follows d id _).bind fun _ => .forM (reportRemoved_follows down d id) xs

theorem reverse_follows (id : ItemId) : Follows (Steps step d) (reverse id) := by
  refine (mustBeWritable_follows d id).bind fun _ => ?_
  exact (items_follows d id).bind fun xs => store_follows d id _

include up in
theorem copyItems_follows (owner : Option CounterId) (target : ItemId) (xs : List Item) (room : Nat)
    (queue : List (ItemId × ItemId)) :
    Follows (Steps step d) (copyItems owner target xs room queue) := by
  induction xs generalizing room queue with
  | nil => exact .pure _
  | cons x xs ih =>
    cases room with
    | zero => cases x <;> exact .refuse _
    | succ room =>
      have plain : Follows (Steps step d)
          (push target x >>= fun _ => copyItems owner target xs room queue) :=
        (push_follows up d target x).bind fun _ => ih room queue
      cases x with
      | leaf l => exact plain
      | object kind source =>
        cases kind with
        | struct =>
          refine (create_follows d owner []).bind fun copy => ?_
          exact (push_follows up d target _).bind fun _ => ih room (queue ++ [(copy, source)])
        | array | map | buffer => exact plain

include up in
theorem copyQueue_follows (owner : Option CounterId) (fuel room : Nat)
    (queue : List (ItemId × ItemId)) :
    Follows (Steps step d) (copyQueue owner fuel room queue) := by
  fun_induction copyQueue owner fuel room queue with
  | case1 => exact .pure ()
  | case2 => exact .pure ()
  | case3 fuel room target source queue ih =>
    refine (items_follows d source).bind fun xs => ?_
    refine (copyItems_follows up d owner target xs room queue).bind fun (room, queue) => ?_
    exact ih room queue

include up in
theorem copyStruct_follows (id : ItemId) (limit : Nat) :
    Follows (Steps step d) (copyStruct id limit) := by
  refine .get_bind fun m => ?_
  refine (create_follows d (m.heap.owner id) []).bind fun copy => ?_
  exact (copyQueue_follows up d _ _ _ _).bind fun _ => .pure copy

end ListObject

namespace MapObject

open Memory

variable (d : CounterId)

theorem create_follows (owner : Option CounterId) : Follows (Steps step d) (create owner) :=
  newObject_follows d _

theorem entries_follows (id : ItemId) : Follows (Steps step d) (entries id) :=
  .get_bind fun m => .pure (m.heap.mapEntries id)

theorem mustBeKey_follows (k : Item) : Follows (Steps step d) (mustBeKey k) := by
  rw [mustBeKey]
  split
  · exact .refuse _
  · split
    · exact .refuse _
    · exact .pure ()

theorem get?_follows (id : ItemId) (k : Item) : Follows (Steps step d) (get? id k) := by
  refine (mustBeKey_follows d k).bind fun _ => ?_
  exact (entries_follows d id).bind fun es => .pure _

theorem contains_follows (id : ItemId) (k : Item) : Follows (Steps step d) (contains id k) := by
  refine (mustBeKey_follows d k).bind fun _ => ?_
  exact (entries_follows d id).bind fun es => .pure _

include up down in
theorem set_follows (id : ItemId) (k v : Item) : Follows (Steps step d) (set id k v) := by
  refine (mustBeKey_follows d k).bind fun _ => ?_
  refine (mustAccept_follows d id v).bind fun _ => ?_
  refine (mustBeWritable_follows d id).bind fun _ => ?_
  refine (entries_follows d id).bind fun es => ?_
  refine (store_follows d id _).bind fun _ => ?_
  cases es.get? k with
  | none =>
    refine (reportAdded_follows up d id k).bind fun _ => ?_
    exact (reportAdded_follows up d id v).bind fun _ => .pure none
  | some old =>
    refine (reportAdded_follows up d id v).bind fun _ => ?_
    exact (reportRemoved_follows down d id old).bind fun _ => .pure (some old)

include down in
theorem remove_follows (id : ItemId) (k : Item) : Follows (Steps step d) (remove id k) := by
  refine (mustBeKey_follows d k).bind fun _ => ?_
  refine (mustBeWritable_follows d id).bind fun _ => ?_
  refine (entries_follows d id).bind fun es => ?_
  split
  · exact .pure none
  · rename_i old _
    refine (store_follows d id _).bind fun _ => ?_
    refine (reportRemoved_follows down d id k).bind fun _ => ?_
    exact (reportRemoved_follows down d id old).bind fun _ => .pure _

include down in
theorem clear_follows (id : ItemId) : Follows (Steps step d) (clear id) := by
  refine (mustBeWritable_follows d id).bind fun _ => ?_
  refine (entries_follows d id).bind fun es => ?_
  exact (store_follows d id _).bind fun _ => .forM (reportRemoved_follows down d id) _

end MapObject

namespace BufferObject

open Memory

theorem set_follows (d : CounterId) (id : ItemId) (index : Nat) (b : UInt8) :
    Follows (Steps step d) (set id index b) := by
  refine .get_bind fun m => ?_
  by_cases bound : index < (m.heap.bytes id).length
  · simp only [if_pos bound]
    exact store_follows d id _
  · simp only [if_neg bound]
    exact .refuse _

end BufferObject

/-! ## Roots -/

def StepsBeside {ρ : Type} (step : Counter → Counter → Prop) (d : CounterId) (s t : Memory × ρ) :
    Prop := s.1.Steps step d t.1

instance {ρ : Type} (d : CounterId) : IsPreorder (Memory × ρ) (StepsBeside step d) where
  refl s := refl_of (Memory.Steps step d) s.1
  trans _ _ _ first second := trans_of (Memory.Steps step d) first second

variable (d : CounterId)

omit [IsPreorder Counter step] in
theorem onMemory_follows {ρ α : Type} {x : Action Memory α}
    (follows : Follows (Memory.Steps step d) x) :
    Follows (StepsBeside step d) (onMemory x : Action (Memory × ρ) α) :=
  follows.onPart fun _ _ moves => moves

namespace Stack

theorem setItems_follows (xs : List Item) : Follows (StepsBeside step d) (setItems xs) :=
  .modify fun s => refl_of (Memory.Steps step d) s.1

include up in
theorem push_follows (x : Item) : Follows (StepsBeside step d) (push x) :=
  .get_bind fun s => (onMemory_follows d (Memory.addRoot_follows up d s.2.counter x)).bind fun _ =>
    setItems_follows d (x :: s.2.items)

include down in
theorem pop_follows : Follows (StepsBeside step d) pop := by
  refine .get_bind fun s => ?_
  obtain ⟨m, c, items⟩ := s
  cases items with
  | nil => exact .violate _
  | cons x xs =>
    refine (setItems_follows d xs).bind fun _ => ?_
    exact (onMemory_follows d (Memory.removeRoot_follows down d c x)).bind fun _ => .pure x

include down in
theorem remove_follows (depth : Nat) : Follows (StepsBeside step d) (remove depth) := by
  refine .get_bind fun (m, s) => ?_
  simp only
  split
  · exact .refuse _
  · rename_i x _
    refine (setItems_follows d _).bind fun _ => ?_
    exact (onMemory_follows d (Memory.removeRoot_follows down d s.counter x)).bind fun _ => .pure x

include up in
theorem insert_follows (depth : Nat) (x : Item) :
    Follows (StepsBeside step d) (insert depth x) := by
  refine .get_bind fun (m, s) => ?_
  simp only
  split
  · exact .refuse _
  · exact (onMemory_follows d (Memory.addRoot_follows up d s.counter x)).bind fun _ =>
      setItems_follows d _

theorem reverse_follows (n : Nat) : Follows (StepsBeside step d) (reverse n) := by
  refine .get_bind fun (m, s) => ?_
  simp only
  split
  · exact .refuse _
  · exact setItems_follows d _

include down in
theorem clear_follows : Follows (StepsBeside step d) clear :=
  .get_bind fun s => (setItems_follows d []).bind fun _ =>
    onMemory_follows d (Memory.removeRoots_follows down d s.2.counter s.2.bottomUp)

include down in
theorem steps_drop (s : Stack) (m : Memory) :
    m.Steps step d (s.drop m) := clear_follows down d (m, s)

end Stack

namespace Slot

include up down in
theorem addRoots_follows (c : CounterId) (done xs : List Item) :
    Follows (Memory.Steps step d) (addRoots c done xs) := by
  induction xs generalizing done with
  | nil => exact .pure ()
  | cons x xs ih =>
    intro m
    rw [addRoots, Action.apply_of]
    have first := Memory.addRoot_follows up d c x m
    split
    · rename_i m' run
      rw [run] at first
      exact trans_of step first (ih (x :: done) m')
    · rename_i e m' run
      rw [run] at first
      exact trans_of step first (Memory.removeRoots_follows down d c done.reverse m')

include up down in
theorem create_follows (c : CounterId) (xs : List Item) :
    Follows (Memory.Steps step d) (create c xs) :=
  (addRoots_follows up down d c [] xs).bind fun _ => .pure _

include up in
/-- Any slot can hold leaves, so nothing has to be released again. -/
theorem addRoots_nulls_follows (c : CounterId) (done : List Item) (n : Nat) :
    Follows (Memory.Steps step d) (addRoots c done (List.replicate n .null)) := by
  induction n generalizing done with
  | zero => exact .pure ()
  | succ n ih =>
    intro m
    have first := Memory.addRoot_follows up d c .null m
    have held : ∃ m', (Memory.addRoot c .null).apply m = (.ok (), m') := ⟨_, rfl⟩
    obtain ⟨m', run⟩ := held
    rw [run] at first
    rw [List.replicate_succ, addRoots, Action.apply_of, run]
    exact trans_of (Memory.Steps step d) first (ih _ m')

include up in
theorem createNulls_follows (c : CounterId) (n : Nat) :
    Follows (Memory.Steps step d) (createNulls c n) :=
  (addRoots_nulls_follows up d c [] n).bind fun _ => .pure _

include up down in
theorem set_follows (index : Nat) (x : Item) : Follows (StepsBeside step d) (set index x) := by
  refine .get_bind fun (m, s) => ?_
  refine (Follows.lift (s.get? index)).bind fun old => ?_
  refine (onMemory_follows d (Memory.addRoot_follows up d s.counter x)).bind fun _ => ?_
  refine .bind (.modify fun t => refl_of (Memory.Steps step d) t.1) fun _ => ?_
  exact onMemory_follows d (Memory.removeRoot_follows down d s.counter old)

include down in
theorem clear_follows : Follows (StepsBeside step d) clear := by
  refine .get_bind fun (m, s) => ?_
  refine .bind (.modify fun t => refl_of (Memory.Steps step d) t.1) fun _ => ?_
  exact onMemory_follows d (Memory.removeRoots_follows down d s.counter s.items)

include down in
theorem steps_drop (s : Slot) (m : Memory) :
    m.Steps step d (s.drop m) := clear_follows down d (m, s)

end Slot

end LiveItems
