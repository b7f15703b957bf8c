import LiveItems.Proofs.Memory.Collect
import LiveItems.Proofs.Memory.Peak
import LiveItems.Proofs.Counter.Consistent
import LiveItems.Proofs.Counter.Confined
set_option autoImplicit false

/-!
# Calls of counters

Whatever happens to a memory is made of calls of counters, of changes of the heap, and of new
counters. The calls may be made in any order and with any items, and they may match nothing. A log
of the calls tells how many roots of leaves a counter has been given.
-/

namespace LiveItems.Memory

open LiveItems.Action (Follows)
open Counter (StaysWrapped)

inductive Method where
  | addRoots (x : Item) (n : Nat)
  | removeRoot (x : Item)
  | addOccurrence (child : Item) (parent : ItemId)
  | removeOccurrence (child : Item) (parent : ItemId)
  | suspect (x : Item)
  | collect
  | resetPeak
  deriving Repr, DecidableEq

namespace Method

def call (c : CounterId) : Method → Action Memory Unit
  | addRoots x n => Memory.addRoots c x n
  | removeRoot x => Memory.removeRoot c x
  | addOccurrence child parent => Memory.addOccurrence c child parent
  | removeOccurrence child parent => Memory.removeOccurrence c child parent
  | suspect x => Memory.suspect c x
  | collect => (fun _ => ()) <$> Memory.collect c
  | resetPeak => Memory.resetPeak c

def added? : Method → Option Item
  | addRoots x _ => some x
  | addOccurrence child _ => some child
  | suspect x => some x
  | _ => none

end Method

structure Call where
  counter : CounterId
  method : Method
  result : Except Error Unit

/-- The roots of leaves that the call has added. -/
def Call.leavesAdded (call : Call) : Nat :=
  match call.method, call.result with
  | .addRoots (.leaf _) n, .ok () => n
  | _, _ => 0

/-- The roots of leaves that the call has taken away. -/
def Call.leavesRemoved (call : Call) : Nat :=
  match call.method, call.result with
  | .removeRoot (.leaf _), .ok () => 1
  | _, _ => 0

def callsOf (c : CounterId) (log : List Call) : List Call := log.filter (·.counter = c)

def leavesAdded (c : CounterId) (log : List Call) : Nat :=
  ((callsOf c log).map Call.leavesAdded).sum

def leavesRemoved (c : CounterId) (log : List Call) : Nat :=
  ((callsOf c log).map Call.leavesRemoved).sum

/-- No counter has ever lost more roots of leaves than it had been given. -/
def Spared (log : List Call) : Prop :=
  ∀ done, done <+: log → ∀ c, leavesRemoved c done ≤ leavesAdded c done

/-- From one memory to another by calls of counters in `A`, before which the counter may come to add
in words, by changes of the heap that leave alone what belongs to other counters, and by new
counters. Objects keep their kind and their counter, and hold only what they may hold. -/
inductive Path (A : Set CounterId) : Memory → List Call → Memory → Prop where
  | done (m : Memory) : Path A m [] m
  | call {m t : Memory} {calls : List Call} {c : CounterId} (method : Method) (among : c ∈ A)
      (bound : c < m.counters.length) (known : ∀ x, method.added? = some x → m.heap.Knows x) :
      Path A ((method.call c).attempt m) calls t →
      Path A m (⟨c, method, ((method.call c).apply m).1⟩ :: calls) t
  | words {m t : Memory} {calls : List Call} {c : CounterId} (among : c ∈ A)
      (bound : c < m.counters.length) :
      Path A (m.setCounter c (m.counter c).inWords) calls t → Path A m calls t
  | write {m t : Memory} {calls : List Call} {h : Heap} (extended : m.heap.Extends h)
      (wellFormed : h.WellFormed m.counters.length)
      (others : ∀ id d, m.heap.owner id = some d → d ∉ A → h.object? id = m.heap.object? id) :
      Path A { m with heap := h } calls t → Path A m calls t
  | newCounter {m t : Memory} {calls : List Call} :
      Path A { m with counters := m.counters ++ [Counter.fresh] } calls t → Path A m calls t

variable {A B : Set CounterId} {m t u : Memory} {calls more log : List Call} {c d : CounterId}

theorem Path.append (first : Path A m calls t) (second : Path A t more u) :
    Path A m (calls ++ more) u := by
  induction first with
  | done m => exact second
  | call method among bound known _ ih => exact .call method among bound known (ih second)
  | words among bound _ ih => exact .words among bound (ih second)
  | write extended wellFormed others _ ih => exact .write extended wellFormed others (ih second)
  | newCounter _ ih => exact .newCounter (ih second)

theorem Path.mono (path : Path A m calls t) (sub : A ⊆ B) : Path B m calls t := by
  induction path with
  | done m => exact .done m
  | call method among bound known _ ih => exact .call method (sub among) bound known ih
  | words among bound _ ih => exact .words (sub among) bound ih
  | write extended wellFormed others _ ih =>
    exact .write extended wellFormed (fun id d owned out => others id d owned fun h => out (sub h))
      ih
  | newCounter _ ih => exact .newCounter ih

/-! ## Refused calls -/

theorem Method.error_clean {n : Nat} (consistent : (m.counter c).Consistent n) (method : Method)
    {e : Error} (run : (method.call c).apply m = (.error e, t)) : t = m := by
  -- an item of another counter is refused before the counter is asked
  have checked : ∀ (x : Item) (f : Heap → Counter → Counter),
      (mustBelong c x >>= fun _ => updateCounter c f).apply m = (.error e, t) → t = m := by
    intro x f failed
    rw [Action.apply_bind] at failed
    rcases mustBelong_cases m c x with ⟨why, refused⟩ | owned
    · rw [refused] at failed
      exact (Prod.mk.inj failed).2.symm
    · rw [mustBelong_ok owned] at failed
      exact absurd (Prod.mk.inj failed).1 (by simp)
  have refused : ∀ (x : Action Counter Unit),
      ((∃ why, x.apply (m.counter c) = (.error (.invariantViolation why), m.counter c)) ∨
        ∃ d, x.apply (m.counter c) = (.ok (), d)) →
      (onCounter c x).apply m = (.error e, t) → t = m := by
    intro x outcome failed
    rw [onCounter, Action.apply_onPart] at failed
    rcases outcome with ⟨why, same⟩ | ⟨d, done⟩
    · rw [same, setCounter_self] at failed
      exact (Prod.mk.inj failed).2.symm
    · rw [done] at failed
      exact absurd (Prod.mk.inj failed).1 (by simp)
  cases method with
  | addRoots x n =>
    simp only [call, Memory.addRoots] at run
    split at run
    · exact absurd (Prod.mk.inj run).1 (by simp)
    · exact checked x _ run
  | removeRoot x =>
    refine refused _ ?_ run
    cases x with
    | leaf l =>
      rcases consistent.removeRoot_leaf l with same | ⟨d, done, -⟩
      · exact .inl same
      · exact .inr ⟨d, done⟩
    | object kind id =>
      rcases consistent.removeRoot_object kind id with same | ⟨d, done, -⟩
      · exact .inl same
      · exact .inr ⟨d, done⟩
  | addOccurrence x parent => exact checked x _ run
  | removeOccurrence x parent =>
    refine refused _ ?_ run
    rcases consistent.removeOccurrence x parent with same | ⟨d, done, -⟩
    · exact .inl same
    · exact .inr ⟨d, done⟩
  | suspect x => exact checked x _ run
  | collect =>
    obtain ⟨d, collected, swept, -⟩ := consistent.sweep
    rw [call, Action.apply_map, Memory.collect, Action.apply_of, swept] at run
    exact absurd (Prod.mk.inj run).1 (by simp [Except.map])
  | resetPeak => exact absurd (Prod.mk.inj run).1 (by simp)

/-! ## Counters are kept apart -/

/-- Containers hold containers of their own counter only, and counters track only what belongs to
them. -/
structure Apart (m : Memory) : Prop where
  heap : m.heap.WellFormed m.counters.length
  confined : ∀ c, (m.counter c).Confined (m.heap.Belongs c)

theorem Apart.encloses (apart : m.Apart) (c : CounterId) :
    m.heap.Encloses (m.heap.Belongs c) := fun p hp x hx _ hid =>
  (apart.heap.holds p x hx).belongs hp hid

/-- The counter `c` has changed, and objects that belong to it have been emptied. -/
def Affects (c : CounterId) (m t : Memory) : Prop :=
  ∃ (e : Counter) (collected : List ItemId), e.Confined (m.heap.Belongs c) ∧
    (∀ a ∈ collected, a ∈ m.heap.Belongs c) ∧
    t = { m.setCounter c e with heap := collected.foldl Heap.emptyOut m.heap }

theorem affects_setCounter {e : Counter} (confined : e.Confined (m.heap.Belongs c)) :
    m.Affects c (m.setCounter c e) :=
  ⟨e, [], confined, fun _ ha => absurd ha List.not_mem_nil, rfl⟩

theorem affects_onCounter {x : Action Counter Unit}
    (confines : Counter.Confines (m.heap.Belongs c) x (m.counter c)) :
    m.Affects c ((onCounter c x).attempt m) := by
  rcases confines.cases with ⟨e, d, run, confined⟩ | ⟨u, d, run, confined⟩
  · rw [Action.attempt_eq, Memory.onCounter, Action.apply_onPart, run]
    exact affects_setCounter confined
  · rw [Action.attempt_eq, Memory.onCounter, Action.apply_onPart, run]
    exact affects_setCounter confined

section Apart

variable (apart : m.Apart)
include apart

theorem Apart.unchanged (c : CounterId) : m.Affects c m := by
  have same := affects_setCounter (apart.confined c)
  rwa [setCounter_self] at same

theorem Apart.inWords (c : CounterId) : m.Affects c (m.setCounter c (m.counter c).inWords) :=
  affects_setCounter (apart.confined c)

theorem Apart.checked {x : Item} {f : Heap → Counter → Counter}
    (confined : (x.isCompound → m.heap.ownerOf x = some c) →
      (f m.heap (m.counter c)).Confined (m.heap.Belongs c)) :
    m.Affects c ((mustBelong c x >>= fun _ => updateCounter c f).attempt m) := by
  rw [Action.attempt_eq, Action.apply_bind]
  rcases mustBelong_cases m c x with ⟨why, refused⟩ | owned
  · rw [refused]
    exact apart.unchanged c
  · rw [mustBelong_ok owned]
    exact affects_setCounter (confined owned)

theorem Method.affects (method : Method) (known : ∀ x, method.added? = some x → m.heap.Knows x) :
    m.Affects c ((method.call c).attempt m) := by
  have encloses := apart.encloses c
  have confined := apart.confined c
  cases method with
  | addRoots x n =>
    simp only [call, Memory.addRoots]
    split
    · exact apart.unchanged c
    · exact apart.checked fun owned => confined.addRoots encloses
        (fun id hid => (known x rfl).belongs owned hid) n
  | removeRoot x => exact affects_onCounter (Counter.removeRoot_confines confined x)
  | addOccurrence x parent =>
    exact apart.checked fun owned => confined.addOccurrence encloses
      (fun id hid => (known x rfl).belongs owned hid) parent
  | removeOccurrence x parent =>
    exact affects_onCounter (Counter.removeOccurrence_confines confined x parent)
  | suspect x =>
    exact apart.checked fun owned => confined.suspect encloses
      fun id hid => (known x rfl).belongs owned hid
  | collect =>
    have start : Pass.Confined (m.heap.Belongs c) { counter := m.counter c } :=
      ⟨confined, fun a ha => absurd ha List.not_mem_nil⟩
    have ends := Pass.sweep_confines start
    rw [call, Action.attempt_eq, Action.apply_map, Memory.collect, Action.apply_of]
    rcases ends.cases with ⟨e, q, run, inside⟩ | ⟨u, q, run, inside⟩
    · rw [run]
      exact ⟨q.counter, q.collected, inside.counter, inside.collected, rfl⟩
    · rw [run]
      exact ⟨q.counter, q.collected, inside.counter, inside.collected, rfl⟩
  | resetPeak => exact affects_setCounter confined

end Apart

/-! ## What stays the same -/

structure Frames (A : Set CounterId) (m t : Memory) : Prop where
  counters : ∀ d, d ∉ A → t.counter d = m.counter d
  objects : ∀ id d, m.heap.owner id = some d → d ∉ A → t.heap.object? id = m.heap.object? id

theorem Frames.refl (A : Set CounterId) (m : Memory) : m.Frames A m :=
  ⟨fun _ _ => rfl, fun _ _ _ _ => rfl⟩

theorem Frames.trans (first : m.Frames A t) (extended : m.Extends t) (second : t.Frames A u) :
    m.Frames A u := by
  refine ⟨fun d out => (second.counters d out).trans (first.counters d out),
    fun id d owned out => ?_⟩
  have still : t.heap.owner id = some d := by
    rw [extended.heap.owner id (Heap.mem_ids_of_owner owned), owned]
  exact (second.objects id d still out).trans (first.objects id d owned out)

theorem Affects.extends (affects : m.Affects c t) : m.Extends t := by
  obtain ⟨e, collected, -, -, rfl⟩ := affects
  exact ⟨Heap.extends_emptyAll collected m.heap, (length_setCounter m c e).ge⟩

theorem Affects.apart (affects : m.Affects c t) (apart : m.Apart) (bound : c < m.counters.length) :
    t.Apart := by
  have extended := affects.extends
  obtain ⟨e, collected, confined, -, rfl⟩ := affects
  refine ⟨?_, fun d => ?_⟩
  · have wellFormed := apart.heap.emptyAll collected
    rwa [← length_setCounter m c e] at wellFormed
  · refine Counter.Confined.mono ?_ fun a ha => extended.heap.belongs ha
    change ((m.setCounter c e).counter d).Confined (m.heap.Belongs d)
    rw [counter_setCounter bound]
    split
    · subst_vars
      exact confined
    · exact apart.confined d

/-- What belongs to another counter stays: among the collected objects it can only be a buffer,
which stores no items anyway. -/
theorem Affects.object?_eq {id : ItemId} (affects : m.Affects c t) (ne : c ≠ d)
    (belongs : id ∈ m.heap.Belongs d) : t.heap.object? id = m.heap.object? id := by
  obtain ⟨e, collected, -, inside, rfl⟩ := affects
  rw [Heap.object?_emptyAll]
  split
  · rename_i gone
    obtain ⟨data, stored⟩ := Heap.bytes_of_belongs_two ne (inside id gone) belongs
    obtain ⟨o, ho, same⟩ := Option.map_eq_some_iff.1 stored
    rw [ho, Option.map_some, same]
    obtain ⟨storage, owner, readOnly⟩ := o
    obtain rfl := same
    rfl
  · rfl

theorem Affects.frames (affects : m.Affects c t) (bound : c < m.counters.length) (among : c ∈ A) :
    m.Frames A t := by
  refine ⟨fun d out => ?_, fun id d owned out =>
    affects.object?_eq (fun same : c = d => out (same ▸ among)) (.inl owned)⟩
  obtain ⟨e, collected, -, -, rfl⟩ := affects
  exact (counter_setCounter bound d).trans (if_neg fun same : d = c => out (same ▸ among))

theorem Apart.write (apart : m.Apart) {h : Heap} (extended : m.heap.Extends h)
    (wellFormed : h.WellFormed m.counters.length) : Apart { m with heap := h } :=
  ⟨wellFormed, fun c => (apart.confined c).mono fun _ ha => extended.belongs ha⟩

theorem Apart.newCounter (apart : m.Apart) :
    Apart { m with counters := m.counters ++ [Counter.fresh] } := by
  refine ⟨⟨apart.heap.given, apart.heap.holds, fun p d owned => ?_⟩, fun d => ?_⟩
  · rw [List.length_append]
    exact Nat.lt_of_lt_of_le (apart.heap.owners p d owned) (Nat.le_add_right _ _)
  · rw [counter_append]
    exact apart.confined d

/-- A path keeps the counters apart, and stays among the counters that it is about. -/
theorem Path.keeps (path : Path A m calls t) (apart : m.Apart) :
    t.Apart ∧ m.Extends t ∧ m.Frames A t := by
  induction path with
  | done m => exact ⟨apart, .refl m, .refl A m⟩
  | @call m t calls c method among bound known _ ih =>
    have affects : m.Affects c ((method.call c).attempt m) := Method.affects apart method known
    obtain ⟨last, extended, frames⟩ := ih (affects.apart apart bound)
    exact ⟨last, affects.extends.trans extended,
      (affects.frames bound among).trans affects.extends frames⟩
  | @words m t calls c among bound _ ih =>
    have affects := apart.inWords c
    obtain ⟨last, extended, frames⟩ := ih (affects.apart apart bound)
    exact ⟨last, affects.extends.trans extended,
      (affects.frames bound among).trans affects.extends frames⟩
  | @write m t calls h ext wellFormed others _ ih =>
    obtain ⟨last, extended, frames⟩ := ih (apart.write ext wellFormed)
    have first : m.Extends { m with heap := h } := ⟨ext, le_rfl⟩
    have same : m.Frames A { m with heap := h } := ⟨fun _ _ => rfl, others⟩
    exact ⟨last, first.trans extended, same.trans first frames⟩
  | @newCounter m t calls _ ih =>
    obtain ⟨last, extended, frames⟩ := ih apart.newCounter
    have first : m.Extends { m with counters := m.counters ++ [Counter.fresh] } :=
      ⟨.refl _, by rw [List.length_append]; exact Nat.le_add_right _ _⟩
    have same : m.Frames A { m with counters := m.counters ++ [Counter.fresh] } :=
      ⟨fun d _ => counter_append m d, fun _ _ _ _ => rfl⟩
    exact ⟨last, first.trans extended, same.trans first frames⟩

/-! ## Sums that leave the word -/

theorem Method.follows (method : Method) (c d : CounterId) :
    Follows (Steps StaysWrapped d) (method.call c) := by
  have up : Subrelation Counter.Grows StaysWrapped := fun grows => grows.unwrapped
  have down : Subrelation Counter.Sinks StaysWrapped := fun sinks => sinks.unwrapped.1
  cases method with
  | addRoots x n => exact addRoots_follows up d c x n
  | removeRoot x => exact removeRoot_follows down d c x
  | addOccurrence x parent => exact addOccurrence_follows up d c x parent
  | removeOccurrence x parent => exact removeOccurrence_follows down d c x parent
  | suspect x => exact suspect_follows up d c x
  | collect =>
    intro m
    rw [call, Action.apply_map]
    exact collect_follows down d c m
  | resetPeak => exact updateCounter_follows d (fun _ _ => id) c

theorem Path.unwrapped (path : Path A m calls t) (d : CounterId) :
    (t.counter d).Unwrapped → (m.counter d).Unwrapped := by
  induction path with
  | done m => exact id
  | call method _ _ _ _ ih => exact fun exact => method.follows _ d _ (ih exact)
  | words _ _ _ ih =>
    exact fun exact => steps_setCounter StaysWrapped (Counter.swells_inWords _).unwrapped d
      (ih exact)
  | write _ _ _ _ ih => exact ih
  | newCounter _ ih => exact fun exact => counter_append _ d ▸ ih exact

/-! ## Consistent counters -/

theorem sum_callsOf_concat (f : Call → Nat) (d : CounterId) (log : List Call) (call : Call) :
    ((callsOf d (log ++ [call])).map f).sum =
      ((callsOf d log).map f).sum + if call.counter = d then f call else 0 := by
  rw [callsOf, List.filter_append, List.map_append, List.sum_append, ← callsOf]
  by_cases same : call.counter = d <;> simp [same]

theorem leavesAdded_concat (d : CounterId) (log : List Call) (call : Call) :
    leavesAdded d (log ++ [call]) =
      leavesAdded d log + if call.counter = d then call.leavesAdded else 0 :=
  sum_callsOf_concat Call.leavesAdded d log call

theorem leavesRemoved_concat (d : CounterId) (log : List Call) (call : Call) :
    leavesRemoved d (log ++ [call]) =
      leavesRemoved d log + if call.counter = d then call.leavesRemoved else 0 :=
  sum_callsOf_concat Call.leavesRemoved d log call

theorem Spared.of_append (spared : Spared (log ++ more)) : Spared log := fun _ before =>
  spared _ (before.trans (List.prefix_append log more))

theorem Call.leaves_error (c : CounterId) (method : Method) (e : Error) :
    Call.leavesAdded ⟨c, method, .error e⟩ = 0 ∧ Call.leavesRemoved ⟨c, method, .error e⟩ = 0 := by
  constructor
  · rw [Call.leavesAdded]
    split
    · rename_i same
      exact absurd same (by simp)
    · rfl
  · rw [Call.leavesRemoved]
    split
    · rename_i same
      exact absurd same (by simp)
    · rfl

theorem Call.leaves_apart (call : Call) : call.leavesAdded = 0 ∨ call.leavesRemoved = 0 := by
  obtain ⟨c, method, result⟩ := call
  cases method with
  | removeRoot x => exact .inl rfl
  | addRoots | addOccurrence | removeOccurrence | suspect | collect | resetPeak => exact .inr rfl

/-- A call leaves a consistent counter, unless it takes away a root of a leaf that was not there or
a sum leaves the word. -/
theorem Method.consistent {n : Nat} (method : Method) (bound : c < m.counters.length)
    (closed : m.heap.Closed) (known : ∀ x, method.added? = some x → m.heap.Knows x)
    (consistent : (m.counter c).Consistent n) {call : Call}
    (made : call = ⟨c, method, ((method.call c).apply m).1⟩)
    (enough : call.leavesRemoved ≤ n)
    (exact : (((method.call c).attempt m).counter c).Unwrapped) :
    (((method.call c).attempt m).counter c).Consistent
      (n + call.leavesAdded - call.leavesRemoved) := by
  subst made
  have replaced : ∀ {e : Counter} {k : Nat}, e.Consistent k →
      ((m.setCounter c e).counter c).Consistent k := by
    intro e k kept
    rwa [counter_setCounter bound, if_pos rfl]
  rw [Action.attempt_eq] at exact ⊢
  rcases run : (method.call c).apply m with ⟨e | u, t⟩
  · obtain rfl := method.error_clean consistent run
    obtain ⟨none, none'⟩ := Call.leaves_error c method e
    rw [none, none']
    exact consistent
  rw [run] at enough exact
  -- what has succeeded has passed the check of the owner
  have checked : ∀ (x : Item) (f : Heap → Counter → Counter),
      (mustBelong c x >>= fun _ => updateCounter c f).apply m = (.ok (), t) →
      t = m.setCounter c (f m.heap (m.counter c)) ∧
        (f m.heap (m.counter c)).Unwrapped := by
    intro x f done
    rw [Action.apply_bind] at done
    rcases mustBelong_cases m c x with ⟨why, refused⟩ | owned
    · rw [refused] at done
      exact absurd (Prod.mk.inj done).1 (by simp)
    · rw [mustBelong_ok owned] at done
      obtain rfl := (Prod.mk.inj done).2
      refine ⟨rfl, ?_⟩
      have own := counter_setCounter bound (e := f m.heap (m.counter c)) c
      rw [if_pos rfl] at own
      rw [← own]
      exact exact
  cases method with
  | addRoots x k =>
    simp only [call, Memory.addRoots] at run
    by_cases none : k = 0
    · rw [if_pos none] at run
      obtain ⟨-, rfl⟩ := Prod.mk.inj run
      have no_leaf : Call.leavesAdded ⟨c, .addRoots x k, .ok u⟩ = 0 := by
        cases x with
        | leaf l => exact none
        | object kind id => rfl
      rw [no_leaf]
      exact consistent
    · rw [if_neg none] at run
      obtain ⟨rfl, whole⟩ := checked x _ run
      refine replaced ?_
      have grown := consistent.addRoots closed x none whole
      cases x with
      | leaf l => exact grown
      | object kind id => exact grown
  | removeRoot x =>
    simp only [call, Memory.removeRoot, onCounter, Action.apply_onPart] at run
    cases x with
    | leaf l =>
      rcases consistent.removeRoot_leaf l with ⟨why, failed⟩ | ⟨d, done, kept⟩
      · rw [failed] at run
        exact absurd (Prod.mk.inj run).1 (by simp)
      · rw [done] at run
        obtain ⟨-, rfl⟩ := Prod.mk.inj run
        exact replaced (kept enough)
    | object kind id =>
      rcases consistent.removeRoot_object kind id with ⟨why, failed⟩ | ⟨d, done, kept⟩
      · rw [failed] at run
        exact absurd (Prod.mk.inj run).1 (by simp)
      · rw [done] at run
        obtain ⟨-, rfl⟩ := Prod.mk.inj run
        exact replaced kept
  | addOccurrence x parent =>
    obtain ⟨rfl, whole⟩ := checked x _ run
    exact replaced (consistent.addOccurrence closed (fun id hid => (known x rfl).mem_ids hid)
      parent whole)
  | removeOccurrence x parent =>
    simp only [call, Memory.removeOccurrence, onCounter, Action.apply_onPart] at run
    rcases consistent.removeOccurrence x parent with ⟨why, failed⟩ | ⟨d, done, kept⟩
    · rw [failed] at run
      exact absurd (Prod.mk.inj run).1 (by simp)
    · rw [done] at run
      obtain ⟨-, rfl⟩ := Prod.mk.inj run
      exact replaced kept
  | suspect x =>
    obtain ⟨rfl, whole⟩ := checked x _ run
    exact replaced (consistent.suspect closed x whole)
  | collect =>
    obtain ⟨d, collected, swept, kept⟩ := consistent.sweep
    rw [call, Action.apply_map, Memory.collect, Action.apply_of, swept] at run
    obtain ⟨-, rfl⟩ := Prod.mk.inj run
    exact replaced kept
  | resetPeak =>
    obtain ⟨-, rfl⟩ := Prod.mk.inj run
    exact replaced consistent.resetPeak

/-- After a spared log, each counter is consistent with what the log says about leaves, as long as
its sums stay within the word. -/
theorem Path.consistent (path : Path A m calls t) (apart : m.Apart)
    (spared : Spared (log ++ calls)) (exact : (t.counter d).Unwrapped)
    (before : (m.counter d).Consistent (leavesAdded d log - leavesRemoved d log)) :
    (t.counter d).Consistent
      (leavesAdded d (log ++ calls) - leavesRemoved d (log ++ calls)) := by
  induction path generalizing log with
  | done m =>
    rw [List.append_nil]
    exact before
  | @call m t calls c method among bound known rest ih =>
    have affects : m.Affects c ((method.call c).attempt m) := method.affects apart known
    have next : log ++ ⟨c, method, ((method.call c).apply m).1⟩ :: calls =
        (log ++ [⟨c, method, ((method.call c).apply m).1⟩]) ++ calls := by
      rw [List.append_assoc, List.singleton_append]
    rw [next] at spared ⊢
    refine ih (affects.apart apart bound) spared exact ?_
    have done := spared.of_append
    have least := done _ (List.prefix_rfl) d
    have earlier := done.of_append _ (List.prefix_rfl) d
    rw [leavesAdded_concat, leavesRemoved_concat] at least ⊢
    by_cases same : c = d
    · subst same
      rw [if_pos rfl, if_pos rfl] at least ⊢
      have one_way := Call.leaves_apart ⟨c, method, ((method.call c).apply m).1⟩
      have kept := method.consistent bound apart.heap.closed known before rfl (by omega)
        (rest.unwrapped c exact)
      convert kept using 1
      omega
    · have frames := affects.frames bound (Set.mem_singleton c)
      rw [if_neg same, if_neg same, Nat.add_zero, Nat.add_zero,
        frames.counters d fun h => same (Set.mem_singleton_iff.1 h).symm]
      exact before
  | @words m t calls c among bound _ ih =>
    refine ih ((apart.inWords c).apart apart bound) spared exact ?_
    rw [counter_setCounter bound]
    split
    · subst_vars
      exact before.inWords
    · exact before
  | write extended wellFormed others _ ih =>
    exact ih (apart.write extended wellFormed) spared exact before
  | newCounter _ ih =>
    refine ih apart.newCounter spared exact ?_
    rwa [counter_append]

end LiveItems.Memory
