import LiveItems.Counter.Registration
import LiveItems.Counter.Collection
set_option autoImplicit false

namespace LiveItems

structure Memory where
  heap : Heap := {}
  counters : List Counter := []

namespace Memory

def counter (m : Memory) (c : CounterId) : Counter := m.counters.getD c Counter.fresh

def setCounter (m : Memory) (c : CounterId) (x : Counter) : Memory :=
  { m with counters := m.counters.set c x }

def onCounter {α : Type} (c : CounterId) (x : Action Counter α) : Action Memory α :=
  x.onPart (·.counter c) fun x m => m.setCounter c x

def updateCounter (c : CounterId) (f : Heap → Counter → Counter) : Action Memory Unit :=
  modify fun m => m.setCounter c (f m.heap (m.counter c))

def newCounter : Action Memory CounterId := do
  let m ← get
  set { m with counters := m.counters ++ [Counter.fresh] }
  pure m.counters.length

def newObject (o : Object) : Action Memory ItemId := do
  let m ← get
  let (id, heap) := m.heap.allocate o
  set { m with heap }
  pure id

def store (id : ItemId) (s : Storage) : Action Memory Unit :=
  modify fun m => { m with heap := m.heap.store id s }

def mustBelong (c : CounterId) (x : Item) : Action Memory Unit := do
  if x.isCompound then
    match (← get).heap.ownerOf x with
    | some owner => if owner = c then pure () else Action.refuse (.foreignRoot x.type)
    | none => Action.refuse (.unboundRoot x.type)

def addRoots (c : CounterId) (x : Item) (n : Nat) : Action Memory Unit := do
  if n = 0 then
    pure ()
  else
    mustBelong c x
    updateCounter c fun h => Counter.addRoots h x n

def addRoot (c : CounterId) (x : Item) : Action Memory Unit := addRoots c x 1

/-- `n` more roots of `x` that no stack and no slot stands for. -/
def addLooseRoots (c : CounterId) (x : Item) (n : Nat) : Action Memory Unit := do
  updateCounter c fun _ => Counter.inWords
  addRoots c x n

def removeRoot (c : CounterId) (x : Item) : Action Memory Unit := onCounter c (Counter.removeRoot x)

def addOccurrence (c : CounterId) (child : Item) (parent : ItemId) : Action Memory Unit := do
  mustBelong c child
  updateCounter c fun h => Counter.addOccurrence h child parent

def removeOccurrence (c : CounterId) (child : Item) (parent : ItemId) : Action Memory Unit :=
  onCounter c (Counter.removeOccurrence child parent)

def suspect (c : CounterId) (x : Item) : Action Memory Unit := do
  mustBelong c x
  updateCounter c fun h => Counter.suspect h x

/-- A collection pass, which answers with the number of live items after it. The containers among
the collected objects are emptied. -/
def collect (c : CounterId) : Action Memory Nat := .of fun m =>
  let (r, pass) := Pass.sweep.apply { counter := m.counter c }
  let heap := pass.collected.foldl Heap.emptyOut m.heap
  (r.map fun _ => pass.counter.count, { m.setCounter c pass.counter with heap })

def resetPeak (c : CounterId) : Action Memory Unit := updateCounter c fun _ => Counter.resetPeak

def multiplicity (m : Memory) (c : CounterId) (parent child : Item) : Nat :=
  match parent.id?, child.id? with
  | some p, some k => ((m.counter c).edges p).multiplicity k
  | _, _ => 0

theorem counter_setCounter {m : Memory} {c : CounterId} {e : Counter} (hc : c < m.counters.length)
    (d : CounterId) : (m.setCounter c e).counter d = if d = c then e else m.counter d := by
  rw [counter, setCounter, List.getD_eq_getElem?_getD]
  by_cases same : d = c
  · rw [if_pos same, same, List.getElem?_set_self hc, Option.getD_some]
  · rw [if_neg same, List.getElem?_set_ne (Ne.symm same), counter, List.getD_eq_getElem?_getD]

theorem setCounter_of_le {m : Memory} {c : CounterId} (hc : m.counters.length ≤ c) (e : Counter) :
    m.setCounter c e = m := by
  rw [setCounter, List.set_eq_of_length_le hc]

theorem setCounter_self (m : Memory) (c : CounterId) : m.setCounter c (m.counter c) = m := by
  by_cases bound : c < m.counters.length
  · have own : m.counter c = m.counters[c] := by
      rw [counter, List.getD_eq_getElem?_getD, List.getElem?_eq_getElem bound, Option.getD_some]
    rw [setCounter, own, List.set_getElem_self]
  · exact setCounter_of_le (Nat.not_lt.1 bound) _

/-- A counter that does not exist reads as a fresh one. -/
theorem counter_of_le {m : Memory} {c : CounterId} (hc : m.counters.length ≤ c) :
    m.counter c = Counter.fresh := by
  rw [counter, List.getD_eq_getElem?_getD, List.getElem?_eq_none hc, Option.getD_none]

theorem counter_append (m : Memory) (d : CounterId) :
    ({ m with counters := m.counters ++ [Counter.fresh] } : Memory).counter d = m.counter d := by
  rw [counter, counter, List.getD_eq_getElem?_getD, List.getD_eq_getElem?_getD]
  rcases Nat.lt_trichotomy d m.counters.length with before | rfl | after
  · rw [List.getElem?_append_left before]
  · rw [List.getElem?_append_right (Nat.le_refl _), Nat.sub_self,
      List.getElem?_eq_none (Nat.le_refl _)]
    rfl
  · rw [List.getElem?_eq_none (by rw [List.length_append, List.length_singleton]; omega),
      List.getElem?_eq_none (Nat.le_of_lt after)]

end Memory

end LiveItems
