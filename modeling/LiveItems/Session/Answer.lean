import LiveItems.Engine.Basic
set_option autoImplicit false

namespace LiveItems

structure Description where
  item : Item
  owner : Option CounterId
  childCount : Nat
  children : List Item
  deriving Repr, DecidableEq

def Memory.describe (m : Memory) (x : Item) : Description where
  item := x
  owner := m.heap.ownerOf x
  childCount := m.heap.childCountOf x
  children := m.heap.childrenOf x

/-- The visible state of an engine, with the items of its stack from the bottom to the top. -/
structure EngineView where
  stage : Stage
  executed : Nat
  fault : Option Error
  live : Nat
  limits : Limits
  stack : List Item
  statics : Option (List Item)
  counter : CounterId
  deriving Repr, DecidableEq

def Machine.view (s : Machine) : EngineView where
  stage := s.engine.stage
  executed := s.engine.executed
  fault := s.engine.fault
  live := s.counter.count
  limits := s.engine.limits
  stack := s.engine.stack.bottomUp
  statics := s.engine.statics.map (·.items)
  counter := s.engine.counter

structure Reading where
  count : Nat
  peak : Nat
  tracked : Nat
  candidates : Nat
  stats : PassStats
  deriving Repr, DecidableEq

def Counter.reading (c : Counter) : Reading where
  count := c.count
  peak := c.peak
  tracked := c.tracked.size
  candidates := c.candidates.size
  stats := c.stats

structure References where
  roots : Nat
  references : Nat
  isTracked : Bool
  deriving Repr, DecidableEq

def Counter.referencesTo (c : Counter) (x : Item) : References :=
  match x.id? with
  | none => ⟨0, 0, false⟩
  | some id => ⟨c.rootCount id, c.referenceCount id, c.isTracked id⟩

inductive Answer where
  | done
  | item (x : Item)
  | option (x : Option Item)
  | items (xs : List Item)
  | flag (b : Bool)
  | number (n : Nat)
  /-- The number of elements of something. -/
  | size (n : Nat)
  | byte (b : Option UInt8)
  | bytes (data : List UInt8)
  | references (r : References)
  | description (d : Description)
  | engine (v : EngineView)
  deriving Repr, DecidableEq

def Answer.item? : Answer → Option Item
  | item x => some x
  | option x => x
  | _ => none

inductive Report where
  | command (result : Except Error Answer) (readings : List Reading)
  /-- An instruction, with the reports on the steps of its body that were run. -/
  | instruction (result : Except Error Unit) (readings : List Reading) (body : List Report)
  /-- A loop, with the number of completed rounds. -/
  | loop (result : Except Error Unit) (readings : List Reading) (rounds : Nat)

def Report.outcome : Report → Except Error Unit
  | command result _ => result.map fun _ => ()
  | instruction result _ _ => result
  | loop result _ _ => result

end LiveItems
