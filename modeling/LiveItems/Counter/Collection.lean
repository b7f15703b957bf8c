import LiveItems.Counter.Release
import LiveItems.Graph.Components
set_option autoImplicit false

namespace LiveItems

/-- A pass under way: the counter, and the objects freed as members of a garbage component. -/
structure Pass where
  counter : Counter
  collected : List ItemId := []

namespace Counter

def successors (c : Counter) (id : ItemId) : List ItemId := (c.edges id).keys

def edgeCount (c : Counter) : Nat := c.tracked.foldl (fun n _ e => n + e.edges.size) 0

/-- For each of the objects, the references to it that come from these objects. -/
def internalReferences (c : Counter) (ids : List ItemId) : Std.ExtTreeMap ItemId Nat :=
  let zeros : Std.ExtTreeMap ItemId Nat := ids.foldl (fun refs id => refs.insert id 0) {}
  ids.foldl
    (fun refs id => (c.edges id).toList.foldl
      (fun refs (child, n) => refs.modify child (· + n)) refs)
    zeros

def isUnreachable (c : Counter) (ids : List ItemId) : Bool :=
  let internal := c.internalReferences ids
  ids.all fun id =>
    match c.get? id with
    | none => false
    | some e => e.roots == 0 && e.references == internal.getD id 0

/-- The components that can be reached from the candidates, in the order in which the search
completes them, and what the search has visited. -/
def candidateComponents (c : Counter) : List (List ItemId) × Graph.Search ItemId :=
  Graph.Search.components {} c.successors (c.tracked.size + 2 * c.edgeCount + 1)
    (c.candidates.keys.filter c.isTracked)

end Counter

namespace Pass

def onCounter {α : Type} (x : Action Counter α) : Action Pass α :=
  x.onPart (·.counter) fun c p => { p with counter := c }

def releaseOutside (members : Std.ExtTreeMap ItemId Unit) : List (ItemId × Nat) → Action Pass Unit
  | [] => pure ()
  | (child, n) :: rest => do
    if !members.contains child then
      onCounter (Counter.release child n)
    releaseOutside members rest

def freeComponent (ids : List ItemId) : Action Pass Unit := do
  let c := (← get).counter
  let members : Std.ExtTreeMap ItemId Unit := ids.foldl (fun s id => s.insert id ()) {}
  let entries := ids.filterMap c.get?
  modify fun p =>
    { p with counter := ids.foldl (fun c id => (c.eraseEntry id).dropCandidate id) p.counter }
  onCounter (Counter.decrease (entries.foldl (fun n e => n + e.weight) 0))
  modify fun p => { p with collected := ids ++ p.collected }
  entries.forM fun e => releaseOutside members e.edges.toList

def judge : List (List ItemId) → Action Pass Unit
  | [] => pure ()
  | ids :: rest => do
    if (← get).counter.isUnreachable ids then
      freeComponent ids
    judge rest

/-- A collection pass. Without candidates there is nothing to do. Afterwards the candidates are
those that came up during the pass without having been judged. -/
def sweep : Action Pass Unit := do
  let c := (← get).counter
  if c.candidates.isEmpty then
    pure ()
  else
    let (components, search) := c.candidateComponents
    modify fun p => { p with counter := { p.counter with candidates := {} } }
    judge components.reverse
    modify fun p =>
      { p with
        counter :=
          { p.counter with
            candidates := p.counter.candidates.filterKeys fun id => !search.marks.contains id
            stats :=
              { passes := p.counter.stats.passes + 1
                components := p.counter.stats.components + components.length
                collected := p.counter.stats.collected + p.collected.length } } }

end Pass

end LiveItems
