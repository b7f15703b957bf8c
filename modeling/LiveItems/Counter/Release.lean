import LiveItems.Counter.Basic
set_option autoImplicit false

namespace LiveItems.Counter

/-- Takes `n` references away from each child in the list. The children that nothing holds any more
are put on `unheld`, the latest first. -/
def releaseChildren (parent : ItemId) :
    List (ItemId × Nat) → List ItemId → Action Counter (List ItemId)
  | [], unheld => pure unheld
  | (child, n) :: rest, unheld => do
    match (← get).get? child with
    | none => Action.violate (.danglingEdge parent child)
    | some e =>
      if e.references < n then
        Action.violate (.negativeReferences child)
      else
        let e := { e with references := e.references - n }
        modify (·.setEntry child e)
        if e.roots > 0 then
          releaseChildren parent rest unheld
        else if e.references = 0 then
          releaseChildren parent rest (child :: unheld)
        else
          modify (·.addCandidate child)
          releaseChildren parent rest unheld

def freeOne (id : ItemId) : Action Counter (List ItemId) := do
  match (← get).get? id with
  | none => pure []
  | some e =>
    modify (·.eraseEntry id)
    if !e.isFree then
      Action.violate (.freedWhileReferenced id)
    else
      modify (·.dropCandidate id)
      decrease e.weight
      releaseChildren id e.edges.toList []

/-- Frees the objects in the list, the first one first, with everything that is not held after that.
Objects without an entry have been freed already. -/
def cascade : Nat → List ItemId → Action Counter Unit
  | 0, _ => pure ()
  | fuel + 1, unheld => do
    let c ← get
    match unheld.dropWhile fun id => !c.isTracked id with
    | [] => pure ()
    | id :: rest => do
      let more ← freeOne id
      cascade fuel (more ++ rest)

def free (id : ItemId) : Action Counter Unit := do
  cascade (← get).tracked.size [id]

def release (id : ItemId) (n : Nat) : Action Counter Unit := do
  match (← get).get? id with
  | none => Action.violate (.releaseOfUntracked id)
  | some e =>
    if e.references < n then
      Action.violate (.negativeReferences id)
    else
      let e := { e with references := e.references - n }
      modify (·.setEntry id e)
      if e.roots > 0 then
        pure ()
      else if e.references = 0 then
        free id
      else
        modify (·.addCandidate id)

def removeRoot (x : Item) : Action Counter Unit := do
  match x.id? with
  | none => decrease 1
  | some id =>
    match (← get).get? id with
    | none => Action.violate (.rootOfUntracked id)
    | some e =>
      if e.roots = 0 then
        Action.violate (.negativeRoots id)
      else
        let e := { e with roots := e.roots - 1 }
        modify (·.setEntry id e)
        if e.roots > 0 then
          pure ()
        else if e.references = 0 then
          free id
        else
          modify (·.addCandidate id)

def removeOccurrence (child : Item) (parent : ItemId) : Action Counter Unit := do
  match (← get).get? parent with
  | none => pure ()
  | some e =>
    match child.id? with
    | none =>
      if e.leaves = 0 then
        Action.violate (.valueNotHeld parent)
      else
        modify (·.setEntry parent { e with leaves := e.leaves - 1 })
        decrease 1
    | some id =>
      if e.edges.multiplicity id = 0 then
        Action.violate (.negativeEdge parent id)
      else
        modify (·.setEntry parent { e with edges := e.edges.remove id })
        release id 1

end LiveItems.Counter
