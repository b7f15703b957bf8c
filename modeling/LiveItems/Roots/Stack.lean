import LiveItems.Roots.Basic
set_option autoImplicit false

namespace LiveItems

/-- The items of a stack, the top first, and the counter that its roots belong to. -/
structure Stack where
  counter : CounterId
  items : List Item := []
  deriving Inhabited

namespace Stack

def bottomUp (s : Stack) : List Item := s.items.reverse

def setItems (xs : List Item) : Action (Memory × Stack) Unit :=
  modify fun (m, s) => (m, { s with items := xs })

/-- The item at a depth; a negative depth counts from the bottom. -/
def peek (s : Stack) (depth : Int) : Except Error Item :=
  let size := s.items.length
  let depth := if depth < 0 then depth + size else depth
  match if depth < 0 then none else s.items[depth.toNat]? with
  | some x => .ok x
  | none => .error (.invalidOperation (.peekOutOfRange size))

def push (x : Item) : Action (Memory × Stack) Unit := do
  let (_, s) ← get
  onMemory (Memory.addRoot s.counter x)
  setItems (x :: s.items)

def pop : Action (Memory × Stack) Item := do
  let (_, s) ← get
  match s.items with
  | [] => Action.violate .popFromEmpty
  | x :: xs => do
    setItems xs
    onMemory (Memory.removeRoot s.counter x)
    pure x

def remove (depth : Nat) : Action (Memory × Stack) Item := do
  let (_, s) ← get
  match s.items[depth]? with
  | none => Action.refuse (.removeOutOfRange depth s.items.length)
  | some x => do
    setItems (s.items.eraseIdx depth)
    onMemory (Memory.removeRoot s.counter x)
    pure x

def insert (depth : Nat) (x : Item) : Action (Memory × Stack) Unit := do
  let (_, s) ← get
  if depth > s.items.length then
    Action.refuse .insertOutOfRange
  else
    onMemory (Memory.addRoot s.counter x)
    setItems (s.items.insertIdx depth x)

def reverse (n : Nat) : Action (Memory × Stack) Unit := do
  let (_, s) ← get
  if n > s.items.length then
    Action.refuse .reverseOutOfRange
  else
    setItems ((s.items.take n).reverse ++ s.items.drop n)

def clear : Action (Memory × Stack) Unit := do
  let (_, s) ← get
  setItems []
  onMemory (Memory.removeRoots s.counter s.bottomUp)

def drop (s : Stack) (m : Memory) : Memory := (clear.attempt (m, s)).1

end Stack

end LiveItems
