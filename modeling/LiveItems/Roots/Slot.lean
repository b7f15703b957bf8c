import LiveItems.Roots.Basic
set_option autoImplicit false

namespace LiveItems

structure Slot where
  counter : CounterId
  items : List Item := []
  deriving Inhabited

namespace Slot

/-- Adds a root for each item. When one fails, the roots added before it, given latest first in
`done`, are taken away again. -/
def addRoots (c : CounterId) (done : List Item) : List Item → Action Memory Unit
  | [] => pure ()
  | x :: xs => .of fun m =>
    match (Memory.addRoot c x).apply m with
    | (.ok (), m) => (addRoots c (x :: done) xs).apply m
    | (.error e, m) => (.error e, (Memory.removeRoots c done.reverse).attempt m)

def create (c : CounterId) (items : List Item) : Action Memory Slot := do
  addRoots c [] items
  pure { counter := c, items }

def createNulls (c : CounterId) (n : Nat) : Action Memory Slot :=
  create c (List.replicate n .null)

def get? (s : Slot) (index : Nat) : Except Error Item :=
  match s.items[index]? with
  | some x => .ok x
  | none => .error (.invalidOperation (.slotOutOfRange index s.items.length))

/-- Replaces an item. The new one gets its root first, so that an item that replaces itself always
has one. -/
def set (index : Nat) (x : Item) : Action (Memory × Slot) Unit := do
  let (_, s) ← get
  let old ← s.get? index
  onMemory (Memory.addRoot s.counter x)
  modify fun (m, s) => (m, { s with items := s.items.set index x })
  onMemory (Memory.removeRoot s.counter old)

/-- Takes out all items, the first one first. -/
def clear : Action (Memory × Slot) Unit := do
  let (_, s) ← get
  modify fun (m, s) => (m, { s with items := [] })
  onMemory (Memory.removeRoots s.counter s.items)

def drop (s : Slot) (m : Memory) : Memory := (clear.attempt (m, s)).1

end Slot

end LiveItems
