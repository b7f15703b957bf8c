import LiveItems.Container.Basic
set_option autoImplicit false

namespace LiveItems

namespace ListObject

open Memory

def create (owner : Option CounterId) (items : List Item) : Action Memory ItemId := do
  items.forM (mustShareOwner owner)
  newObject { storage := .list items, owner }

def items (id : ItemId) : Action Memory (List Item) := return (← get).heap.listItems id

def push (id : ItemId) (x : Item) : Action Memory Unit := do
  mustAccept id x
  mustBeWritable id
  store id (.list ((← items id) ++ [x]))
  reportAdded id x

/-- Replaces an item. The new one is reported first, so that an item that replaces itself is never
without a reference. -/
def set (id : ItemId) (index : Nat) (x : Item) : Action Memory Unit := do
  mustAccept id x
  mustBeWritable id
  let xs ← items id
  match xs[index]? with
  | none => Action.refuse (.indexOutOfRange index)
  | some old => do
    store id (.list (xs.set index x))
    reportAdded id x
    reportRemoved id old

def insert (id : ItemId) (index : Nat) (x : Item) : Action Memory Unit := do
  mustAccept id x
  mustBeWritable id
  let xs ← items id
  if index > xs.length then
    Action.refuse (.indexOutOfRange index)
  else
    store id (.list (xs.insertIdx index x))
    reportAdded id x

def remove (id : ItemId) (index : Nat) : Action Memory Item := do
  mustBeWritable id
  let xs ← items id
  match xs[index]? with
  | none => Action.refuse (.indexOutOfRange index)
  | some old => do
    store id (.list (xs.eraseIdx index))
    reportRemoved id old
    pure old

def pop (id : ItemId) : Action Memory Item := do
  mustBeWritable id
  let xs ← items id
  match xs.getLast? with
  | none => Action.refuse .emptyList
  | some old => do
    store id (.list xs.dropLast)
    reportRemoved id old
    pure old

def clear (id : ItemId) : Action Memory Unit := do
  mustBeWritable id
  let xs ← items id
  store id (.list [])
  xs.forM (reportRemoved id)

def reverse (id : ItemId) : Action Memory Unit := do
  mustBeWritable id
  store id (.list (← items id).reverse)

end ListObject

end LiveItems
