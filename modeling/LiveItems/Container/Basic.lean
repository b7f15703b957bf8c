import LiveItems.Memory
set_option autoImplicit false

namespace LiveItems

namespace Memory

def mustShareOwner (owner : Option CounterId) (x : Item) : Action Memory Unit := do
  match owner with
  | none => pure ()
  | some c =>
    if x.isCompound ∧ (← get).heap.ownerOf x ≠ some c then
      Action.refuse (.foreignChild x.type)

def mustAccept (id : ItemId) (x : Item) : Action Memory Unit := do
  mustShareOwner ((← get).heap.owner id) x

def mustBeWritable (id : ItemId) : Action Memory Unit := do
  if (← get).heap.isReadOnly id then
    Action.refuse .readOnly

def setReadOnly (id : ItemId) (value : Bool) : Action Memory Unit :=
  modify fun m => { m with heap := m.heap.modify id ({ · with readOnly := value }) }

def reportAdded (id : ItemId) (x : Item) : Action Memory Unit := do
  match (← get).heap.owner id with
  | some c => addOccurrence c x id
  | none => pure ()

def reportRemoved (id : ItemId) (x : Item) : Action Memory Unit := do
  match (← get).heap.owner id with
  | some c => removeOccurrence c x id
  | none => pure ()

end Memory

end LiveItems
