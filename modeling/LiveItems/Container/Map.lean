import LiveItems.Container.Basic
import LiveItems.Item.Key
set_option autoImplicit false

namespace LiveItems

namespace MapObject

open Memory

def create (owner : Option CounterId) : Action Memory ItemId :=
  newObject { storage := .map {}, owner }

def entries (id : ItemId) : Action Memory (OrderedMap Item Item) :=
  return (← get).heap.mapEntries id

def mustBeKey (k : Item) : Action Memory Unit :=
  if !k.type.isPrimitive then
    Action.refuse (.keyType k.type)
  else if k.keySize > maxKeySize then
    Action.refuse (.keyTooLong k.keySize)
  else
    pure ()

def get? (id : ItemId) (k : Item) : Action Memory (Option Item) := do
  mustBeKey k
  return (← entries id).get? k

def contains (id : ItemId) (k : Item) : Action Memory Bool := do
  mustBeKey k
  return (← entries id).contains k

def set (id : ItemId) (k v : Item) : Action Memory (Option Item) := do
  mustBeKey k
  mustAccept id v
  mustBeWritable id
  let es ← entries id
  let old? := es.get? k
  store id (.map (es.insert k v))
  if old?.isNone then
    reportAdded id k
  reportAdded id v
  match old? with
  | some old => reportRemoved id old
  | none => pure ()
  pure old?

def remove (id : ItemId) (k : Item) : Action Memory (Option Item) := do
  mustBeKey k
  mustBeWritable id
  let es ← entries id
  match es.get? k with
  | none => pure none
  | some old => do
    store id (.map (es.erase k))
    reportRemoved id k
    reportRemoved id old
    pure (some old)

def clear (id : ItemId) : Action Memory Unit := do
  mustBeWritable id
  let es ← entries id
  store id (.map {})
  (Storage.map es).children.forM (reportRemoved id)

end MapObject

end LiveItems
