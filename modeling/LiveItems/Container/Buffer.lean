import LiveItems.Memory
set_option autoImplicit false

namespace LiveItems

namespace BufferObject

open Memory

def create (bytes : List UInt8) : Action Memory ItemId := newObject { storage := .bytes bytes }

def set (id : ItemId) (index : Nat) (b : UInt8) : Action Memory Unit := do
  let bytes := (← get).heap.bytes id
  if index < bytes.length then
    store id (.bytes (bytes.set index b))
  else
    Action.refuse (.indexOutOfRange index)

end BufferObject

end LiveItems
