import LiveItems.Container.List
set_option autoImplicit false

namespace LiveItems

namespace ListObject

/-- Writes copies of the items into the list `target`. `room` is the number of items that may still
be written; the structs to copy go to the end of the queue, as pairs of copy and source. -/
def copyItems (owner : Option CounterId) (target : ItemId) :
    List Item → Nat → List (ItemId × ItemId) → Action Memory (Nat × List (ItemId × ItemId))
  | [], room, queue => pure (room, queue)
  | _ :: _, 0, _ => Action.refuse .cloneTooLarge
  | .object .struct source :: xs, room + 1, queue => do
    let copy ← create owner []
    push target (.object .struct copy)
    copyItems owner target xs room (queue ++ [(copy, source)])
  | x :: xs, room + 1, queue => do
    push target x
    copyItems owner target xs room queue

def copyQueue (owner : Option CounterId) :
    Nat → Nat → List (ItemId × ItemId) → Action Memory Unit
  | 0, _, _ => pure ()
  | _ + 1, _, [] => pure ()
  | fuel + 1, room, (target, source) :: queue => do
    let (room, queue) ← copyItems owner target (← items source) room queue
    copyQueue owner fuel room queue

/-- A copy of a struct, which belongs to the same counter. The copy itself and the items written
are at most `limit`; every struct in the queue but the first is one of those items, so `limit`
bounds their number. -/
def copyStruct (id : ItemId) (limit : Nat) : Action Memory ItemId := do
  let owner := (← get).heap.owner id
  let copy ← create owner []
  copyQueue owner (limit - 1 + 1) (limit - 1) [(copy, id)]
  pure copy

end ListObject

end LiveItems
