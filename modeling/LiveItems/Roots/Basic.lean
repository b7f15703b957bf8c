import LiveItems.Memory
set_option autoImplicit false

namespace LiveItems

namespace Memory

/-- Takes away one root of each item, of all items even when some cannot be released. -/
def removeRoots (c : CounterId) (xs : List Item) : Action Memory Unit :=
  Action.forAll (removeRoot c) xs

end Memory

def onMemory {ρ α : Type} (x : Action Memory α) : Action (Memory × ρ) α :=
  x.onPart (·.1) fun m s => (m, s.2)

end LiveItems
