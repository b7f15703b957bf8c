import LiveItems.Item.Basic
import LiveItems.Engine.Stage
set_option autoImplicit false

namespace LiveItems

inductive Refusal where
  /-- A root of this type belongs to another counter. -/
  | foreignRoot (type : ItemType)
  /-- A root of this type belongs to no counter. -/
  | unboundRoot (type : ItemType)
  /-- A child of this type does not belong to the counter of its container. -/
  | foreignChild (type : ItemType)
  | readOnly
  | indexOutOfRange (index : Nat)
  | emptyList
  | keyType (type : ItemType)
  | keyTooLong (size : Nat)
  | cloneTooLarge
  | peekOutOfRange (size : Nat)
  | removeOutOfRange (depth size : Nat)
  | insertOutOfRange
  | reverseOutOfRange
  | slotOutOfRange (index size : Nat)
  | noStatics
  | finished (stage : Stage)
  | haltAfterFault
  /-- A name that stands for nothing of the wanted sort. -/
  | unknownName (name : String)
  /-- A refusal of the host, in its own words. -/
  | host (text : String)
  deriving Repr, DecidableEq

inductive Violation where
  | negativeCount
  | rootOfUntracked (id : ItemId)
  | negativeRoots (id : ItemId)
  | valueNotHeld (parent : ItemId)
  | negativeEdge (parent child : ItemId)
  | releaseOfUntracked (id : ItemId)
  | negativeReferences (id : ItemId)
  | freedWhileReferenced (id : ItemId)
  | danglingEdge (parent child : ItemId)
  | popFromEmpty
  /-- A mismatch reported by the host, in its own words. -/
  | host (text : String)
  deriving Repr, DecidableEq

inductive Misconfiguration where
  | zeroLiveItems
  | zeroInterval
  /-- The document is malformed, or gives a limit a value of the wrong type or range. -/
  | unreadable
  /-- A complaint of the host, in its own words. -/
  | host (text : String)
  deriving Repr, DecidableEq

inductive Error where
  | invalidOperation (why : Refusal)
  | limitExceeded (count limit : Nat)
  | invariantViolation (why : Violation)
  | invalidConfiguration (why : Misconfiguration)
  deriving Repr, DecidableEq

def Refusal.message : Refusal → String
  | foreignRoot t => s!"{t.name} is bound to a different ReferenceCounter."
  | unboundRoot t => s!"Can not reference a {t.name} without a ReferenceCounter."
  | foreignChild t => s!"Can not set a {t.name} without a ReferenceCounter."
  | readOnly => "The collection is readonly, can not modify."
  | indexOutOfRange i => s!"Index out of range: {i}"
  | emptyList => "Collection is empty"
  | keyType t => s!"Key of type {t.name} is not allowed in a Map."
  | keyTooLong n => s!"MaxKeySize exceed: {n}"
  | cloneTooLarge => "Beyond clone limits!"
  | peekOutOfRange n => s!"Peek index out of range for stack of size {n}"
  | removeOutOfRange i n => s!"Remove index {i} out of range for stack of size {n}"
  | insertOutOfRange => "Insert index out of range"
  | reverseOutOfRange => "Reverse count out of range"
  | slotOutOfRange i n => s!"Index {i} out of range for slot of size {n}"
  | noStatics => "Static fields are not initialised"
  | finished s => s!"Cannot execute an instruction in state {s.name}"
  | haltAfterFault => "Cannot halt a faulted engine"
  | unknownName n => s!"Unknown name: {n}"
  | host text => text

def Violation.message : Violation → String
  | negativeCount => "live item count would go negative"
  | rootOfUntracked id => s!"stack reference removed from untracked item {id}"
  | negativeRoots id => s!"stack references of item {id} would go negative"
  | valueNotHeld p => s!"container {p} released a value it does not hold"
  | negativeEdge p c => s!"multiplicity of edge {p} -> {c} would go negative"
  | releaseOfUntracked id => s!"reference released from untracked item {id}"
  | negativeReferences id => s!"object references of item {id} would go negative"
  | freedWhileReferenced id => s!"item {id} freed while still referenced"
  | danglingEdge p c => s!"edge {p} -> {c} points to an untracked item"
  | popFromEmpty => "pop from an empty evaluation stack"
  | host text => text

def Misconfiguration.message : Misconfiguration → String
  | zeroLiveItems => "max_live_items must be greater than zero"
  | zeroInterval => "collection_interval must be greater than zero"
  | unreadable => "the limits can not be read"
  | host text => text

namespace Error

def message : Error → String
  | invalidOperation why => s!"Invalid operation: {why.message}"
  | limitExceeded count limit => s!"MaxStackSize exceeded: {count}/{limit}"
  | invariantViolation why => s!"Reference counter invariant violated: {why.message}"
  | invalidConfiguration why => s!"Invalid configuration: {why.message}"

/-- Caused by wrong bookkeeping of the host rather than by the program it runs. -/
def isInvariantViolation : Error → Bool
  | invariantViolation _ => true
  | _ => false

end Error

end LiveItems
