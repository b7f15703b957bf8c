import LiveItems.Engine.Basic
set_option autoImplicit false

/-!
# Commands

The commands that a host gives to a session: every operation of the library on items that have
names, and the two ways to put commands together, an instruction of the engine and a loop. A step
is a command with what becomes of its answer: it may get a name, and in a body it may be allowed
to fail.
-/

namespace LiveItems

inductive Operand where
  | leaf (value : Leaf)
  | named (name : String)
  /-- The number of the round of the innermost loop, counted from zero. -/
  | round
  deriving Repr, DecidableEq

inductive ObjectRef where
  | operand (x : Operand)
  /-- The `n`-th object created, counted from one. -/
  | ordinal (n : Nat)
  deriving Repr, DecidableEq

inductive ListKind where
  | array
  | struct
  deriving Repr, DecidableEq

def ListKind.object : ListKind → ObjectKind
  | array => .array
  | struct => .struct

inductive Creation where
  | list (kind : ListKind) (items : List Operand) (owner : Option CounterId)
  | map (owner : Option CounterId)
  | buffer (bytes : List UInt8)
  | interop (interface : String)
  | alias (x : Operand)
  /-- A copy of a named struct under the given limits. -/
  | copy (source : String) (limits : Limits)
  deriving Repr, DecidableEq

inductive ListCommand where
  | push (x : Operand)
  | set (index : Nat) (x : Operand)
  | insert (index : Nat) (x : Operand)
  | remove (index : Nat)
  | pop
  | clear
  | reverse
  | get (index : Nat)
  | size
  | items
  | setReadOnly (value : Bool)
  | isReadOnly
  deriving Repr, DecidableEq

inductive MapCommand where
  | set (key value : Operand)
  | get (key : Operand)
  | remove (key : Operand)
  | contains (key : Operand)
  | clear
  | keys
  | values
  | size
  | setReadOnly (value : Bool)
  | isReadOnly
  deriving Repr, DecidableEq

inductive BufferCommand where
  | get (index : Nat)
  | set (index : Nat) (value : UInt8)
  | bytes
  | size
  deriving Repr, DecidableEq

inductive CounterCommand where
  | addRoots (x : Operand) (n : Nat)
  | removeRoot (x : Operand)
  | addOccurrence (x : Operand) (parent : ObjectRef)
  | removeOccurrence (x : Operand) (parent : ObjectRef)
  | suspect (x : Operand)
  | collect
  | resetPeak
  | references (x : Operand)
  | multiplicity (parent x : Operand)
  | isSame (other : CounterId)
  deriving Repr, DecidableEq

inductive StackCommand where
  | push (x : Operand)
  | pop
  | peek (depth : Int)
  | remove (depth : Nat)
  | insert (depth : Nat) (x : Operand)
  | reverse (n : Nat)
  | clear
  | size
  | items
  | counter
  deriving Repr, DecidableEq

inductive SlotCommand where
  | get (index : Nat)
  | set (index : Nat) (x : Operand)
  | clear
  | size
  | items
  deriving Repr, DecidableEq

inductive EngineCommand where
  | push (x : Operand)
  | pop
  | peek (depth : Int)
  | initStatics (n : Nat)
  | loadStatic (index : Nat)
  | storeStatic (index : Nat)
  | collect
  | checkLimit
  | halt
  | describe
  deriving Repr, DecidableEq

inductive Command where
  | create (name : String) (what : Creation)
  | forget (name : String)
  | describe (x : Operand)
  | equal (a b : Operand)
  | distinct (items : List Operand)
  | onList (target : String) (command : ListCommand)
  | onMap (target : String) (command : MapCommand)
  | onBuffer (target : String) (command : BufferCommand)
  | newCounter
  | onCounter (c : CounterId) (command : CounterCommand)
  | newStack (name : String) (c : CounterId)
  | dropStack (name : String)
  /-- On a named stack, or on that of the engine. -/
  | onStack (target : Option String) (command : StackCommand)
  | newSlot (name : String) (items : List Operand) (c : CounterId)
  | newNullSlot (name : String) (n : Nat) (c : CounterId)
  | dropSlot (name : String)
  | onSlot (target : String) (command : SlotCommand)
  | onEngine (command : EngineCommand)
  deriving Repr, DecidableEq

/-- A step of a session. A step that is `caught` does not end the body it stands in. -/
inductive Step where
  | perform (command : Command) (saveAs : Option String) (caught : Bool)
  | instruction (body : List Step) (caught : Bool)
  | loop (times : Nat) (body : List Step) (caught : Bool)
  deriving Repr

def Step.isCaught : Step → Bool
  | perform _ _ caught => caught
  | instruction _ caught => caught
  | loop _ _ caught => caught

end LiveItems
