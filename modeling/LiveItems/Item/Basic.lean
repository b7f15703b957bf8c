import LiveItems.Item.Type
set_option autoImplicit false

namespace LiveItems

abbrev ItemId := Nat

/-- An opaque service of the host. Every handle is one service, whatever its interface. -/
structure Interop where
  handle : Nat
  interface : String
  deriving Repr, DecidableEq

inductive Leaf where
  | null
  | boolean (value : Bool)
  | integer (value : Int)
  | byteString (bytes : List UInt8)
  | pointer (position : Nat)
  | interop (service : Interop)
  deriving Repr, DecidableEq

inductive ObjectKind where
  | array
  | struct
  | map
  | buffer
  deriving Repr, DecidableEq

inductive Item where
  | leaf (value : Leaf)
  | object (kind : ObjectKind) (id : ItemId)
  deriving Repr, DecidableEq

namespace Leaf

def type : Leaf → ItemType
  | null => .any
  | boolean _ => .boolean
  | integer _ => .integer
  | byteString _ => .byteString
  | pointer _ => .pointer
  | interop _ => .interopInterface

/-- Null, false, zero and byte strings of zeros are false; every other leaf is true. -/
def truth : Leaf → Bool
  | null => false
  | boolean b => b
  | integer n => n != 0
  | byteString bytes => bytes.any (· != 0)
  | _ => true

end Leaf

def ObjectKind.type : ObjectKind → ItemType
  | array => .array
  | struct => .struct
  | map => .map
  | buffer => .buffer

namespace Item

def null : Item := .leaf .null

def type : Item → ItemType
  | leaf l => l.type
  | object k _ => k.type

def isCompound (x : Item) : Bool := x.type.isCompound

def id? : Item → Option ItemId
  | leaf _ => none
  | object _ id => some id

/-- Every object is true. -/
def truth : Item → Bool
  | leaf l => l.truth
  | object _ _ => true

def integer? : Item → Option Int
  | leaf (.integer n) => some n
  | _ => none

def word? (x : Item) : Option Int :=
  x.integer?.filter fun n => -Int.pow 2 63 ≤ n ∧ n < Int.pow 2 63

def distinct (xs : List Item) : Nat := xs.eraseDups.length

end Item

end LiveItems
