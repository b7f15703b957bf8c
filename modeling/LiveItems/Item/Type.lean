set_option autoImplicit false

namespace LiveItems

inductive ItemType where
  | any
  | pointer
  | boolean
  | integer
  | byteString
  | buffer
  | array
  | struct
  | map
  | interopInterface
  deriving Repr, DecidableEq

namespace ItemType

def all : List ItemType :=
  [any, pointer, boolean, integer, byteString, buffer, array, struct, map, interopInterface]

def byte : ItemType → UInt8
  | any => 0x00
  | pointer => 0x10
  | boolean => 0x20
  | integer => 0x21
  | byteString => 0x28
  | buffer => 0x30
  | array => 0x40
  | struct => 0x41
  | map => 0x48
  | interopInterface => 0x60

def ofByte? (b : UInt8) : Option ItemType := all.find? (·.byte = b)

def name : ItemType → String
  | any => "Any"
  | pointer => "Pointer"
  | boolean => "Boolean"
  | integer => "Integer"
  | byteString => "ByteString"
  | buffer => "Buffer"
  | array => "Array"
  | struct => "Struct"
  | map => "Map"
  | interopInterface => "InteropInterface"

def isCompound : ItemType → Bool
  | array | struct | map => true
  | _ => false

def isPrimitive : ItemType → Bool
  | boolean | integer | byteString => true
  | _ => false

theorem mem_all (t : ItemType) : t ∈ all := by cases t <;> decide

theorem byte_injective {s t : ItemType} (h : s.byte = t.byte) : s = t := by
  revert h; cases s <;> cases t <;> decide

theorem ofByte?_byte (t : ItemType) : ofByte? t.byte = some t := by cases t <;> rfl

end ItemType

end LiveItems
