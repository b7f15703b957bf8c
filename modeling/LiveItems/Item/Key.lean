import LiveItems.Item.Basic
set_option autoImplicit false

namespace LiveItems

def bitLength (n : Nat) : Nat := if n = 0 then 0 else n.log2 + 1

/-- The number of bytes of the shortest two's complement form: one bit is for the sign, and a
negative number `-(m + 1)` has the bits of `m` inverted. -/
def signedByteLength : Int → Nat
  | .ofNat n => bitLength n / 8 + 1
  | .negSucc m => bitLength m / 8 + 1

def Item.keySize : Item → Nat
  | .leaf (.boolean _) => 1
  | .leaf (.integer n) => signedByteLength n
  | .leaf (.byteString bytes) => bytes.length
  | _ => 0

def maxKeySize : Nat := 64

end LiveItems
