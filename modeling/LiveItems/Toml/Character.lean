set_option autoImplicit false

namespace LiveItems.Toml

abbrev Reader (α : Type) := List Char → Option (α × List Char)

def isBlank (c : Char) : Bool := c == ' ' || c == '\t'

/-- A character of a comment: a tab, or anything but a control character. -/
def isText (c : Char) : Bool := c == '\t' || (0x20 ≤ c.val && c.val != 0x7F)

def isBareKey (c : Char) : Bool := c.isAlphanum || c == '_' || c == '-'

def isToken (c : Char) : Bool :=
  c.isAlphanum || c == '_' || c == '-' || c == '+' || c == '.' || c == ':'

def hexDigit? (c : Char) : Option Nat :=
  if '0' ≤ c ∧ c ≤ '9' then some (c.toNat - '0'.toNat)
  else if 'a' ≤ c ∧ c ≤ 'f' then some (c.toNat - 'a'.toNat + 10)
  else if 'A' ≤ c ∧ c ≤ 'F' then some (c.toNat - 'A'.toNat + 10)
  else none

def digitValue (c : Char) : Nat := (hexDigit? c).getD 0

/-- The number that digits write, the most significant first. -/
def ofDigits (base : Nat) (ds : List Char) : Nat :=
  ds.foldl (fun n c => n * base + digitValue c) 0

def afterNewline? : List Char → Option (List Char)
  | '\n' :: rest => some rest
  | '\r' :: '\n' :: rest => some rest
  | _ => none

/-- What follows blanks, at most one comment, and the end of a line or of the text. -/
def afterLine? (cs : List Char) : Option (List Char) :=
  let cs := cs.dropWhile isBlank
  let cs := match cs with
    | '#' :: rest => rest.dropWhile isText
    | _ => cs
  match cs with
  | [] => some []
  | _ => afterNewline? cs

def afterVoid : (inComment : Bool) → List Char → List Char
  | _, [] => []
  | _, '\n' :: rest => afterVoid false rest
  | _, '\r' :: '\n' :: rest => afterVoid false rest
  | false, c :: rest =>
    if isBlank c then afterVoid false rest
    else if c = '#' then afterVoid true rest
    else c :: rest
  | true, c :: rest => if isText c then afterVoid true rest else c :: rest

end LiveItems.Toml
