import LiveItems.Toml.Character
set_option autoImplicit false

namespace LiveItems.Toml

def escapedCode? (ds : List Char) : Option Char := do
  let n := ofDigits 16 ds
  if ds.all (fun c => (hexDigit? c).isSome) ∧ n.isValidChar then some (Char.ofNat n) else none

def escapedLetter? : Char → Option Char
  | 'b' => some '\x08'
  | 't' => some '\t'
  | 'n' => some '\n'
  | 'f' => some '\x0c'
  | 'r' => some '\r'
  | '"' => some '"'
  | '\\' => some '\\'
  | _ => none

def consChar (c : Char) : Option (List Char × List Char) → Option (List Char × List Char) :=
  Option.map fun (text, rest) => (c :: text, rest)

def readBasic : Reader (List Char)
  | [] => none
  | '"' :: rest => some ([], rest)
  | '\\' :: 'u' :: a :: b :: c :: d :: rest => do
    consChar (← escapedCode? [a, b, c, d]) (readBasic rest)
  | '\\' :: 'U' :: a :: b :: c :: d :: e :: f :: g :: h :: rest => do
    consChar (← escapedCode? [a, b, c, d, e, f, g, h]) (readBasic rest)
  | '\\' :: c :: rest => do consChar (← escapedLetter? c) (readBasic rest)
  | c :: rest => if isText c then consChar c (readBasic rest) else none

def readLiteral : Reader (List Char)
  | [] => none
  | '\'' :: rest => some ([], rest)
  | c :: rest => if isText c then consChar c (readLiteral rest) else none

/-- A backslash at the end of a line, which hides everything up to the next visible character. -/
def hidesNewline (rest : List Char) : Bool := (afterNewline? (rest.dropWhile isBlank)).isSome

/-- Reads the rest of a string in three double quotes. Up to two quotes may stand before the closing
ones. While `skipping`, blanks and line breaks are left out. -/
def readBasicLines : (skipping : Bool) → Reader (List Char)
  | _, [] => none
  | true, '\n' :: rest => readBasicLines true rest
  | true, '\r' :: '\n' :: rest => readBasicLines true rest
  | true, ' ' :: rest => readBasicLines true rest
  | true, '\t' :: rest => readBasicLines true rest
  | _, '"' :: '"' :: '"' :: '"' :: '"' :: rest => some (['"', '"'], rest)
  | _, '"' :: '"' :: '"' :: '"' :: rest => some (['"'], rest)
  | _, '"' :: '"' :: '"' :: rest => some ([], rest)
  | _, '\n' :: rest => consChar '\n' (readBasicLines false rest)
  | _, '\r' :: '\n' :: rest => consChar '\n' (readBasicLines false rest)
  | _, '\\' :: 'u' :: a :: b :: c :: d :: rest => do
    consChar (← escapedCode? [a, b, c, d]) (readBasicLines false rest)
  | _, '\\' :: 'U' :: a :: b :: c :: d :: e :: f :: g :: h :: rest => do
    consChar (← escapedCode? [a, b, c, d, e, f, g, h]) (readBasicLines false rest)
  | _, '\\' :: c :: rest =>
    if hidesNewline (c :: rest) then readBasicLines true (c :: rest)
    else do consChar (← escapedLetter? c) (readBasicLines false rest)
  | _, c :: rest => if isText c then consChar c (readBasicLines false rest) else none

def readLiteralLines : Reader (List Char)
  | [] => none
  | '\'' :: '\'' :: '\'' :: '\'' :: '\'' :: rest => some (['\'', '\''], rest)
  | '\'' :: '\'' :: '\'' :: '\'' :: rest => some (['\''], rest)
  | '\'' :: '\'' :: '\'' :: rest => some ([], rest)
  | '\n' :: rest => consChar '\n' (readLiteralLines rest)
  | '\r' :: '\n' :: rest => consChar '\n' (readLiteralLines rest)
  | c :: rest => if isText c then consChar c (readLiteralLines rest) else none

/-- A line break right after the opening quotes is no part of the text. -/
def afterOpening (cs : List Char) : List Char := (afterNewline? cs).getD cs

def readText : Reader (List Char)
  | '"' :: '"' :: '"' :: rest => readBasicLines false (afterOpening rest)
  | '"' :: rest => readBasic rest
  | '\'' :: '\'' :: '\'' :: rest => readLiteralLines (afterOpening rest)
  | '\'' :: rest => readLiteral rest
  | _ => none

end LiveItems.Toml
