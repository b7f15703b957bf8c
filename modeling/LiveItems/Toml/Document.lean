import LiveItems.Toml.Table
import LiveItems.Toml.Text
set_option autoImplicit false

namespace LiveItems.Toml

/-- Fewer parts than this make up a dotted key, and fewer values than this are nested in each
other. -/
def depthLimit : Nat := 80

def readKeyPart : Reader String
  | '"' :: rest => (readBasic rest).map fun (text, rest) => (String.ofList text, rest)
  | '\'' :: rest => (readLiteral rest).map fun (text, rest) => (String.ofList text, rest)
  | cs =>
    let name := cs.takeWhile isBareKey
    if name.isEmpty then none else some (String.ofList name, cs.dropWhile isBareKey)

def readKey : (room : Nat) → Reader Key
  | 0, _ => none
  | room + 1, cs => do
    let (part, cs) ← readKeyPart (cs.dropWhile isBlank)
    match cs.dropWhile isBlank with
    | '.' :: cs => do
      let (key, cs) ← readKey room cs
      some (⟨part :: key.path, key.name⟩, cs)
    | cs => some (⟨[], part⟩, cs)

def readPair (value : Reader Node) : Reader (Key × Node) := fun cs => do
  let (key, cs) ← readKey (depthLimit - 1) cs
  match cs with
  | '=' :: cs => do
    let (n, cs) ← value (cs.dropWhile isBlank)
    some ((key, n), cs)
  | _ => none

/-- Reads the items of an array up to the closing bracket. There are fewer than `fuel` of them. -/
def readItems (value : Reader Node) : (fuel : Nat) → Reader (List Node)
  | 0, _ => none
  | fuel + 1, cs =>
    match afterVoid false cs with
    | ']' :: cs => some ([], cs)
    | cs => do
      let (n, cs) ← value cs
      match afterVoid false cs with
      | ',' :: cs => do
        let (ns, cs) ← readItems value fuel cs
        some (n :: ns, cs)
      | ']' :: cs => some ([n], cs)
      | _ => none

def readPairs (value : Reader Node) : (fuel : Nat) → Entries → Reader Entries
  | 0, _, _ => none
  | fuel + 1, es, cs => do
    let ((key, n), cs) ← readPair value cs
    let es ← es.addPair? key n
    match cs.dropWhile isBlank with
    | ',' :: cs => readPairs value fuel es cs
    | '\x7d' :: cs => some (es, cs)
    | _ => none

def readValue (room : Nat) : Reader Node := fun cs =>
  match room, cs with
  | room + 1, '[' :: cs => do
    let (ns, cs) ← readItems (readValue room) (cs.length + 1) cs
    some (.array ns, cs)
  | room + 1, '\x7b' :: cs =>
    match cs.dropWhile isBlank with
    | '\x7d' :: cs => some (.table .inline [], cs)
    | cs => do
      let (es, cs) ← readPairs (readValue room) (cs.length + 1) [] cs
      some (.table .inline es, cs)
  | _, '"' :: _ | _, '\'' :: _ => do
    let (text, cs) ← readText cs
    some (.scalar (.string (String.ofList text)), cs)
  | _, cs => do
    let (s, cs) ← readToken cs
    some (.scalar s, cs)

/-- What has been read of a document: its tree, and the path of the table that pairs go into. -/
structure Draft where
  root : Entries := []
  current : List String := []

namespace Draft

def addPair? (d : Draft) (key : Key) (n : Node) : Option Draft := do
  let root ← d.root.alterAt? false (fun _ inner => inner.addPair? key n) d.current .header
  some { d with root }

end Draft

def readLine (d : Draft) (cs : List Char) : Option (Draft × List Char) :=
  match cs.dropWhile isBlank with
  | '[' :: '[' :: cs => do
    let (key, cs) ← readKey (depthLimit - 1) cs
    match cs with
    | ']' :: ']' :: cs => do
      let root ← d.root.openElement? key
      some ({ root, current := key.path ++ [key.name] }, ← afterLine? cs)
    | _ => none
  | '[' :: cs => do
    let (key, cs) ← readKey (depthLimit - 1) cs
    match cs with
    | ']' :: cs => do
      let root ← d.root.openTable? key
      some ({ root, current := key.path ++ [key.name] }, ← afterLine? cs)
    | _ => none
  | cs =>
    match afterLine? cs with
    | some cs => some (d, cs)
    | none => do
      let ((key, n), cs) ← readPair (readValue (depthLimit - 1)) cs
      some (← d.addPair? key n, ← afterLine? cs)

def readLines : (fuel : Nat) → Draft → List Char → Option Draft
  | _, d, [] => some d
  | 0, _, _ => none
  | fuel + 1, d, cs => do
    let (d, cs) ← readLine d cs
    readLines fuel d cs

/-- A byte order mark may stand before a document. -/
def afterMark : List Char → List Char
  | '\uFEFF' :: cs => cs
  | cs => cs

def readDocument? (text : String) : Option Entries :=
  let cs := afterMark text.toList
  (readLines cs.length {} cs).map (·.root)

end LiveItems.Toml
