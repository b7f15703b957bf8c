import LiveItems.Toml.Scalar
set_option autoImplicit false

/-!
# Tables

The tree of a document, and the rules by which headers and keys extend it. How a table came to be
decides what may still be added to it: a header may complete a table that only longer headers have
mentioned, a dotted key extends only tables that dotted keys have made, and nothing extends an
inline table.
-/

namespace LiveItems.Toml

inductive Origin where
  /-- By its own header. -/
  | header
  /-- By a longer header. -/
  | implied
  /-- By a dotted key. -/
  | dotted
  /-- As a value in braces. -/
  | inline
  deriving Repr, DecidableEq

inductive Node where
  | scalar (value : Scalar)
  | array (items : List Node)
  | table (origin : Origin) (entries : List (String × Node))
  | tables (elements : List (List (String × Node)))

abbrev Entries := List (String × Node)

namespace Entries

/-- Gives a key a node: in its old place when it is there, else at the end. -/
def put (k : String) (n : Node) : Entries → Entries
  | [] => [(k, n)]
  | (k', n') :: es => if k' = k then (k, n) :: es else (k', n') :: put k n es

def add? (k : String) (n : Node) (es : Entries) : Option Entries :=
  match es.lookup k with
  | none => some (es ++ [(k, n)])
  | some _ => none

/-- Changes the table at the end of a path, which begins at these entries. Tables that are missing
on the way are made; of repeated headers the latest counts. The path of a dotted key does not lead
through a table with a header of its own. -/
def alterAt? (isDotted : Bool) (change : Origin → Entries → Option Entries) :
    List String → Origin → Entries → Option Entries
  | [], origin, es => change origin es
  | k :: path, _, es =>
    match es.lookup k with
    | none => do
      let origin := if isDotted then .dotted else .implied
      let inner ← alterAt? isDotted change path origin []
      some (es.put k (.table origin inner))
    | some (.table origin inner) =>
      if origin = .inline ∨ (isDotted ∧ origin = .header) then none
      else do
        let inner ← alterAt? isDotted change path origin inner
        some (es.put k (.table origin inner))
    | some (.tables elements) => do
      let latest ← elements.getLast?
      let latest ← alterAt? isDotted change path .header latest
      some (es.put k (.tables (elements.dropLast ++ [latest])))
    | some _ => none

end Entries

/-- A key: the tables on the way, and the name at the end. -/
structure Key where
  path : List String
  name : String
  deriving Repr, DecidableEq

namespace Entries

/-- Adds a value under a key. The table that a dotted key ends in has been made by dotted keys. -/
def addPair? (key : Key) (n : Node) (es : Entries) : Option Entries :=
  es.alterAt? true
    (fun origin inner =>
      if key.path ≠ [] ∧ origin ≠ .dotted then none else inner.add? key.name n)
    key.path .header

def openTable? (key : Key) (es : Entries) : Option Entries :=
  es.alterAt? false
    (fun _ inner =>
      match inner.lookup key.name with
      | none => some (inner.put key.name (.table .header []))
      | some (.table .implied old) => some (inner.put key.name (.table .header old))
      | some _ => none)
    key.path .header

def openElement? (key : Key) (es : Entries) : Option Entries :=
  es.alterAt? false
    (fun _ inner =>
      match inner.lookup key.name with
      | none => some (inner.put key.name (.tables [[]]))
      | some (.tables elements) => some (inner.put key.name (.tables (elements ++ [[]])))
      | some _ => none)
    key.path .header

end Entries

end LiveItems.Toml
