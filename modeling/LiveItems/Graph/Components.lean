import Std.Data.ExtTreeMap
set_option autoImplicit false

/-!
# Strongly connected components

A depth-first search for the strongly connected components of the part of a graph that can be
reached from some start vertices. The graph is a function from a vertex to its successors. A
component comes out after every component that can be reached from it.

The search works in steps: a step looks at one successor of the innermost vertex under exploration,
or leaves that vertex when it has none left. What has been visited is kept between calls, so a
vertex is never reported twice.
-/

namespace LiveItems.Graph

/-- What the search knows about a vertex it has met: when it was met, the earliest vertex of an
unfinished component known to be reachable from it, and whether its own component is unfinished. -/
structure Mark where
  index : Nat
  lowlink : Nat
  onStack : Bool
  deriving Repr, DecidableEq

/-- A vertex under exploration, with the successors not looked at yet. -/
structure Frame (α : Type) where
  vertex : α
  unexplored : List α
  deriving Repr, DecidableEq

variable {α : Type} [Ord α] [Std.TransOrd α]

/-- What stays between calls: the marks, and the vertices of unfinished components, latest first. -/
structure Search (α : Type) [Ord α] where
  marks : Std.ExtTreeMap α Mark := {}
  stack : List α := []

/-- A search under way: the vertices under exploration, innermost first, and the components found by
this call, latest first. -/
structure Walk (α : Type) [Ord α] extends Search α where
  frames : List (Frame α) := []
  found : List (List α) := []

def Search.visited (s : Search α) : Nat := s.marks.size

namespace Walk

def discover (w : Walk α) (v : α) (successors : List α) : Walk α :=
  let index := w.marks.size
  { w with
    marks := w.marks.insert v ⟨index, index, true⟩
    stack := v :: w.stack
    frames := ⟨v, successors⟩ :: w.frames }

def lower (w : Walk α) (v : α) (index : Nat) : Walk α :=
  { w with marks := w.marks.modify v fun m => { m with lowlink := min m.lowlink index } }

def lowerParent (w : Walk α) (index : Nat) : Walk α :=
  match w.frames with
  | [] => w
  | parent :: _ => w.lower parent.vertex index

/-- Takes the component of `root` off the stack: `root` and everything above it. -/
def emit [DecidableEq α] (w : Walk α) (root : α) : Walk α :=
  let members := w.stack.takeWhile (· != root) ++ [root]
  { w with
    stack := (w.stack.dropWhile (· != root)).tail
    marks := members.foldl (fun marks v => marks.modify v fun m => { m with onStack := false })
      w.marks
    found := members :: w.found }

def leave [DecidableEq α] (w : Walk α) (v : α) : Walk α :=
  match w.marks[v]? with
  | none => w
  | some m =>
    let w := w.lowerParent m.lowlink
    if m.lowlink = m.index then w.emit v else w

def step [DecidableEq α] (successors : α → List α) (w : Walk α) : Option (Walk α) :=
  match w.frames with
  | [] => none
  | ⟨v, []⟩ :: outer => some ({ w with frames := outer }.leave v)
  | ⟨v, u :: rest⟩ :: outer =>
    let w := { w with frames := ⟨v, rest⟩ :: outer }
    match w.marks[u]? with
    | none => some (w.discover u (successors u))
    | some m => some (if m.onStack then w.lower v m.index else w)

def run [DecidableEq α] (successors : α → List α) : Nat → Walk α → Walk α
  | 0, w => w
  | fuel + 1, w =>
    match w.step successors with
    | none => w
    | some w' => run successors fuel w'

def explore [DecidableEq α] (successors : α → List α) (fuel : Nat) (w : Walk α) (root : α) :
    Walk α :=
  if w.marks.contains root then w else (w.discover root (successors root)).run successors fuel

end Walk

/-- The components that can be reached from `roots` and have not been reported before, in the order
in which they are completed, each with its members in the order in which they leave the stack.
`fuel` bounds the steps spent on one root: the number of vertices and edges that can be reached
from it is enough. -/
def Search.components [DecidableEq α] (s : Search α) (successors : α → List α) (fuel : Nat)
    (roots : List α) : List (List α) × Search α :=
  let w := roots.foldl (Walk.explore successors fuel) { s with }
  (w.found.reverse, w.toSearch)

structure Digraph (α : Type) [Ord α] where
  out : Std.ExtTreeMap α (List α) := {}

namespace Digraph

def successors (g : Digraph α) (v : α) : List α := g.out.getD v []

def addEdge (g : Digraph α) (edge : α × α) : Digraph α :=
  ⟨g.out.insert edge.1 (g.successors edge.1 ++ [edge.2])⟩

def ofEdges (edges : List (α × α)) : Digraph α := edges.foldl addEdge {}

def edgeCount (g : Digraph α) : Nat := g.out.foldl (fun n _ vs => n + vs.length) 0

/-- The components that can be reached from `roots`. A search meets `root` and the ends of edges
only, so twice the number of edges bounds its steps. -/
def components [DecidableEq α] (g : Digraph α) (s : Search α) (roots : List α) :
    List (List α) × Search α :=
  s.components g.successors (2 * g.edgeCount + 1) roots

end Digraph

end LiveItems.Graph
