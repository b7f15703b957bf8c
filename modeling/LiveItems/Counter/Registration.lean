import LiveItems.Counter.Basic
import LiveItems.Heap
set_option autoImplicit false

/-!
# Registration

An object gets an entry when something first holds it. Everything that can be reached from it
through storage, down to what is tracked already, gets an entry at the same time, so that the edges
out of a tracked container always lead to tracked objects.

Objects wait in `pending` between getting an entry and having their storage read. Each object waits
once, so the number of objects in the heap bounds the work.
-/

namespace LiveItems.Counter

def insertEntry (c : Counter) (id : ItemId) : Counter := (c.setEntry id {}).increase 1

def gainReference (c : Counter) (id : ItemId) : Counter :=
  match c.get? id with
  | none => c
  | some e =>
    let c := c.setEntry id { e with references := e.references + 1 }
    if e.references = 0 ∧ e.roots = 0 then c.addCandidate id else c

/-- One more occurrence of `child` in the tracked container `parent`. A child without an entry gets
one and has to wait. -/
def link (parent : ItemId) (child : Item) : Counter × List ItemId → Counter × List ItemId
  | (c, pending) =>
    match child.id? with
    | none =>
      ((c.increase 1).modifyEntry parent fun e => { e with leaves := e.leaves + 1 }, pending)
    | some id =>
      let (c, pending) :=
        if c.isTracked id then (c, pending) else (c.insertEntry id, id :: pending)
      let c := c.modifyEntry parent fun e => { e with edges := e.edges.add id }
      (c.gainReference id, pending)

def scan (h : Heap) (parent : ItemId) (state : Counter × List ItemId) : Counter × List ItemId :=
  (h.children parent).foldl (fun s child => link parent child s) state

def expand (h : Heap) : Nat → Counter × List ItemId → Counter
  | 0, (c, _) => c
  | _ + 1, (c, []) => c
  | fuel + 1, (c, id :: pending) => expand h fuel (scan h id (c, pending))

def track (h : Heap) (id : ItemId) (c : Counter) : Counter :=
  if c.isTracked id then c else expand h (h.objects.size + 1) (c.insertEntry id, [id])

/-- One more occurrence of `child` in `parent`. A container without an entry is not accounted: its
storage is read when it gets one. -/
def addOccurrence (h : Heap) (child : Item) (parent : ItemId) (c : Counter) : Counter :=
  if c.isTracked parent then expand h (h.objects.size + 1) (link parent child (c, [])) else c

def gainRoots (c : Counter) (id : ItemId) (n : Nat) : Counter :=
  { c.modifyEntry id fun e => { e with roots := c.sums.sum e.roots n } with
    sums := c.sums.after (c.rootCount id) n }

def addRoots (h : Heap) (x : Item) (n : Nat) (c : Counter) : Counter :=
  match x.id? with
  | none => c.increase n
  | some id => ((c.track h id).gainRoots id n).dropCandidate id

def suspect (h : Heap) (x : Item) (c : Counter) : Counter :=
  match x.id? with
  | none => c
  | some id =>
    let c := c.track h id
    if c.rootCount id = 0 then c.addCandidate id else c

end LiveItems.Counter
