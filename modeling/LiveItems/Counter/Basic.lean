import Std.Data.ExtTreeMap
import LiveItems.Counter.Edges
import LiveItems.Action
set_option autoImplicit false

/-!
# Reference counters

A counter tracks objects. For each of them it records how many roots hold it, how many references
from tracked containers it has, and what it holds itself: the objects, each with its number of
occurrences, and the number of leaves. The count of live items is the number of tracked objects and
of the leaves that roots and tracked containers hold, one for each occurrence.

An object that loses its last root while a container still holds it becomes a candidate: it may be
part of a cycle that nothing else holds.
-/

namespace LiveItems

structure Entry where
  roots : Nat := 0
  references : Nat := 0
  edges : Edges := {}
  leaves : Nat := 0
  deriving Inhabited

namespace Entry

def isFree (e : Entry) : Bool := e.roots == 0 && e.references == 0

/-- The live items that go when the object goes: itself and the leaves it holds. -/
def weight (e : Entry) : Nat := 1 + e.leaves

end Entry

structure PassStats where
  passes : Nat := 0
  components : Nat := 0
  collected : Nat := 0
  deriving Repr, DecidableEq, Inhabited

/-- How a counter adds. Containers, stacks and slots have it count places in memory, and other calls
add one at a time: no run gets beyond what a word can count. But a direct call may give it any
number of roots. From then on it adds in words, and a sum that leaves the word starts again at
zero. -/
inductive Sums where
  | small
  | words
  /-- A sum has left the word. -/
  | wrapped
  deriving Repr, DecidableEq, Inhabited

def wordSize : Nat := UInt64.size

namespace Sums

def sum (s : Sums) (a b : Nat) : Nat := if s = small then a + b else (a + b) % wordSize

/-- How a counter adds after it has formed a sum. -/
def after (s : Sums) (a b : Nat) : Sums := if s = small ∨ a + b < wordSize then s else wrapped

def inWords : Sums → Sums
  | small => words
  | s => s

variable {s : Sums} {a b : Nat}

theorem sum_small (a b : Nat) : small.sum a b = a + b := if_pos rfl

theorem after_small (a b : Nat) : small.after a b = small := if_pos (.inl rfl)

theorem sum_le (s : Sums) (a b : Nat) : s.sum a b ≤ a + b := by
  rw [sum]
  split
  · exact Nat.le_refl _
  · exact Nat.mod_le _ _

theorem after_eq (exact : s.after a b ≠ wrapped) : s.after a b = s := by
  rw [after] at exact ⊢
  split
  · rfl
  · rename_i left
    exact absurd (if_neg left) exact

theorem sum_eq (exact : s.after a b ≠ wrapped) : s.sum a b = a + b := by
  rw [after] at exact
  rw [sum]
  split
  · rfl
  · rename_i inWords
    by_cases fits : s = small ∨ a + b < wordSize
    · exact Nat.mod_eq_of_lt (fits.resolve_left inWords)
    · exact absurd (if_neg fits) exact

end Sums

structure Counter where
  tracked : Std.ExtTreeMap ItemId Entry := {}
  candidates : OrderedSet ItemId := {}
  count : Nat := 0
  /-- The highest count since the peak was last reset. -/
  highest : Nat := 0
  stats : PassStats := {}
  sums : Sums := .small
  deriving Inhabited

namespace Counter

def fresh : Counter := {}

def get? (c : Counter) (id : ItemId) : Option Entry := c.tracked[id]?

def isTracked (c : Counter) (id : ItemId) : Bool := c.tracked.contains id

def edges (c : Counter) (id : ItemId) : Edges :=
  match c.get? id with
  | some e => e.edges
  | none => {}

def rootCount (c : Counter) (id : ItemId) : Nat := (c.get? id).elim 0 (·.roots)

def referenceCount (c : Counter) (id : ItemId) : Nat := (c.get? id).elim 0 (·.references)

def peak (c : Counter) : Nat := max c.highest c.count

def resetPeak (c : Counter) : Counter := { c with highest := c.count }

def setEntry (c : Counter) (id : ItemId) (e : Entry) : Counter :=
  { c with tracked := c.tracked.insert id e }

def modifyEntry (c : Counter) (id : ItemId) (f : Entry → Entry) : Counter :=
  { c with tracked := c.tracked.modify id f }

def eraseEntry (c : Counter) (id : ItemId) : Counter :=
  { c with tracked := c.tracked.erase id }

def addCandidate (c : Counter) (id : ItemId) : Counter :=
  { c with candidates := c.candidates.insert id () }

def dropCandidate (c : Counter) (id : ItemId) : Counter :=
  { c with candidates := c.candidates.swapErase id }

def increase (c : Counter) (n : Nat) : Counter :=
  let count := c.sums.sum c.count n
  { c with count, highest := max c.highest count, sums := c.sums.after c.count n }

def inWords (c : Counter) : Counter := { c with sums := c.sums.inWords }

/-- No sum of the counter has left the word. -/
def Unwrapped (c : Counter) : Prop := c.sums ≠ .wrapped

def decrease (n : Nat) : Action Counter Unit := do
  let c ← get
  if c.count < n then
    Action.violate .negativeCount
  else
    set { c with count := c.count - n }

instance (c : Counter) : Decidable c.Unwrapped := inferInstanceAs (Decidable (c.sums ≠ .wrapped))

@[simp] theorem get?_setEntry (c : Counter) (id a : ItemId) (e : Entry) :
    (c.setEntry id e).get? a = if a = id then some e else c.get? a := by
  by_cases h : a = id
  · simp [get?, setEntry, h]
  · simp [get?, setEntry, Std.ExtTreeMap.getElem?_insert, h, Ne.symm h]

@[simp] theorem get?_modifyEntry (c : Counter) (id a : ItemId) (f : Entry → Entry) :
    (c.modifyEntry id f).get? a = if a = id then (c.get? id).map f else c.get? a := by
  by_cases h : a = id
  · simp [get?, modifyEntry, h]
  · simp [get?, modifyEntry, Std.ExtTreeMap.getElem?_modify, h, Ne.symm h]

@[simp] theorem get?_eraseEntry (c : Counter) (id a : ItemId) :
    (c.eraseEntry id).get? a = if a = id then none else c.get? a := by
  by_cases h : a = id
  · simp [get?, eraseEntry, h]
  · simp [get?, eraseEntry, Std.ExtTreeMap.getElem?_erase, h, Ne.symm h]

@[simp] theorem get?_addCandidate (c : Counter) (id a : ItemId) :
    (c.addCandidate id).get? a = c.get? a := rfl

@[simp] theorem get?_dropCandidate (c : Counter) (id a : ItemId) :
    (c.dropCandidate id).get? a = c.get? a := rfl

@[simp] theorem get?_increase (c : Counter) (n : Nat) (a : ItemId) :
    (c.increase n).get? a = c.get? a := rfl

theorem count_increase {c : Counter} {n : Nat} (exact : (c.increase n).Unwrapped) :
    (c.increase n).count = c.count + n := Sums.sum_eq exact

theorem unwrapped_of_increase {c : Counter} {n : Nat} (exact : (c.increase n).Unwrapped) :
    c.Unwrapped := by
  have same : (c.increase n).sums = c.sums := Sums.after_eq exact
  rwa [Unwrapped, same] at exact

theorem isTracked_iff (c : Counter) (id : ItemId) :
    c.isTracked id = true ↔ ∃ e, c.get? id = some e := by
  rw [isTracked, get?, Std.ExtTreeMap.contains_eq_isSome_getElem?, Option.isSome_iff_exists]

theorem get?_eq_none_iff (c : Counter) (id : ItemId) :
    c.get? id = none ↔ c.isTracked id = false := by
  rw [isTracked, get?, Std.ExtTreeMap.contains_eq_isSome_getElem?, Option.isSome_eq_false_iff,
    Option.isNone_iff_eq_none]

@[simp] theorem get?_fresh (id : ItemId) : fresh.get? id = none := by
  simp [get?, fresh]

theorem count_le_peak (c : Counter) : c.count ≤ c.peak := Nat.le_max_right ..

/-- A decrease takes exactly `n` live items off, or changes nothing. -/
theorem apply_decrease (c : Counter) (n : Nat) :
    (decrease n).apply c =
      if c.count < n then (.error (.invariantViolation .negativeCount), c)
      else (.ok (), { c with count := c.count - n }) := by
  simp only [decrease, Action.apply_bind, Action.apply_get]
  split <;> rfl

end Counter

end LiveItems
