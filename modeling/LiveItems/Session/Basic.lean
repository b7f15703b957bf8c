import LiveItems.Container.List
import LiveItems.Container.Map
import LiveItems.Container.Buffer
import LiveItems.Container.Copy
import LiveItems.Session.Command
import LiveItems.Session.Answer
set_option autoImplicit false

namespace LiveItems

/-- What a host works with. One engine is enough, on counter zero: whatever a second engine does to a
counter, a named stack, a named slot, direct passes and direct resets of the peak do as well, and to
the first engine it is nothing but a counter and a heap that change between its operations. -/
structure Session where
  machine : Machine
  namedStacks : Std.ExtTreeMap String Stack := {}
  namedSlots : Std.ExtTreeMap String Slot := {}
  names : Std.ExtTreeMap String Item := {}
  /-- How many services of the host have been given a handle. -/
  interops : Nat := 0

namespace Session

def start (limits : Limits) (supply : IdSupply) : Session where
  machine :=
    { memory := { heap := { supply }, counters := [Counter.fresh] }
      engine := { counter := 0, limits } }

def startWith (limits : Limits) (supply : IdSupply) : Except Error Session :=
  limits.validate.map fun _ => start limits supply

def memory (s : Session) : Memory := s.machine.memory

def setMemory (m : Memory) (s : Session) : Session :=
  { s with machine := { s.machine with memory := m } }

def readings (s : Session) : List Reading := s.memory.counters.map (·.reading)

def onMachine {α : Type} (x : Action Machine α) : Action Session α :=
  x.onPart (·.machine) fun machine s => { s with machine }

def onMemory {α : Type} (x : Action Memory α) : Action Session α := x.onPart memory setMemory

def onNamedStack {α : Type} (name : String) (x : Action (Memory × Stack) α) : Action Session α := do
  match (← get).namedStacks[name]? with
  | none => Action.refuse (.unknownName name)
  | some stack =>
    x.onPart (fun s => (s.memory, stack)) fun (m, stack) s =>
      { s.setMemory m with namedStacks := s.namedStacks.insert name stack }

def onNamedSlot {α : Type} (name : String) (x : Action (Memory × Slot) α) : Action Session α := do
  match (← get).namedSlots[name]? with
  | none => Action.refuse (.unknownName name)
  | some slot =>
    x.onPart (fun s => (s.memory, slot)) fun (m, slot) s =>
      { s.setMemory m with namedSlots := s.namedSlots.insert name slot }

def onStack {α : Type} (target : Option String) (x : Action (Memory × Stack) α) :
    Action Session α :=
  match target with
  | some name => onNamedStack name x
  | none => onMachine (Machine.onStack x)

def bind (name : String) (x : Item) : Action Session Unit :=
  modify fun s => { s with names := s.names.insert name x }

def lookup (name : String) : Action Session Item := do
  match (← get).names[name]? with
  | some x => pure x
  | none => Action.refuse (.unknownName name)

def target (kinds : List ObjectKind) (name : String) : Action Session ItemId := do
  match ← lookup name with
  | .object kind id => if kind ∈ kinds then pure id else Action.refuse (.unknownName name)
  | .leaf _ => Action.refuse (.unknownName name)

def dropStack (name : String) (s : Session) : Session :=
  match s.namedStacks[name]? with
  | none => s
  | some stack => { s.setMemory (stack.drop s.memory) with namedStacks := s.namedStacks.erase name }

def dropSlot (name : String) (s : Session) : Session :=
  match s.namedSlots[name]? with
  | none => s
  | some slot => { s.setMemory (slot.drop s.memory) with namedSlots := s.namedSlots.erase name }

/-- The end of a session: the slots go, then the stacks, then the engine. Names stay. -/
def close (s : Session) : Session :=
  let s := s.namedSlots.keys.foldl (fun s name => s.dropSlot name) s
  let s := s.namedStacks.keys.foldl (fun s name => s.dropStack name) s
  s.setMemory s.machine.shutDown

end Session

end LiveItems
