import LiveItems.Limits.Basic
import LiveItems.Roots.Stack
import LiveItems.Roots.Slot
set_option autoImplicit false

namespace LiveItems

structure Engine where
  counter : CounterId
  limits : Limits := {}
  stack : Stack := { counter }
  statics : Option Slot := none
  stage : Stage := .ready
  /-- How many instructions have come to their end without an error of their own. -/
  executed : Nat := 0
  /-- The error that ended the execution. -/
  fault : Option Error := none
  deriving Inhabited

structure Machine where
  memory : Memory
  engine : Engine

namespace Machine

def counter (s : Machine) : Counter := s.memory.counter s.engine.counter

def onMemory {α : Type} (x : Action Memory α) : Action Machine α :=
  x.onPart (·.memory) fun m s => { s with memory := m }

def onStack {α : Type} (x : Action (Memory × Stack) α) : Action Machine α :=
  x.onPart (fun s => (s.memory, s.engine.stack)) fun (m, stack) s =>
    { s with memory := m, engine := { s.engine with stack } }

def setStatics (statics : Option Slot) : Action Machine Unit :=
  modify fun s => { s with engine := { s.engine with statics } }

/-- Fails when there have been more live items than allowed since the peak was last reset. -/
def checkLimit : Action Machine Unit := do
  let s ← get
  let peak := s.counter.peak
  if peak > s.engine.limits.maxLiveItems then
    throw (.limitExceeded peak s.engine.limits.maxLiveItems)

def push (x : Item) : Action Machine Unit := do
  onStack (Stack.push x)
  checkLimit

def pop : Action Machine Item := onStack Stack.pop

def peek (depth : Int) : Action Machine Item := do
  (← get).engine.stack.peek depth

def initStatics (n : Nat) : Action Machine Unit := do
  let s ← get
  match s.engine.statics with
  | some old => do
    setStatics none
    onMemory (Memory.removeRoots old.counter old.items)
  | none => pure ()
  let slot ← onMemory (Slot.createNulls s.engine.counter n)
  setStatics (some slot)
  checkLimit

def loadStatic (index : Nat) : Action Machine Unit := do
  match (← get).engine.statics with
  | none => Action.refuse .noStatics
  | some slot => do
    let x ← slot.get? index
    push x

def storeStatic (index : Nat) : Action Machine Unit := do
  let x ← peek 0
  match (← get).engine.statics with
  | none => Action.refuse .noStatics
  | some slot => do
    (Slot.set index x).onPart (fun s => (s.memory, slot)) fun (m, slot) s =>
      { s with memory := m, engine := { s.engine with statics := some slot } }
    let _ ← pop
    pure ()

def collect : Action Machine Nat := do
  let c := (← get).engine.counter
  onMemory (Memory.collect c)

def halt : Action Machine Unit := do
  if (← get).engine.stage = .faulted then
    Action.refuse .haltAfterFault
  else
    modify fun s => { s with engine := { s.engine with stage := .halted } }

def enter (s : Machine) : Except Error Unit :=
  if s.engine.stage.isFinal then
    .error (.invalidOperation (.finished s.engine.stage))
  else
    .ok ()

/-- What follows the body of an instruction: the limit is checked against the peak of the
instruction, before a pass can lower the count. -/
def checkpoint : Action Machine Unit := do
  modify fun s => { s with engine := { s.engine with executed := s.engine.executed + 1 } }
  checkLimit
  let s ← get
  if s.engine.executed % s.engine.limits.collectionInterval = 0 then
    let _ ← collect
  onMemory (Memory.resetPeak s.engine.counter)

def raise (e : Error) (s : Machine) : Machine :=
  { s with engine := { s.engine with stage := .faulted, fault := some e } }

def conclude (result : Except Error Unit) (s : Machine) : Except Error Unit × Machine :=
  let (result, s) :=
    match result with
    | .ok () => checkpoint.apply s
    | .error e => (.error e, s)
  match result with
  | .ok () => (.ok (), s)
  | .error e => (.error e, s.raise e)

/-- The memory after the engine has gone: its roots are taken away, and a last pass collects the
cycles among what they held. -/
def shutDown (s : Machine) : Memory :=
  let m := s.engine.stack.drop s.memory
  let m := match s.engine.statics with
    | some slot => slot.drop m
    | none => m
  (Memory.collect s.engine.counter).attempt m

end Machine

end LiveItems
