import LiveItems.Session.Run
import LiveItems.Proofs.Memory.Peak
set_option autoImplicit false

namespace LiveItems

open LiveItems.Action (Follows)

variable {step : Counter → Counter → Prop} [IsPreorder Counter step]
  (up : Subrelation Counter.Grows step) (down : Subrelation Counter.Sinks step)

namespace Machine

structure Steps (step : Counter → Counter → Prop) (d : CounterId) (s t : Machine) : Prop where
  limits : t.engine.limits = s.engine.limits
  counter : t.engine.counter = s.engine.counter
  memory : s.memory.Steps step d t.memory

structure Rises (d : CounterId) (s t : Machine) : Prop where
  limits : t.engine.limits = s.engine.limits
  counter : t.engine.counter = s.engine.counter
  memory : s.memory.Rises d t.memory

variable (d : CounterId)

theorem Rises.refl (s : Machine) : s.Rises d s := ⟨rfl, rfl, refl_of (Memory.Rises d) s.memory⟩

instance : IsPreorder Machine (Rises d) where
  refl := Rises.refl d
  trans _ _ _ first second :=
    ⟨second.limits.trans first.limits, second.counter.trans first.counter,
      trans_of (Memory.Rises d) first.memory second.memory⟩

instance : IsPreorder Machine (Steps step d) where
  refl s := ⟨rfl, rfl, refl_of (Memory.Steps step d) s.memory⟩
  trans _ _ _ first second :=
    ⟨second.limits.trans first.limits, second.counter.trans first.counter,
      trans_of (Memory.Steps step d) first.memory second.memory⟩

omit [IsPreorder Counter step] in
theorem Steps.mono {step' : Counter → Counter → Prop} {d : CounterId} {s t : Machine}
    (moves : s.Steps step d t) (sub : Subrelation step step') : s.Steps step' d t :=
  ⟨moves.limits, moves.counter, sub moves.memory⟩

omit [IsPreorder Counter step] in
theorem Steps.rises {d : CounterId} {s t : Machine} (moves : s.Steps Counter.Rises d t) :
    s.Rises d t := ⟨moves.limits, moves.counter, moves.memory⟩

omit [IsPreorder Counter step] in
theorem onMemory_follows {α : Type} {x : Action Memory α}
    (follows : Follows (Memory.Steps step d) x) :
    Follows (Steps step d) (onMemory x) :=
  follows.onPart fun _ _ moves => ⟨rfl, rfl, moves⟩

omit [IsPreorder Counter step] in
theorem onStack_follows {α : Type} {x : Action (Memory × Stack) α}
    (follows : Follows (StepsBeside step d) x) : Follows (Steps step d) (onStack x) :=
  follows.onPart fun _ _ moves => ⟨rfl, rfl, moves⟩

theorem setStatics_follows (statics : Option Slot) : Follows (Steps step d) (setStatics statics) :=
  .modify fun s => ⟨rfl, rfl, refl_of (Memory.Steps step d) s.memory⟩

theorem checkLimit_follows : Follows (Steps step d) checkLimit := by
  refine .get_bind fun s => ?_
  by_cases exceeded : s.counter.peak > s.engine.limits.maxLiveItems
  · simp only [if_pos exceeded]
    exact .throw _
  · simp only [if_neg exceeded]
    exact .pure ()

include up in
theorem push_follows (x : Item) : Follows (Steps step d) (push x) :=
  (onStack_follows d (Stack.push_follows up d x)).bind fun _ => checkLimit_follows d

include down in
theorem pop_follows : Follows (Steps step d) pop := onStack_follows d (Stack.pop_follows down d)

theorem peek_follows (depth : Int) : Follows (Steps step d) (peek depth) :=
  .get_bind fun s => .lift (s.engine.stack.peek depth)

def releaseStatics : Option Slot → Action Machine Unit
  | none => pure ()
  | some old => do
    setStatics none
    onMemory (Memory.removeRoots old.counter old.items)

def createStatics (c : CounterId) (n : Nat) : Action Machine Unit := do
  let slot ← onMemory (Slot.createNulls c n)
  setStatics (some slot)
  checkLimit

theorem apply_initStatics (n : Nat) (s : Machine) :
    (initStatics n).apply s =
      (releaseStatics s.engine.statics >>= fun _ => createStatics s.engine.counter n).apply s := by
  rw [initStatics, Action.apply_bind, Action.apply_get]
  cases statics : s.engine.statics with
  | none => simp only [statics, releaseStatics, createStatics, pure_bind]
  | some old => simp only [statics, releaseStatics, createStatics, bind_assoc]

include down in
theorem releaseStatics_follows (statics : Option Slot) :
    Follows (Steps step d) (releaseStatics statics) := by
  cases statics with
  | none => exact .pure ()
  | some old =>
    exact (setStatics_follows d none).bind fun _ =>
      onMemory_follows d (Memory.removeRoots_follows down d _ _)

include up in
theorem createStatics_follows (c : CounterId) (n : Nat) :
    Follows (Steps step d) (createStatics c n) := by
  refine (onMemory_follows d (Slot.createNulls_follows up d c n)).bind fun slot => ?_
  exact (setStatics_follows d (some slot)).bind fun _ => checkLimit_follows d

include up down in
theorem initStatics_follows (n : Nat) : Follows (Steps step d) (initStatics n) := by
  intro s
  rw [apply_initStatics]
  exact (releaseStatics_follows down d _).bind (fun _ => createStatics_follows up d _ n) s

include up in
theorem loadStatic_follows (index : Nat) : Follows (Steps step d) (loadStatic index) := by
  refine .get_bind fun s => ?_
  split
  · exact .refuse _
  · exact (Follows.lift _).bind fun x => push_follows up d x

include up down in
theorem storeStatic_follows (index : Nat) : Follows (Steps step d) (storeStatic index) := by
  refine (peek_follows d 0).bind fun x => ?_
  refine .get_bind fun s => ?_
  split
  · exact .refuse _
  · refine .bind ((Slot.set_follows up down d index x).onPart fun _ _ moves => ⟨rfl, rfl, moves⟩)
      fun _ => ?_
    exact (pop_follows down d).bind fun _ => .pure ()

omit [IsPreorder Counter step] in
include down in
theorem collect_follows : Follows (Steps step d) collect :=
  .get_bind fun s => onMemory_follows d (Memory.collect_follows down d s.engine.counter)

theorem halt_follows : Follows (Steps step d) halt := by
  refine .get_bind fun s => ?_
  split
  · exact .refuse _
  · exact .modify fun s => ⟨rfl, rfl, refl_of (Memory.Steps step d) s.memory⟩

include down in
theorem steps_shutDown (s : Machine) : s.memory.Steps step d s.shutDown := by
  have stack := Stack.steps_drop down d s.engine.stack s.memory
  have pass := fun m => Memory.collect_follows down d s.engine.counter m
  rw [shutDown]
  cases s.engine.statics with
  | none => exact trans_of step stack (pass _)
  | some slot => exact trans_of step (trans_of step stack (Slot.steps_drop down d slot _)) (pass _)

end Machine

/-! ## What commands may do to counts -/

def ListCommand.adds : ListCommand → Bool
  | push _ | set _ _ | insert _ _ => true
  | _ => false

def ListCommand.removes : ListCommand → Bool
  | set _ _ | remove _ | pop | clear => true
  | _ => false

def MapCommand.adds : MapCommand → Bool
  | set _ _ => true
  | _ => false

def MapCommand.removes : MapCommand → Bool
  | set _ _ | remove _ | clear => true
  | _ => false

def CounterCommand.adds : CounterCommand → Bool
  | addRoots _ _ | addOccurrence _ _ | suspect _ => true
  | _ => false

def CounterCommand.addsRoots : CounterCommand → Bool
  | addRoots _ _ => true
  | _ => false

def CounterCommand.removes : CounterCommand → Bool
  | removeRoot _ | removeOccurrence _ _ | collect => true
  | _ => false

def StackCommand.adds : StackCommand → Bool
  | push _ | insert _ _ => true
  | _ => false

def StackCommand.removes : StackCommand → Bool
  | pop | remove _ | clear => true
  | _ => false

def SlotCommand.adds : SlotCommand → Bool
  | set _ _ => true
  | _ => false

def SlotCommand.removes : SlotCommand → Bool
  | set _ _ | clear => true
  | _ => false

def EngineCommand.adds : EngineCommand → Bool
  | push _ | initStatics _ | loadStatic _ | storeStatic _ => true
  | _ => false

def EngineCommand.removes : EngineCommand → Bool
  | pop | initStatics _ | storeStatic _ | collect => true
  | _ => false

def Command.adds : Command → Bool
  | create _ _ | newSlot _ _ _ | newNullSlot _ _ _ => true
  | onList _ command => command.adds
  | onMap _ command => command.adds
  | onCounter _ command => command.adds
  | onStack _ command => command.adds
  | onSlot _ command => command.adds
  | onEngine command => command.adds
  | _ => false

def Command.addsRoots : Command → Bool
  | onCounter _ command => command.addsRoots
  | _ => false

def Command.removes : Command → Bool
  | newStack _ _ | dropStack _ | newSlot _ _ _ | newNullSlot _ _ _ | dropSlot _ => true
  | onList _ command => command.removes
  | onMap _ command => command.removes
  | onCounter _ command => command.removes
  | onStack _ command => command.removes
  | onSlot _ command => command.removes
  | onEngine command => command.removes
  | _ => false

theorem Command.adds_of_addsRoots {command : Command} (wide : command.addsRoots) :
    command.adds = true := by
  cases command with
  | onCounter c command =>
    cases command with
    | addRoots x n => rfl
    | _ => exact nomatch wide
  | _ => exact nomatch wide

def Command.resetsPeak : Command → Bool
  | .onCounter 0 .resetPeak => true
  | _ => false

namespace Session

def Rises (s t : Session) : Prop := s.machine.Rises 0 t.machine

theorem Rises.refl (s : Session) : s.Rises s := Machine.Rises.refl 0 s.machine

instance : IsPreorder Session Rises where
  refl := Rises.refl
  trans _ _ _ first second := trans_of (Machine.Rises 0) first second

def Steps (step : Counter → Counter → Prop) (d : CounterId) (s t : Session) : Prop :=
  s.machine.Steps step d t.machine

theorem Steps.refl (d : CounterId) (s : Session) : s.Steps step d s :=
  refl_of (Machine.Steps step d) s.machine

instance (d : CounterId) : IsPreorder Session (Steps step d) where
  refl := Steps.refl d
  trans _ _ _ first second := trans_of (Machine.Steps step d) first second

variable (d : CounterId)

/-! ## Parts of a session -/

omit [IsPreorder Counter step] in
theorem onMachine_follows {α : Type} {x : Action Machine α}
    (follows : Follows (Machine.Steps step d) x) : Follows (Steps step d) (onMachine x) :=
  follows.onPart fun _ _ moves => moves

omit [IsPreorder Counter step] in
theorem onMemory_follows {α : Type} {x : Action Memory α}
    (follows : Follows (Memory.Steps step d) x) :
    Follows (Steps step d) (onMemory x) :=
  follows.onPart fun _ _ moves => ⟨rfl, rfl, moves⟩

theorem onNamedStack_follows {α : Type} (name : String) {x : Action (Memory × Stack) α}
    (follows : Follows (StepsBeside step d) x) : Follows (Steps step d) (onNamedStack name x) := by
  refine .get_bind fun s => ?_
  split
  · exact .refuse _
  · exact follows.onPart fun _ _ moves => ⟨rfl, rfl, moves⟩

theorem onNamedSlot_follows {α : Type} (name : String) {x : Action (Memory × Slot) α}
    (follows : Follows (StepsBeside step d) x) : Follows (Steps step d) (onNamedSlot name x) := by
  refine .get_bind fun s => ?_
  split
  · exact .refuse _
  · exact follows.onPart fun _ _ moves => ⟨rfl, rfl, moves⟩

theorem onStack_follows {α : Type} (target : Option String) {x : Action (Memory × Stack) α}
    (follows : Follows (StepsBeside step d) x) : Follows (Steps step d) (onStack target x) := by
  cases target with
  | none => exact onMachine_follows d (Machine.onStack_follows d follows)
  | some name => exact onNamedStack_follows d name follows

theorem bind_follows (name : String) (x : Item) : Follows (Steps step d) (bind name x) :=
  .modify fun s => .refl d s

theorem lookup_follows (name : String) : Follows (Steps step d) (lookup name) := by
  refine .get_bind fun s => ?_
  split
  · exact .pure _
  · exact .refuse _

theorem target_follows (kinds : List ObjectKind) (name : String) :
    Follows (Steps step d) (target kinds name) := by
  refine (lookup_follows d name).bind fun x => ?_
  split
  · split
    · exact .pure _
    · exact .refuse _
  · exact .refuse _

include down in
theorem steps_dropStack (name : String) (s : Session) : s.Steps step d (s.dropStack name) := by
  rw [dropStack]
  split
  · exact .refl d s
  · rename_i stack _
    exact ⟨rfl, rfl, Stack.steps_drop down d stack s.memory⟩

include down in
theorem steps_dropSlot (name : String) (s : Session) : s.Steps step d (s.dropSlot name) := by
  rw [dropSlot]
  split
  · exact .refl d s
  · rename_i slot _
    exact ⟨rfl, rfl, Slot.steps_drop down d slot s.memory⟩

theorem steps_foldl {f : String → Session → Session}
    (each : ∀ (name : String) (s : Session), s.Steps step d (f name s)) (names : List String)
    (s : Session) :
    s.Steps step d (names.foldl (fun s name => f name s) s) := by
  induction names generalizing s with
  | nil => exact .refl d s
  | cons name names ih => exact trans_of (Steps step d) (each name s) (ih (f name s))

include down in
theorem steps_close (s : Session) : s.Steps step d s.close := by
  have slots := fun names : List String => steps_foldl d (steps_dropSlot down d) names
  have stacked := fun names : List String => steps_foldl d (steps_dropStack down d) names
  have last : ∀ s : Session, s.Steps step d (s.setMemory s.machine.shutDown) := fun s =>
    ⟨rfl, rfl, Machine.steps_shutDown down d s.machine⟩
  exact trans_of (Steps step d) (trans_of (Steps step d) (slots _ s) (stacked _ _)) (last _)

include down in
theorem placeStack_follows (name : String) (stack : Stack) :
    Follows (Steps step d) (placeStack name stack) :=
  .modify fun s => steps_dropStack down d name s

include down in
theorem placeSlot_follows (name : String) (slot : Slot) :
    Follows (Steps step d) (placeSlot name slot) :=
  .modify fun s => steps_dropSlot down d name s

/-! ## Commands -/

theorem value_follows (round : Nat) (x : Operand) : Follows (Steps step d) (value round x) := by
  cases x with
  | leaf l => exact .pure _
  | named name => exact lookup_follows d name
  | round => exact .pure _

theorem values_follows (round : Nat) (xs : List Operand) :
    Follows (Steps step d) (values round xs) := by
  induction xs with
  | nil => exact .pure []
  | cons x xs ih => exact (value_follows d round x).bind fun x => ih.bind fun xs => .pure (x :: xs)

theorem objectId?_follows (round : Nat) (x : ObjectRef) :
    Follows (Steps step d) (objectId? round x) := by
  cases x with
  | operand x => exact (value_follows d round x).bind fun x => .pure x.id?
  | ordinal n => exact .get_bind fun s => .pure _

include up in
theorem createItem_follows (round : Nat) (what : Creation) :
    Follows (Steps step d) (createItem round what) := by
  match what with
  | .list kind items owner =>
    refine (values_follows d round items).bind fun items => ?_
    exact (onMemory_follows d (ListObject.create_follows d owner items)).answers _
  | .map owner => exact (onMemory_follows d (MapObject.create_follows d owner)).answers _
  | .buffer bytes => exact (onMemory_follows d (Memory.newObject_follows d _)).answers _
  | .interop interface => exact fun s => .refl d s
  | .alias x => exact value_follows d round x
  | .copy source limits =>
    refine (target_follows d [.struct] source).bind fun id => ?_
    exact (onMemory_follows d (ListObject.copyStruct_follows up d id _)).answers _

section Perform

variable (round : Nat)

theorem performList_follows (id : ItemId) (command : ListCommand)
    (up : command.adds → Subrelation Counter.Grows step)
    (down : command.removes → Subrelation Counter.Sinks step) :
    Follows (Steps step d) (performList round id command) := by
  cases command with
  | push x =>
    refine (value_follows d round x).bind fun x => ?_
    exact (onMemory_follows d (ListObject.push_follows (up rfl) d id x)).answers _
  | set index x =>
    refine (value_follows d round x).bind fun x => ?_
    exact (onMemory_follows d (ListObject.set_follows (up rfl) (down rfl) d id index x)).answers _
  | insert index x =>
    refine (value_follows d round x).bind fun x => ?_
    exact (onMemory_follows d (ListObject.insert_follows (up rfl) d id index x)).answers _
  | remove index =>
    exact (onMemory_follows d (ListObject.remove_follows (down rfl) d id index)).answers _
  | pop => exact (onMemory_follows d (ListObject.pop_follows (down rfl) d id)).answers _
  | clear => exact (onMemory_follows d (ListObject.clear_follows (down rfl) d id)).answers _
  | reverse => exact (onMemory_follows d (ListObject.reverse_follows d id)).answers _
  | setReadOnly b =>
    exact (onMemory_follows d (Memory.setReadOnly_follows d id b)).answers _
  | get | size | items | isReadOnly => exact .get_bind fun _ => .pure _

theorem performMap_follows (id : ItemId) (command : MapCommand)
    (up : command.adds → Subrelation Counter.Grows step)
    (down : command.removes → Subrelation Counter.Sinks step) :
    Follows (Steps step d) (performMap round id command) := by
  cases command with
  | set k v =>
    refine (value_follows d round k).bind fun k => ?_
    refine (value_follows d round v).bind fun v => ?_
    exact (onMemory_follows d (MapObject.set_follows (up rfl) (down rfl) d id k v)).answers _
  | get k =>
    refine (value_follows d round k).bind fun k => ?_
    exact (onMemory_follows d (MapObject.get?_follows d id k)).answers _
  | remove k =>
    refine (value_follows d round k).bind fun k => ?_
    exact (onMemory_follows d (MapObject.remove_follows (down rfl) d id k)).answers _
  | contains k =>
    refine (value_follows d round k).bind fun k => ?_
    exact (onMemory_follows d (MapObject.contains_follows d id k)).answers _
  | clear => exact (onMemory_follows d (MapObject.clear_follows (down rfl) d id)).answers _
  | setReadOnly b =>
    exact (onMemory_follows d (Memory.setReadOnly_follows d id b)).answers _
  | keys | values | size | isReadOnly => exact .get_bind fun _ => .pure _

theorem performBuffer_follows (id : ItemId) (command : BufferCommand) :
    Follows (Steps step d) (performBuffer id command) := by
  cases command with
  | set index b =>
    exact (onMemory_follows d (BufferObject.set_follows d id index b)).answers _
  | get | bytes | size => exact .get_bind fun _ => .pure _

theorem performCounter_follows (c : CounterId) (command : CounterCommand)
    (up : command.adds → Subrelation Counter.Grows step)
    (wide : command.addsRoots → Subrelation Counter.Swells step)
    (down : command.removes → Subrelation Counter.Sinks step)
    (kept : Command.onCounter c command ≠ .onCounter d .resetPeak) :
    Follows (Steps step d) (performCounter round c command) := by
  cases command with
  | addRoots x n =>
    refine (value_follows d round x).bind fun x => ?_
    exact (onMemory_follows d (Memory.addLooseRoots_follows d (wide rfl) c x n)).answers _
  | removeRoot x =>
    refine (value_follows d round x).bind fun x => ?_
    exact (onMemory_follows d (Memory.removeRoot_follows (down rfl) d c x)).answers _
  | addOccurrence x parent =>
    refine (value_follows d round x).bind fun x => ?_
    refine (objectId?_follows d round parent).bind fun id? => ?_
    cases id? with
    | none => exact .pure _
    | some id =>
      exact (onMemory_follows d (Memory.addOccurrence_follows (up rfl) d c x id)).answers _
  | removeOccurrence x parent =>
    refine (value_follows d round x).bind fun x => ?_
    refine (objectId?_follows d round parent).bind fun id? => ?_
    cases id? with
    | none => exact .pure _
    | some id =>
      exact (onMemory_follows d (Memory.removeOccurrence_follows (down rfl) d c x id)).answers _
  | suspect x =>
    refine (value_follows d round x).bind fun x => ?_
    exact (onMemory_follows d (Memory.suspect_follows (up rfl) d c x)).answers _
  | collect => exact (onMemory_follows d (Memory.collect_follows (down rfl) d c)).answers _
  | resetPeak =>
    have other : c ≠ d := fun same => kept (same ▸ rfl)
    exact (onMemory_follows d (Memory.resetPeak_follows d other)).answers _
  | references x => exact (value_follows d round x).bind fun x => .get_bind fun _ => .pure _
  | multiplicity parent x =>
    refine (value_follows d round parent).bind fun parent => ?_
    exact (value_follows d round x).bind fun x => .get_bind fun _ => .pure _
  | isSame other => exact .pure _

theorem performStack_follows (name : Option String) (command : StackCommand)
    (up : command.adds → Subrelation Counter.Grows step)
    (down : command.removes → Subrelation Counter.Sinks step) :
    Follows (Steps step d) (performStack round name command) := by
  cases command with
  | push x =>
    refine (value_follows d round x).bind fun x => ?_
    exact (onStack_follows d name (Stack.push_follows (up rfl) d x)).answers _
  | pop => exact (onStack_follows d name (Stack.pop_follows (down rfl) d)).answers _
  | remove depth =>
    exact (onStack_follows d name (Stack.remove_follows (down rfl) d depth)).answers _
  | insert depth x =>
    refine (value_follows d round x).bind fun x => ?_
    exact (onStack_follows d name (Stack.insert_follows (up rfl) d depth x)).answers _
  | reverse n => exact (onStack_follows d name (Stack.reverse_follows d n)).answers _
  | clear => exact (onStack_follows d name (Stack.clear_follows (down rfl) d)).answers _
  | peek depth =>
    refine (onStack_follows d name ?_).answers _
    exact .get_bind fun s => .lift (s.2.peek depth)
  | size | items | counter =>
    exact (onStack_follows d name (.get_bind fun _ => .pure _)).answers _

theorem performSlot_follows (name : String) (command : SlotCommand)
    (up : command.adds → Subrelation Counter.Grows step)
    (down : command.removes → Subrelation Counter.Sinks step) :
    Follows (Steps step d) (performSlot round name command) := by
  cases command with
  | get index =>
    exact (onNamedSlot_follows d name (.get_bind fun s => .lift (s.2.get? index))).answers _
  | set index x =>
    refine (value_follows d round x).bind fun x => ?_
    exact (onNamedSlot_follows d name (Slot.set_follows (up rfl) (down rfl) d index x)).answers _
  | clear => exact (onNamedSlot_follows d name (Slot.clear_follows (down rfl) d)).answers _
  | size | items =>
    exact (onNamedSlot_follows d name (.get_bind fun _ => .pure _)).answers _

theorem performEngine_follows (command : EngineCommand)
    (up : command.adds → Subrelation Counter.Grows step)
    (down : command.removes → Subrelation Counter.Sinks step) :
    Follows (Steps step d) (performEngine round command) := by
  cases command with
  | push x =>
    refine (value_follows d round x).bind fun x => ?_
    exact (onMachine_follows d (Machine.push_follows (up rfl) d x)).answers _
  | pop => exact (onMachine_follows d (Machine.pop_follows (down rfl) d)).answers _
  | peek depth => exact (onMachine_follows d (Machine.peek_follows d depth)).answers _
  | initStatics n =>
    exact (onMachine_follows d (Machine.initStatics_follows (up rfl) (down rfl) d n)).answers _
  | loadStatic index =>
    exact (onMachine_follows d (Machine.loadStatic_follows (up rfl) d index)).answers _
  | storeStatic index =>
    exact (onMachine_follows d (Machine.storeStatic_follows (up rfl) (down rfl) d index)).answers _
  | collect => exact (onMachine_follows d (Machine.collect_follows (down rfl) d)).answers _
  | checkLimit => exact (onMachine_follows d (Machine.checkLimit_follows d)).answers _
  | halt => exact (onMachine_follows d (Machine.halt_follows d)).answers _
  | describe => exact .get_bind fun _ => .pure _

theorem perform_follows (command : Command)
    (up : command.adds → Subrelation Counter.Grows step)
    (wide : command.addsRoots → Subrelation Counter.Swells step)
    (down : command.removes → Subrelation Counter.Sinks step)
    (kept : command ≠ .onCounter d .resetPeak) :
    Follows (Steps step d) (perform round command) := by
  cases command with
  | create name what =>
    refine (createItem_follows (up rfl) d round what).bind fun x => ?_
    exact (bind_follows d name x).answers _
  | forget name => exact .bind (.modify fun s => .refl d s) fun _ => .pure _
  | describe x => exact (value_follows d round x).bind fun x => .get_bind fun _ => .pure _
  | equal a b =>
    refine (value_follows d round a).bind fun a => ?_
    exact (value_follows d round b).bind fun b => .pure _
  | distinct xs => exact (values_follows d round xs).answers _
  | onList name command =>
    exact (target_follows d _ name).bind fun id => performList_follows d round id command up down
  | onMap name command =>
    exact (target_follows d _ name).bind fun id => performMap_follows d round id command up down
  | onBuffer name command =>
    exact (target_follows d _ name).bind fun id => performBuffer_follows d id command
  | newCounter => exact (onMemory_follows d (Memory.newCounter_follows d)).answers _
  | onCounter c command => exact performCounter_follows d round c command up wide down kept
  | newStack name c => exact (placeStack_follows (down rfl) d name _).answers _
  | dropStack name => exact .bind (.modify (steps_dropStack (down rfl) d name)) fun _ => .pure _
  | onStack name command => exact performStack_follows d round name command up down
  | newSlot name xs c =>
    refine (values_follows d round xs).bind fun xs => ?_
    refine (onMemory_follows d (Slot.create_follows (up rfl) (down rfl) d c xs)).bind fun slot => ?_
    exact (placeSlot_follows (down rfl) d name slot).answers _
  | newNullSlot name n c =>
    refine (onMemory_follows d (Slot.createNulls_follows (up rfl) d c n)).bind fun slot => ?_
    exact (placeSlot_follows (down rfl) d name slot).answers _
  | dropSlot name => exact .bind (.modify (steps_dropSlot (down rfl) d name)) fun _ => .pure _
  | onSlot name command => exact performSlot_follows d round name command up down
  | onEngine command => exact performEngine_follows d round command up down

theorem performNamed_follows (command : Command) (saveAs : Option String)
    (up : command.adds → Subrelation Counter.Grows step)
    (wide : command.addsRoots → Subrelation Counter.Swells step)
    (down : command.removes → Subrelation Counter.Sinks step)
    (kept : command ≠ .onCounter d .resetPeak) :
    Follows (Steps step d) (performNamed round command saveAs) := by
  refine (perform_follows d round command up wide down kept).bind fun answer => ?_
  split
  · exact (bind_follows d _ _).answers _
  · exact .pure _

end Perform

end Session

end LiveItems
