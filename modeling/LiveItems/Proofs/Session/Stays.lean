import LiveItems.Session.Run
import LiveItems.Proofs.Ends
set_option autoImplicit false

namespace LiveItems

open LiveItems.Action (Follows)

namespace Machine

structure Stays (s t : Machine) : Prop where
  stage : t.engine.stage = s.engine.stage
  fault : t.engine.fault = s.engine.fault

instance : IsPreorder Machine Stays where
  refl _ := ⟨rfl, rfl⟩
  trans _ _ _ first second :=
    ⟨second.stage.trans first.stage, second.fault.trans first.fault⟩

theorem onMemory_stays {α : Type} (x : Action Memory α) : Follows Stays (onMemory x) :=
  fun _ => ⟨rfl, rfl⟩

theorem onStack_stays {α : Type} (x : Action (Memory × Stack) α) : Follows Stays (onStack x) :=
  fun _ => ⟨rfl, rfl⟩

theorem setStatics_stays (statics : Option Slot) : Follows Stays (setStatics statics) :=
  .modify fun _ => ⟨rfl, rfl⟩

theorem checkLimit_stays : Follows Stays checkLimit := by
  refine .get_bind fun s => ?_
  by_cases exceeded : s.counter.peak > s.engine.limits.maxLiveItems
  · simp only [if_pos exceeded]
    exact .throw _
  · simp only [if_neg exceeded]
    exact .pure ()

theorem push_stays (x : Item) : Follows Stays (push x) :=
  (onStack_stays _).bind fun _ => checkLimit_stays

theorem peek_stays (depth : Int) : Follows Stays (peek depth) :=
  .get_bind fun s => .lift (s.engine.stack.peek depth)

theorem initStatics_stays (n : Nat) : Follows Stays (initStatics n) := by
  refine .get_bind fun s => ?_
  have create : Follows Stays (do
      let slot ← onMemory (Slot.createNulls s.engine.counter n)
      setStatics (some slot)
      checkLimit) :=
    (onMemory_stays _).bind fun slot => (setStatics_stays _).bind fun _ => checkLimit_stays
  cases s.engine.statics with
  | none => exact create
  | some old => exact (setStatics_stays none).bind fun _ => (onMemory_stays _).bind fun _ => create

theorem loadStatic_stays (index : Nat) : Follows Stays (loadStatic index) := by
  refine .get_bind fun s => ?_
  split
  · exact .refuse _
  · exact (Follows.lift _).bind fun x => push_stays x

theorem storeStatic_stays (index : Nat) : Follows Stays (storeStatic index) := by
  refine (peek_stays 0).bind fun x => ?_
  refine .get_bind fun s => ?_
  split
  · exact .refuse _
  · refine .bind (fun _ => ⟨rfl, rfl⟩) fun _ => ?_
    exact (onStack_stays Stack.pop).bind fun _ => .pure ()

theorem collect_stays : Follows Stays collect := .get_bind fun _ => onMemory_stays _

theorem checkpoint_stays : Follows Stays checkpoint := by
  refine .bind (.modify fun _ => ⟨rfl, rfl⟩) fun _ => ?_
  refine checkLimit_stays.bind fun _ => .get_bind fun s => ?_
  by_cases due : s.engine.executed % s.engine.limits.collectionInterval = 0
  · simp only [if_pos due]
    exact collect_stays.bind fun _ => onMemory_stays _
  · simp only [if_neg due]
    exact onMemory_stays _

theorem apply_halt (s : Machine) :
    halt.apply s =
      if s.engine.stage = .faulted then
        (.error (.invalidOperation .haltAfterFault), s)
      else
        (.ok (), { s with engine := { s.engine with stage := .halted } }) := by
  rw [halt, Action.apply_bind, Action.apply_get]
  by_cases faulted : s.engine.stage = .faulted
  · simp only [if_pos faulted, Action.apply_refuse]
  · simp only [if_neg faulted, Action.apply_modify]

/-- The end of an instruction records its error as the fault, or leaves the stage alone. -/
theorem conclude_stage (result : Except Error Unit) (s : Machine) :
    (∃ e t, conclude result s = (.error e, t) ∧ t.engine.stage = .faulted ∧
      t.engine.fault = some e) ∨ ∃ t, conclude result s = (.ok (), t) ∧ s.Stays t := by
  cases result with
  | error e => exact .inl ⟨e, s.raise e, rfl, rfl, rfl⟩
  | ok u =>
    have stays := checkpoint_stays s
    rcases run : checkpoint.apply s with ⟨e | u, t⟩
    · refine .inl ⟨e, t.raise e, ?_, rfl, rfl⟩
      simp only [conclude, run]
    · rw [run] at stays
      refine .inr ⟨t, ?_, stays⟩
      simp only [conclude, run]

end Machine

namespace Session

def stage (s : Session) : Stage := s.machine.engine.stage

def fault (s : Session) : Option Error := s.machine.engine.fault

def Stays (s t : Session) : Prop := s.machine.Stays t.machine

theorem Stays.refl (s : Session) : s.Stays s := ⟨rfl, rfl⟩

instance : IsPreorder Session Stays where
  refl := Stays.refl
  trans _ _ _ first second := trans_of Machine.Stays first second

variable {α : Type}

theorem onMachine_stays {x : Action Machine α} (stays : Follows Machine.Stays x) :
    Follows Stays (onMachine x) := stays.onPart fun _ _ stays => stays

theorem onMemory_stays (x : Action Memory α) : Follows Stays (onMemory x) := fun _ => ⟨rfl, rfl⟩

theorem onNamedStack_stays (name : String) (x : Action (Memory × Stack) α) :
    Follows Stays (onNamedStack name x) := by
  refine .get_bind fun s => ?_
  split
  · exact .refuse _
  · exact fun _ => ⟨rfl, rfl⟩

theorem onNamedSlot_stays (name : String) (x : Action (Memory × Slot) α) :
    Follows Stays (onNamedSlot name x) := by
  refine .get_bind fun s => ?_
  split
  · exact .refuse _
  · exact fun _ => ⟨rfl, rfl⟩

theorem onStack_stays (target : Option String) (x : Action (Memory × Stack) α) :
    Follows Stays (onStack target x) := by
  cases target with
  | none => exact onMachine_stays (Machine.onStack_stays x)
  | some name => exact onNamedStack_stays name x

theorem lookup_stays (name : String) : Follows Stays (lookup name) := by
  refine .get_bind fun s => ?_
  split
  · exact .pure _
  · exact .refuse _

theorem target_stays (kinds : List ObjectKind) (name : String) :
    Follows Stays (target kinds name) := by
  refine (lookup_stays name).bind fun x => ?_
  split
  · split
    · exact .pure _
    · exact .refuse _
  · exact .refuse _

theorem stays_dropStack (name : String) (s : Session) : s.Stays (s.dropStack name) := by
  rw [dropStack]
  split
  · exact .refl s
  · exact ⟨rfl, rfl⟩

theorem stays_dropSlot (name : String) (s : Session) : s.Stays (s.dropSlot name) := by
  rw [dropSlot]
  split
  · exact .refl s
  · exact ⟨rfl, rfl⟩

theorem placeStack_stays (name : String) (stack : Stack) :
    Follows Stays (placeStack name stack) := .modify fun s => stays_dropStack name s

theorem placeSlot_stays (name : String) (slot : Slot) : Follows Stays (placeSlot name slot) :=
  .modify fun s => stays_dropSlot name s

theorem value_stays (round : Nat) (x : Operand) : Follows Stays (value round x) := by
  cases x with
  | leaf l => exact .pure _
  | named name => exact lookup_stays name
  | round => exact .pure _

theorem values_stays (round : Nat) (xs : List Operand) : Follows Stays (values round xs) := by
  induction xs with
  | nil => exact .pure []
  | cons x xs ih => exact (value_stays round x).bind fun x => ih.bind fun xs => .pure (x :: xs)

theorem objectId?_stays (round : Nat) (x : ObjectRef) : Follows Stays (objectId? round x) := by
  cases x with
  | operand x => exact (value_stays round x).bind fun x => .pure x.id?
  | ordinal n => exact .get_bind fun s => .pure _

section Perform

variable (round : Nat)

/-- Once the operands are known, the rest goes on in the memory. -/
theorem value_bind_stays {x : Operand} {f : Item → Action Session α}
    (next : ∀ x, Follows Stays (f x)) : Follows Stays (value round x >>= f) :=
  (value_stays round x).bind next

theorem onMemory_bind_stays {β : Type} {x : Action Memory β} {f : β → Action Session α}
    (next : ∀ b, Follows Stays (f b)) : Follows Stays (onMemory x >>= f) :=
  (onMemory_stays x).bind next

theorem createItem_stays (what : Creation) : Follows Stays (createItem round what) := by
  match what with
  | .list kind items owner =>
    exact (values_stays round items).bind fun _ => onMemory_bind_stays fun _ => .pure _
  | .map owner => exact onMemory_bind_stays fun _ => .pure _
  | .buffer bytes => exact onMemory_bind_stays fun _ => .pure _
  | .interop interface => exact fun s => .refl s
  | .alias x => exact value_stays round x
  | .copy source limits =>
    exact (target_stays _ source).bind fun _ => onMemory_bind_stays fun _ => .pure _

theorem performList_stays (id : ItemId) (command : ListCommand) :
    Follows Stays (performList round id command) := by
  cases command with
  | push | set | insert =>
    exact value_bind_stays round fun _ => onMemory_bind_stays fun _ => .pure _
  | remove | pop | clear | reverse | setReadOnly => exact onMemory_bind_stays fun _ => .pure _
  | get | size | items | isReadOnly => exact .get_bind fun _ => .pure _

theorem performMap_stays (id : ItemId) (command : MapCommand) :
    Follows Stays (performMap round id command) := by
  cases command with
  | set =>
    refine value_bind_stays round fun k => value_bind_stays round fun v => ?_
    exact onMemory_bind_stays fun _ => .pure _
  | get | remove | contains =>
    exact value_bind_stays round fun _ => onMemory_bind_stays fun _ => .pure _
  | clear | setReadOnly => exact onMemory_bind_stays fun _ => .pure _
  | keys | values | size | isReadOnly => exact .get_bind fun _ => .pure _

theorem performBuffer_stays (id : ItemId) (command : BufferCommand) :
    Follows Stays (performBuffer id command) := by
  cases command with
  | set => exact onMemory_bind_stays fun _ => .pure _
  | get | bytes | size => exact .get_bind fun _ => .pure _

theorem performCounter_stays (c : CounterId) (command : CounterCommand) :
    Follows Stays (performCounter round c command) := by
  cases command with
  | addRoots | removeRoot | suspect =>
    exact value_bind_stays round fun _ => onMemory_bind_stays fun _ => .pure _
  | addOccurrence x parent | removeOccurrence x parent =>
    refine value_bind_stays round fun x => (objectId?_stays round parent).bind fun id? => ?_
    cases id? with
    | none => exact .pure _
    | some id => exact onMemory_bind_stays fun _ => .pure _
  | collect | resetPeak => exact onMemory_bind_stays fun _ => .pure _
  | references => exact value_bind_stays round fun _ => .get_bind fun _ => .pure _
  | multiplicity =>
    exact value_bind_stays round fun _ => value_bind_stays round fun _ => .get_bind fun _ => .pure _
  | isSame => exact .pure _

theorem performStack_stays (name : Option String) (command : StackCommand) :
    Follows Stays (performStack round name command) := by
  cases command with
  | push | insert =>
    exact value_bind_stays round fun _ => (onStack_stays name _).bind fun _ => .pure _
  | pop | peek | remove | reverse | clear | size | items | counter =>
    exact (onStack_stays name _).bind fun _ => .pure _

theorem performSlot_stays (name : String) (command : SlotCommand) :
    Follows Stays (performSlot round name command) := by
  cases command with
  | set => exact value_bind_stays round fun _ => (onNamedSlot_stays name _).bind fun _ => .pure _
  | get | clear | size | items => exact (onNamedSlot_stays name _).bind fun _ => .pure _

theorem performEngine_stays {command : EngineCommand} (other : command ≠ .halt) :
    Follows Stays (performEngine round command) := by
  cases command with
  | push x =>
    exact value_bind_stays round fun x => (onMachine_stays (Machine.push_stays x)).bind fun _ =>
      .pure _
  | pop => exact (onMachine_stays (Machine.onStack_stays Stack.pop)).bind fun _ => .pure _
  | peek depth => exact (onMachine_stays (Machine.peek_stays depth)).bind fun _ => .pure _
  | initStatics n => exact (onMachine_stays (Machine.initStatics_stays n)).bind fun _ => .pure _
  | loadStatic i => exact (onMachine_stays (Machine.loadStatic_stays i)).bind fun _ => .pure _
  | storeStatic i => exact (onMachine_stays (Machine.storeStatic_stays i)).bind fun _ => .pure _
  | collect => exact (onMachine_stays Machine.collect_stays).bind fun _ => .pure _
  | checkLimit => exact (onMachine_stays Machine.checkLimit_stays).bind fun _ => .pure _
  | halt => exact absurd rfl other
  | describe => exact .get_bind fun _ => .pure _

theorem perform_stays {command : Command} (other : command ≠ .onEngine .halt) :
    Follows Stays (perform round command) := by
  cases command with
  | create name what =>
    refine (createItem_stays round what).bind fun x => ?_
    exact .bind (.modify fun s => .refl s) fun _ => .pure _
  | forget name => exact .bind (.modify fun s => .refl s) fun _ => .pure _
  | describe => exact value_bind_stays round fun _ => .get_bind fun _ => .pure _
  | equal => exact value_bind_stays round fun _ => value_bind_stays round fun _ => .pure _
  | distinct xs => exact (values_stays round xs).bind fun _ => .pure _
  | onList name command =>
    exact (target_stays _ name).bind fun id => performList_stays round id command
  | onMap name command =>
    exact (target_stays _ name).bind fun id => performMap_stays round id command
  | onBuffer name command =>
    exact (target_stays _ name).bind fun id => performBuffer_stays id command
  | newCounter => exact onMemory_bind_stays fun _ => .pure _
  | onCounter c command => exact performCounter_stays round c command
  | newStack name c => exact (placeStack_stays name _).bind fun _ => .pure _
  | dropStack name => exact .bind (.modify (stays_dropStack name)) fun _ => .pure _
  | onStack name command => exact performStack_stays round name command
  | newSlot name xs c =>
    refine (values_stays round xs).bind fun xs => onMemory_bind_stays fun slot => ?_
    exact (placeSlot_stays name slot).bind fun _ => .pure _
  | newNullSlot name n c =>
    exact onMemory_bind_stays fun slot => (placeSlot_stays name slot).bind fun _ => .pure _
  | dropSlot name => exact .bind (.modify (stays_dropSlot name)) fun _ => .pure _
  | onSlot name command => exact performSlot_stays round name command
  | onEngine command => exact performEngine_stays round fun same => other (by rw [same])

/-- No other command than a halt changes the stage. -/
theorem performNamed_stays {command : Command} (saveAs : Option String)
    (other : command ≠ .onEngine .halt) : Follows Stays (performNamed round command saveAs) := by
  refine (perform_stays round other).bind fun answer => ?_
  split
  · exact .bind (.modify fun s => .refl s) fun _ => .pure _
  · exact .pure _

theorem apply_performNamed_halt (saveAs : Option String) (s : Session) :
    (performNamed round (.onEngine .halt) saveAs).apply s =
      if s.stage = .faulted then
        (.error (.invalidOperation .haltAfterFault), s)
      else
        (.ok .done, { s with machine.engine.stage := .halted }) := by
  by_cases faulted : s.stage = .faulted
  · have refused := (Machine.apply_halt s.machine).trans (if_pos faulted)
    rw [if_pos faulted]
    simp only [performNamed, perform, performEngine, onMachine, Action.apply_bind,
      Action.apply_onPart, refused]
  · have halted := (Machine.apply_halt s.machine).trans (if_neg faulted)
    rw [if_neg faulted]
    simp only [performNamed, perform, performEngine, onMachine, Action.apply_bind,
      Action.apply_onPart, halted, Action.apply_pure]
    cases saveAs <;> rfl

end Perform

end Session

end LiveItems
