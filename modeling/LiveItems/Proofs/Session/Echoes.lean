import LiveItems.Proofs.Session.Rename
import LiveItems.Proofs.Stages
set_option autoImplicit false

namespace LiveItems

open LiveItems.Action (Echoes renamed renamed_ok renamed_error)

variable {f : ItemId ↪ ItemId}

namespace Session

theorem value_echoes (round : Nat) (x : Operand) :
    Echoes f (Item.rename f) (rename f) (value round x) (value round x) := by
  cases x with
  | leaf l => exact .pure (Item.leaf l)
  | named name => exact lookup_echoes name
  | round => exact .pure (Item.leaf (.integer round))

theorem values_echoes (round : Nat) (xs : List Operand) :
    Echoes f (List.map (Item.rename f)) (rename f) (values round xs) (values round xs) := by
  induction xs with
  | nil => exact .pure []
  | cons x xs ih => exact (value_echoes round x).bind fun y => ih.map fun _ => rfl

theorem objectId?_echoes (round : Nat) (ref : ObjectRef) :
    Echoes f (Option.map f) (rename f) (objectId? round ref) (objectId? round ref) := by
  cases ref with
  | operand x => exact (value_echoes round x).map (Item.id?_rename f)
  | ordinal n => exact .read fun _ => rfl

theorem createItem_echoes (round : Nat) (what : Creation) :
    Echoes f (Item.rename f) (rename f) (createItem round what) (createItem round what) := by
  match what with
  | .list kind items owner =>
    exact (values_echoes round items).bind fun xs =>
      (onMemory_echoes (ListObject.create_echoes owner xs)).map fun _ => rfl
  | .map owner => exact (onMemory_echoes (MapObject.create_echoes owner)).map fun _ => rfl
  | .buffer bytes => exact (onMemory_echoes (BufferObject.create_echoes bytes)).map fun _ => rfl
  | .interop interface => exact fun _ => rfl
  | .alias x => exact value_echoes round x
  | .copy source limits =>
    exact (target_echoes [.struct] source).bind fun a =>
      (onMemory_echoes (ListObject.copyStruct_echoes a limits.maxLiveItems)).map fun _ => rfl

abbrev Answers (f : ItemId ↪ ItemId) (y x : Action Session Answer) : Prop :=
  Echoes f (Answer.rename f) (rename f) y x

variable (round : Nat)

theorem performList_echoes (a : ItemId) (command : ListCommand) :
    Answers f (performList round (f a) command) (performList round a command) := by
  cases command with
  | push x =>
    exact (value_echoes round x).bind fun y =>
      (onMemory_echoes (ListObject.push_echoes a y)).map fun _ => rfl
  | set index x =>
    exact (value_echoes round x).bind fun y =>
      (onMemory_echoes (ListObject.set_echoes a index y)).map fun _ => rfl
  | insert index x =>
    exact (value_echoes round x).bind fun y =>
      (onMemory_echoes (ListObject.insert_echoes a index y)).map fun _ => rfl
  | remove index => exact (onMemory_echoes (ListObject.remove_echoes a index)).map fun _ => rfl
  | pop => exact (onMemory_echoes (ListObject.pop_echoes a)).map fun _ => rfl
  | clear => exact (onMemory_echoes (ListObject.clear_echoes a)).map fun _ => rfl
  | reverse => exact (onMemory_echoes (ListObject.reverse_echoes a)).map fun _ => rfl
  | get index => exact .read fun s => congrArg Answer.option (by simp)
  | size => exact .read fun s => congrArg Answer.size (by simp)
  | items => exact .read fun s => congrArg Answer.items (by simp)
  | setReadOnly value =>
    exact (onMemory_echoes (Memory.setReadOnly_echoes a value)).map fun _ => rfl
  | isReadOnly => exact .read fun s => congrArg Answer.flag (by simp)

theorem performMap_echoes (a : ItemId) (command : MapCommand) :
    Answers f (performMap round (f a) command) (performMap round a command) := by
  cases command with
  | set k v =>
    exact (value_echoes round k).bind fun k => (value_echoes round v).bind fun v =>
      (onMemory_echoes (MapObject.set_echoes a k v)).map fun _ => rfl
  | get k =>
    exact (value_echoes round k).bind fun k =>
      (onMemory_echoes (MapObject.get?_echoes a k)).map fun _ => rfl
  | remove k =>
    exact (value_echoes round k).bind fun k =>
      (onMemory_echoes (MapObject.remove_echoes a k)).map fun _ => rfl
  | contains k =>
    exact (value_echoes round k).bind fun k =>
      (onMemory_echoes (MapObject.contains_echoes a k)).map fun _ => rfl
  | clear => exact (onMemory_echoes (MapObject.clear_echoes a)).map fun _ => rfl
  | keys => exact .read fun s => congrArg Answer.items (by simp)
  | values => exact .read fun s => congrArg Answer.items (by simp)
  | size => exact .read fun s => congrArg Answer.size (by simp)
  | setReadOnly value =>
    exact (onMemory_echoes (Memory.setReadOnly_echoes a value)).map fun _ => rfl
  | isReadOnly => exact .read fun s => congrArg Answer.flag (by simp)

theorem performBuffer_echoes (a : ItemId) (command : BufferCommand) :
    Answers f (performBuffer (f a) command) (performBuffer a command) := by
  cases command with
  | get index => exact .read fun s => congrArg Answer.byte (by simp)
  | set index b => exact (onMemory_echoes (BufferObject.set_echoes a index b)).map fun _ => rfl
  | bytes => exact .read fun s => congrArg Answer.bytes (by simp)
  | size => exact .read fun s => congrArg Answer.size (by simp)

theorem performCounter_echoes (c : CounterId) (command : CounterCommand) :
    Answers f (performCounter round c command) (performCounter round c command) := by
  cases command with
  | addRoots x n =>
    exact (value_echoes round x).bind fun y =>
      (onMemory_echoes (Memory.addLooseRoots_echoes c y n)).map fun _ => rfl
  | removeRoot x =>
    exact (value_echoes round x).bind fun y =>
      (onMemory_echoes (Memory.removeRoot_echoes c y)).map fun _ => rfl
  | addOccurrence x parent =>
    refine (value_echoes round x).bind fun y => (objectId?_echoes round parent).bind fun a? => ?_
    cases a? with
    | none => exact .pure Answer.done
    | some a => exact (onMemory_echoes (Memory.addOccurrence_echoes c y a)).map fun _ => rfl
  | removeOccurrence x parent =>
    refine (value_echoes round x).bind fun y => (objectId?_echoes round parent).bind fun a? => ?_
    cases a? with
    | none => exact .pure Answer.done
    | some a => exact (onMemory_echoes (Memory.removeOccurrence_echoes c y a)).map fun _ => rfl
  | suspect x =>
    exact (value_echoes round x).bind fun y =>
      (onMemory_echoes (Memory.suspect_echoes c y)).map fun _ => rfl
  | collect => exact (onMemory_echoes (Memory.collect_echoes c)).map fun _ => rfl
  | resetPeak => exact (onMemory_echoes (Memory.resetPeak_echoes c)).map fun _ => rfl
  | references x =>
    exact (value_echoes round x).bind fun y => .read fun s => congrArg Answer.references (by simp)
  | multiplicity parent x =>
    exact (value_echoes round parent).bind fun p => (value_echoes round x).bind fun y =>
      .read fun s => congrArg Answer.number (by simp)
  | isSame other => exact .pure (Answer.flag (c == other))

theorem performStack_echoes (name : Option String) (command : StackCommand) :
    Answers f (performStack round name command) (performStack round name command) := by
  cases command with
  | push x =>
    exact (value_echoes round x).bind fun y =>
      (onStack_echoes name (Stack.push_echoes y)).map fun _ => rfl
  | pop => exact (onStack_echoes name Stack.pop_echoes).map fun _ => rfl
  | peek depth =>
    have looked : Echoes f (Item.rename f) (renameBoth f (Stack.rename f))
        (do (← get).2.peek depth) (do (← get).2.peek depth) :=
      .get_bind fun s => .lift (Stack.peek_rename s.2 depth)
    exact (onStack_echoes name looked).map fun _ => rfl
  | remove depth => exact (onStack_echoes name (Stack.remove_echoes depth)).map fun _ => rfl
  | insert depth x =>
    exact (value_echoes round x).bind fun y =>
      (onStack_echoes name (Stack.insert_echoes depth y)).map fun _ => rfl
  | reverse n => exact (onStack_echoes name (Stack.reverse_echoes n)).map fun _ => rfl
  | clear => exact (onStack_echoes name Stack.clear_echoes).map fun _ => rfl
  | size =>
    exact (onStack_echoes name (.read (h := id) fun s => List.length_map _)).map fun _ => rfl
  | items =>
    exact (onStack_echoes name (.read fun s => Stack.bottomUp_rename s.2)).map fun _ => rfl
  | counter =>
    refine Echoes.map (g := id) (onStack_echoes name (.read fun s => ?_)) fun _ => rfl
    rfl

theorem performSlot_echoes (name : String) (command : SlotCommand) :
    Answers f (performSlot round name command) (performSlot round name command) := by
  cases command with
  | get index =>
    have looked : Echoes f (Item.rename f) (renameBoth f (Slot.rename f))
        (do (← get).2.get? index) (do (← get).2.get? index) :=
      .get_bind fun s => .lift (Slot.get?_rename s.2 index)
    exact (onNamedSlot_echoes name looked).map fun _ => rfl
  | set index x =>
    exact (value_echoes round x).bind fun y =>
      (onNamedSlot_echoes name (Slot.set_echoes index y)).map fun _ => rfl
  | clear => exact (onNamedSlot_echoes name Slot.clear_echoes).map fun _ => rfl
  | size =>
    exact (onNamedSlot_echoes name (.read (h := id) fun s => List.length_map _)).map fun _ => rfl
  | items =>
    exact (onNamedSlot_echoes name (.read (h := List.map (Item.rename f)) fun s => rfl)).map
      fun _ => rfl

theorem performEngine_echoes (command : EngineCommand) :
    Answers f (performEngine round command) (performEngine round command) := by
  cases command with
  | push x =>
    exact (value_echoes round x).bind fun y =>
      (onMachine_echoes (Machine.push_echoes y)).map fun _ => rfl
  | pop => exact (onMachine_echoes Machine.pop_echoes).map fun _ => rfl
  | peek depth => exact (onMachine_echoes (Machine.peek_echoes depth)).map fun _ => rfl
  | initStatics n => exact (onMachine_echoes (Machine.initStatics_echoes n)).map fun _ => rfl
  | loadStatic index => exact (onMachine_echoes (Machine.loadStatic_echoes index)).map fun _ => rfl
  | storeStatic index =>
    exact (onMachine_echoes (Machine.storeStatic_echoes index)).map fun _ => rfl
  | collect => exact (onMachine_echoes Machine.collect_echoes).map fun _ => rfl
  | checkLimit => exact (onMachine_echoes Machine.checkLimit_echoes).map fun _ => rfl
  | halt => exact (onMachine_echoes Machine.halt_echoes).map fun _ => rfl
  | describe => exact .read fun s => congrArg Answer.engine (Machine.view_rename s.machine)

theorem placeStack_echoes (name : String) (stack : Stack) :
    Echoes f id (rename f) (placeStack name (stack.rename f)) (placeStack name stack) := by
  refine .modify fun s => ?_
  simp only [dropStack_rename]
  simp only [rename, Table.insert_map]

theorem placeSlot_echoes (name : String) (slot : Slot) :
    Echoes f id (rename f) (placeSlot name (slot.rename f)) (placeSlot name slot) := by
  refine .modify fun s => ?_
  simp only [dropSlot_rename]
  simp only [rename, Table.insert_map]

theorem perform_echoes (command : Command) :
    Answers f (perform round command) (perform round command) := by
  cases command with
  | create name what =>
    exact (createItem_echoes round what).bind fun x => (bind_echoes name x).map fun _ => rfl
  | forget name =>
    refine Echoes.map (g := id) (.modify fun s => ?_) fun _ => rfl
    simp only [rename, Table.erase_map]
  | describe x =>
    exact (value_echoes round x).bind fun y => .read fun s =>
      congrArg Answer.description (Memory.describe_rename s.memory y)
  | equal a b =>
    exact (value_echoes round a).bind fun x => (value_echoes round b).map fun y =>
      congrArg Answer.flag (decide_eq_decide.2 (Item.rename_injective f).eq_iff)
  | distinct xs =>
    exact (values_echoes round xs).map fun ys => congrArg Answer.number (Item.distinct_rename ys)
  | onList name command =>
    exact (target_echoes _ name).bind fun a => performList_echoes round a command
  | onMap name command =>
    exact (target_echoes _ name).bind fun a => performMap_echoes round a command
  | onBuffer name command =>
    exact (target_echoes _ name).bind fun a => performBuffer_echoes a command
  | newCounter => exact (onMemory_echoes Memory.newCounter_echoes).map fun _ => rfl
  | onCounter c command => exact performCounter_echoes round c command
  | newStack name c => exact (placeStack_echoes name { counter := c }).map fun _ => rfl
  | dropStack name =>
    exact (Echoes.modify fun s => dropStack_rename name s).map fun _ => rfl
  | onStack name command => exact performStack_echoes round name command
  | newSlot name xs c =>
    exact (values_echoes round xs).bind fun ys =>
      (onMemory_echoes (Slot.create_echoes c ys)).bind fun slot =>
        (placeSlot_echoes name slot).map fun _ => rfl
  | newNullSlot name n c =>
    exact (onMemory_echoes (Slot.createNulls_echoes c n)).bind fun slot =>
      (placeSlot_echoes name slot).map fun _ => rfl
  | dropSlot name =>
    exact (Echoes.modify fun s => dropSlot_rename name s).map fun _ => rfl
  | onSlot name command => exact performSlot_echoes round name command
  | onEngine command => exact performEngine_echoes round command

theorem performNamed_echoes (command : Command) (saveAs : Option String) :
    Answers f (performNamed round command saveAs) (performNamed round command saveAs) := by
  refine (perform_echoes round command).bind fun answer => ?_
  rw [Answer.item?_rename]
  cases saveAs with
  | none => exact .pure answer
  | some name =>
    cases answer.item? with
    | none => exact .pure answer
    | some x => exact (bind_echoes name x).map fun _ => rfl

theorem rounds_rename (body : Nat → Session → Except Error Unit × Session)
    (each : ∀ round s,
      body round (s.rename f) = (renamed f id (body round s).1, (body round s).2.rename f))
    (times : Nat) : ∀ (done : Nat) (s : Session), rounds body times done (s.rename f) =
      ((rounds body times done s).1, renamed f id (rounds body times done s).2.1,
        (rounds body times done s).2.2.rename f) := by
  induction times with
  | zero => exact fun _ _ => rfl
  | succ times ih =>
    intro done s
    rw [rounds, each, rounds]
    rcases body done s with ⟨e | u, t⟩
    · rfl
    · exact ih (done + 1) t

mutual

theorem runStep_rename (round : Nat) : ∀ (step : Step) (s : Session),
    runStep round step (s.rename f) =
      ((runStep round step s).1.rename f, (runStep round step s).2.rename f)
  | .perform command saveAs _, s => by
    have performed := performNamed_echoes (f := f) round command saveAs s
    simp only [runStep, performed, readings_rename, Report.rename]
  | .instruction body _, s => by
    have ran := runBody_rename round body s
    rw [runStep, runStep, machine_rename, Machine.enter_rename]
    rcases s.machine.enter with e | u
    · simp only [renamed_error, readings_rename, Report.rename, renameReports]
    · rcases outcome : runBody round body s with ⟨reports, given, t⟩
      rw [outcome] at ran
      simp only [renamed_ok, ran, machine_rename, Machine.conclude_rename, rename_withMachine,
        readings_rename, Report.rename]
  | .loop times body _, s => by
    have ran := rounds_rename (f := f) (fun round s => (runBody round body s).2)
      (fun round s => by rw [runBody_rename round body s]) times 0 s
    simp only [runStep, ran, readings_rename, Report.rename]

theorem runBody_rename (round : Nat) : ∀ (body : List Step) (s : Session),
    runBody round body (s.rename f) =
      (renameReports f (runBody round body s).1, renamed f id (runBody round body s).2.1,
        (runBody round body s).2.2.rename f)
  | [], s => by
    simp only [runBody, renameReports, renamed_ok, id]
  | step :: rest, s => by
    have first := runStep_rename round step s
    rw [runBody, runBody, first]
    rcases runStep round step s with ⟨report, t⟩
    have others := runBody_rename round rest t
    simp only [Report.outcome_rename]
    rcases report.outcome with e | u
    · cases step.isCaught
      · rfl
      · simp only [renamed_error, others, renameReports]
    · simp only [renamed_ok, others, renameReports]

end

theorem run_rename (steps : List Step) : ∀ s : Session,
    run steps (s.rename f) =
      ((run steps s).1.map (Report.rename f), (run steps s).2.rename f) := by
  induction steps with
  | nil => exact fun _ => rfl
  | cons step steps ih =>
    intro s
    simp only [run, runStep_rename, ih, List.map_cons]

mutual

def Move.rename (f : ItemId ↪ ItemId) : Move → Move
  | .performed command result before after =>
    .performed command (renamed f (Answer.rename f) result) (before.rename f) (after.rename f)
  | .concluded body result before after =>
    .concluded (renameMoves f body) (renamed f id result) (before.rename f) (after.rename f)

def renameMoves (f : ItemId ↪ ItemId) : List Move → List Move
  | [] => []
  | move :: moves => move.rename f :: renameMoves f moves

end

theorem renameMoves_eq_map (moves : List Move) :
    renameMoves f moves = moves.map (Move.rename f) := by
  induction moves with
  | nil => rfl
  | cons move moves ih => rw [renameMoves, ih, List.map_cons]

theorem renameMoves_append (moves more : List Move) :
    renameMoves f (moves ++ more) = renameMoves f moves ++ renameMoves f more := by
  rw [renameMoves_eq_map, renameMoves_eq_map, renameMoves_eq_map, List.map_append]

theorem Move.after_rename (move : Move) : (move.rename f).after = move.after.rename f := by
  cases move <;> rfl

theorem Move.visited_rename (s : Session) (moves : List Move) :
    visited (s.rename f) (renameMoves f moves) = (visited s moves).map (Session.rename f) := by
  rw [visited, renameMoves_eq_map, List.map_map, visited, List.map_cons, List.map_map]
  congr 1
  exact List.map_congr_left fun move _ => after_rename move

theorem traceRounds_rename (body : Nat → Session → List Move × Except Error Unit × Session)
    (each : ∀ round s, body round (s.rename f) =
      (renameMoves f (body round s).1, renamed f id (body round s).2.1,
        (body round s).2.2.rename f)) (times : Nat) : ∀ (done : Nat) (s : Session),
    traceRounds body times done (s.rename f) = renameMoves f (traceRounds body times done s) := by
  induction times with
  | zero => exact fun _ _ => rfl
  | succ times ih =>
    intro done s
    rw [traceRounds, each, traceRounds]
    rcases body done s with ⟨moves, e | u, t⟩
    · rfl
    · simp only [renamed_ok, id, ih, renameMoves_append]

mutual

theorem traceStep_rename (round : Nat) : ∀ (step : Step) (s : Session),
    traceStep round step (s.rename f) = renameMoves f (traceStep round step s)
  | .perform command saveAs _, s => by
    have performed := performNamed_echoes (f := f) round command saveAs s
    simp only [traceStep, performed, renameMoves, Move.rename]
  | .instruction body _, s => by
    have ran := runBody_rename (f := f) round body s
    have moved := traceBody_rename round body s
    rw [traceStep, traceStep, machine_rename, Machine.enter_rename]
    rcases s.machine.enter with e | u
    · rfl
    · rcases outcome : runBody round body s with ⟨reports, given, t⟩
      rw [outcome] at ran
      simp only [renamed_ok, ran, machine_rename, Machine.conclude_rename, rename_withMachine,
        moved, renameMoves_append, renameMoves, Move.rename]
  | .loop times body _, s => by
    rw [traceStep, traceStep]
    exact traceRounds_rename _
      (fun round s => by rw [traceBody_rename round body s, runBody_rename round body s]) times 0 s

theorem traceBody_rename (round : Nat) : ∀ (body : List Step) (s : Session),
    traceBody round body (s.rename f) = renameMoves f (traceBody round body s)
  | [], s => rfl
  | step :: rest, s => by
    have first := runStep_rename (f := f) round step s
    have moved := traceStep_rename round step s
    rw [traceBody, traceBody, first, moved]
    rcases runStep round step s with ⟨report, t⟩
    have others := traceBody_rename round rest t
    simp only [Report.outcome_rename, renameMoves_append]
    rcases report.outcome with e | u
    · cases step.isCaught
      · rfl
      · simp only [renamed_error, others]
    · simp only [renamed_ok, others]

end

theorem trace_rename (steps : List Step) : ∀ s : Session,
    trace steps (s.rename f) = renameMoves f (trace steps s) := by
  induction steps with
  | nil => exact fun _ => rfl
  | cons step steps ih =>
    intro s
    rw [trace, traceStep_rename, runStep_rename, ih, trace, renameMoves_append]

/-- Whatever a host does and makes of the results in its bodies, it can do under the new ids. -/
theorem Executes.rename {s t : Session} {moves : List Move} (execution : Executes s moves t) :
    Executes (s.rename f) (renameMoves f moves) (t.rename f) := by
  induction execution with
  | done s => exact .done _
  | @perform s t u result moves round command saveAs run _ ih =>
    refine .perform round command saveAs ?_ ih
    rw [performNamed_echoes round command saveAs s, run]
  | @instruction s t u body moves result machine given entered run _ _ first rest =>
    have entered' : (s.rename f).machine.enter = .ok () := by
      rw [machine_rename, Machine.enter_rename, entered, renamed_ok, id]
    have run' : Machine.conclude (renamed f id given) (t.rename f).machine =
        (renamed f id result, machine.rename f) := by
      rw [machine_rename, Machine.conclude_rename, run]
    rw [renameMoves_append]
    exact .instruction _ entered' run' first rest

end Session

end LiveItems
