import Mathlib.Data.List.Basic
import LiveItems.Session.Run
import LiveItems.Proofs.Container.Rename
import LiveItems.Proofs.Engine.Rename
set_option autoImplicit false

namespace LiveItems

open LiveItems.Action (Echoes renamed)

variable {f : ItemId ↪ ItemId}

theorem Item.eraseDups_rename : ∀ xs : List Item,
    (xs.map (Item.rename f)).eraseDups = xs.eraseDups.map (Item.rename f)
  | [] => rfl
  | x :: xs => by
    have shorter : (xs.filter fun y => !y == x).length < xs.length + 1 :=
      Nat.lt_succ_of_le (List.length_filter_le _ _)
    have test : (fun y : Item => !y == x.rename f) ∘ Item.rename f = fun y => !y == x :=
      funext fun y => congrArg (! ·) (decide_eq_decide.2 (Item.rename_injective f).eq_iff)
    rw [List.map_cons, List.eraseDups_cons, List.filter_map, test, eraseDups_rename,
      List.eraseDups_cons, List.map_cons]
termination_by xs => xs.length

theorem Item.distinct_rename (xs : List Item) :
    Item.distinct (xs.map (Item.rename f)) = Item.distinct xs := by
  rw [Item.distinct, eraseDups_rename, List.length_map, Item.distinct]

def Description.rename (f : ItemId ↪ ItemId) (d : Description) : Description :=
  { d with item := d.item.rename f, children := d.children.map (Item.rename f) }

def EngineView.rename (f : ItemId ↪ ItemId) (v : EngineView) : EngineView :=
  { v with
    fault := v.fault.map (Error.rename f)
    stack := v.stack.map (Item.rename f)
    statics := v.statics.map (List.map (Item.rename f)) }

def Answer.rename (f : ItemId ↪ ItemId) : Answer → Answer
  | done => done
  | item x => item (x.rename f)
  | option x => option (x.map (Item.rename f))
  | items xs => items (xs.map (Item.rename f))
  | flag b => flag b
  | number n => number n
  | size n => size n
  | byte b => byte b
  | bytes data => bytes data
  | references r => references r
  | description d => description (d.rename f)
  | engine v => engine (v.rename f)

theorem Answer.item?_rename (a : Answer) : (a.rename f).item? = a.item?.map (Item.rename f) := by
  cases a <;> rfl

theorem Memory.describe_rename (m : Memory) (x : Item) :
    (m.rename f).describe (x.rename f) = (m.describe x).rename f := by
  simp only [describe, Memory.rename, Heap.ownerOf_rename, Heap.childCountOf_rename,
    Heap.childrenOf_rename, Description.rename]

theorem Machine.view_rename (s : Machine) : (s.rename f).view = s.view.rename f := by
  have live : (s.rename f).counter.count = s.counter.count := by
    rw [Machine.counter_rename]
    rfl
  have stack := Stack.bottomUp_rename (f := f) s.engine.stack
  simp only [rename, renameEngine] at live
  simp only [view, rename, renameEngine, live, stack, EngineView.rename, Option.map_map]
  rfl

theorem Counter.reading_rename (c : Counter) : (c.rename f).reading = c.reading := by
  have size := OrderedMap.size_rekey f id c.candidates
  simp only [reading, size_tracked_rename, ← size]
  rfl

@[simp] theorem Counter.referencesTo_rename (c : Counter) (x : Item) :
    (c.rename f).referencesTo (x.rename f) = c.referencesTo x := by
  cases x with
  | leaf l => rfl
  | object kind a =>
    simp only [referencesTo, Item.rename, Item.id?, rootCount_rename, referenceCount_rename,
      isTracked_rename]

mutual

def Report.rename (f : ItemId ↪ ItemId) : Report → Report
  | .command result readings => .command (renamed f (Answer.rename f) result) readings
  | .instruction result readings body =>
    .instruction (renamed f id result) readings (renameReports f body)
  | .loop result readings rounds => .loop (renamed f id result) readings rounds

def renameReports (f : ItemId ↪ ItemId) : List Report → List Report
  | [] => []
  | report :: reports => report.rename f :: renameReports f reports

end

theorem Report.outcome_rename (report : Report) :
    (report.rename f).outcome = renamed f id report.outcome := by
  cases report with
  | command result readings => rcases result with e | a <;> rfl
  | instruction result readings body => rfl
  | loop result readings rounds => rfl

namespace Session

def rename (f : ItemId ↪ ItemId) (s : Session) : Session :=
  { s with
    machine := s.machine.rename f
    namedStacks := s.namedStacks.map fun _ => Stack.rename f
    namedSlots := s.namedSlots.map fun _ => Slot.rename f
    names := s.names.map fun _ => Item.rename f }

@[simp] theorem memory_rename (s : Session) : (s.rename f).memory = s.memory.rename f := rfl

@[simp] theorem machine_rename (s : Session) : (s.rename f).machine = s.machine.rename f := rfl

theorem rename_withMachine (s : Session) (machine : Machine) :
    { s.rename f with machine := machine.rename f } = { s with machine }.rename f := rfl

theorem readings_rename (s : Session) : (s.rename f).readings = s.readings := by
  change (s.memory.counters.map (Counter.rename f)).map Counter.reading = _
  rw [List.map_map, readings]
  exact List.map_congr_left fun c _ => Counter.reading_rename c

theorem onMachine_echoes {α β : Type} {g : α → β} {x : Action Machine α} {y : Action Machine β}
    (echoes : Echoes f g (Machine.rename f) y x) :
    Echoes f g (rename f) (onMachine y) (onMachine x) :=
  echoes.onPart (fun _ => rfl) fun _ _ => rfl

theorem onMemory_echoes {α β : Type} {g : α → β} {x : Action Memory α} {y : Action Memory β}
    (echoes : Echoes f g (Memory.rename f) y x) :
    Echoes f g (rename f) (onMemory y) (onMemory x) :=
  echoes.onPart (fun _ => rfl) fun _ _ => rfl

theorem onNamedStack_echoes {α β : Type} {g : α → β} {x : Action (Memory × Stack) α}
    {y : Action (Memory × Stack) β} (name : String)
    (echoes : Echoes f g (renameBoth f (Stack.rename f)) y x) :
    Echoes f g (rename f) (onNamedStack name y) (onNamedStack name x) := by
  refine .get_bind fun s => ?_
  simp only [rename, Std.ExtTreeMap.getElem?_map]
  cases s.namedStacks[name]? with
  | none => exact .refuse _
  | some stack =>
    refine echoes.onPart (fun _ => rfl) fun t s => ?_
    simp only [renameBoth, rename, setMemory, Table.insert_map]
    rfl

theorem onNamedSlot_echoes {α β : Type} {g : α → β} {x : Action (Memory × Slot) α}
    {y : Action (Memory × Slot) β} (name : String)
    (echoes : Echoes f g (renameBoth f (Slot.rename f)) y x) :
    Echoes f g (rename f) (onNamedSlot name y) (onNamedSlot name x) := by
  refine .get_bind fun s => ?_
  simp only [rename, Std.ExtTreeMap.getElem?_map]
  cases s.namedSlots[name]? with
  | none => exact .refuse _
  | some slot =>
    refine echoes.onPart (fun _ => rfl) fun t s => ?_
    simp only [renameBoth, rename, setMemory, Table.insert_map]
    rfl

theorem onStack_echoes {α β : Type} {g : α → β} {x : Action (Memory × Stack) α}
    {y : Action (Memory × Stack) β} (target : Option String)
    (echoes : Echoes f g (renameBoth f (Stack.rename f)) y x) :
    Echoes f g (rename f) (onStack target y) (onStack target x) := by
  cases target with
  | none => exact onMachine_echoes (Machine.onStack_echoes echoes)
  | some name => exact onNamedStack_echoes name echoes

theorem bind_echoes (name : String) (x : Item) :
    Echoes f id (rename f) (bind name (x.rename f)) (bind name x) :=
  .modify fun s => by simp only [rename, Table.insert_map]

theorem lookup_echoes (name : String) :
    Echoes f (Item.rename f) (rename f) (lookup name) (lookup name) := by
  refine .get_bind fun s => ?_
  simp only [rename, Std.ExtTreeMap.getElem?_map]
  cases s.names[name]? with
  | none => exact .refuse _
  | some x => exact .pure x

theorem target_echoes (kinds : List ObjectKind) (name : String) :
    Echoes f f (rename f) (target kinds name) (target kinds name) := by
  refine (lookup_echoes name).bind fun x => ?_
  cases x with
  | leaf l => exact .refuse _
  | object kind a => exact .ite Iff.rfl (.pure a) (.refuse _)

theorem dropStack_rename (name : String) (s : Session) :
    (s.rename f).dropStack name = (s.dropStack name).rename f := by
  have found : (s.rename f).namedStacks[name]? = s.namedStacks[name]?.map (Stack.rename f) :=
    Std.ExtTreeMap.getElem?_map
  rw [dropStack, found, dropStack]
  cases s.namedStacks[name]? with
  | none => rfl
  | some stack =>
    have dropped := Stack.drop_rename (f := f) stack s.memory
    simp only [memory] at dropped
    simp only [Option.map_some, memory, rename, setMemory, Table.erase_map, Machine.rename, dropped]

theorem dropSlot_rename (name : String) (s : Session) :
    (s.rename f).dropSlot name = (s.dropSlot name).rename f := by
  have found : (s.rename f).namedSlots[name]? = s.namedSlots[name]?.map (Slot.rename f) :=
    Std.ExtTreeMap.getElem?_map
  rw [dropSlot, found, dropSlot]
  cases s.namedSlots[name]? with
  | none => rfl
  | some slot =>
    have dropped := Slot.drop_rename (f := f) slot s.memory
    simp only [memory] at dropped
    simp only [Option.map_some, memory, rename, setMemory, Table.erase_map, Machine.rename, dropped]

/-- The end of a session takes the slots and stacks in the order of their names, which are kept. -/
theorem close_rename (s : Session) : (s.rename f).close = s.close.rename f := by
  have slots : ∀ (names : List String) (s : Session),
      names.foldl (fun s name => s.dropSlot name) (s.rename f) =
        (names.foldl (fun s name => s.dropSlot name) s).rename f := fun names s =>
    List.foldl_hom (rename f) fun s name => dropSlot_rename name s
  have stacks' : ∀ (names : List String) (s : Session),
      names.foldl (fun s name => s.dropStack name) (s.rename f) =
        (names.foldl (fun s name => s.dropStack name) s).rename f := fun names s =>
    List.foldl_hom (rename f) fun s name => dropStack_rename name s
  have slotNames : (s.rename f).namedSlots.keys = s.namedSlots.keys := Std.ExtTreeMap.keys_map
  have stackNames : ∀ s : Session, (s.rename f).namedStacks.keys = s.namedStacks.keys :=
    fun s => Std.ExtTreeMap.keys_map
  rw [close, slotNames, close]
  simp only [slots, stackNames, stacks']
  exact congrArg (fun m => setMemory m _) (Machine.shutDown_rename _)

end Session

end LiveItems
