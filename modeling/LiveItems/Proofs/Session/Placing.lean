import LiveItems.Proofs.Session.Peak
set_option autoImplicit false

namespace LiveItems

open LiveItems.Action (Follows Prolongs)
open Counter (Grows Sinks)

namespace ListObject

open Memory

/-- The first part of `set`, which answers with the item to release. -/
def place (id : ItemId) (index : Nat) (x : Item) : Action Memory Item := do
  mustAccept id x
  mustBeWritable id
  let xs ← items id
  match xs[index]? with
  | none => Action.refuse (.indexOutOfRange index)
  | some old => do
    store id (.list (xs.set index x))
    reportAdded id x
    pure old

theorem set_eq (id : ItemId) (index : Nat) (x : Item) :
    set id index x = place id index x >>= reportRemoved id := by
  simp only [set, place, bind_assoc]
  refine bind_congr fun _ => bind_congr fun _ => bind_congr fun xs => ?_
  cases xs[index]? with
  | none => rfl
  | some old => simp only [bind_assoc, pure_bind]

variable (d : CounterId)

theorem place_follows (id : ItemId) (index : Nat) (x : Item) :
    Follows (Steps Grows d) (place id index x) := by
  refine (mustAccept_follows d id x).bind fun _ => ?_
  refine (mustBeWritable_follows d id).bind fun _ => ?_
  refine (items_follows d id).bind fun xs => ?_
  split
  · exact .refuse _
  · refine (store_follows d id _).bind fun _ => ?_
    exact (reportAdded_follows (fun grows => grows) d id x).bind fun _ => .pure _

theorem set_prolongs (id : ItemId) (index : Nat) (x : Item) :
    Prolongs (Steps Sinks d) (place id index x) (set id index x) := by
  rw [set_eq]
  exact (Prolongs.refl _).more fun old => reportRemoved_follows (fun sinks => sinks) d id old

end ListObject

namespace MapObject

open Memory

def place (id : ItemId) (k v : Item) : Action Memory (Option Item) := do
  mustBeKey k
  mustAccept id v
  mustBeWritable id
  let es ← entries id
  let old? := es.get? k
  store id (.map (es.insert k v))
  if old?.isNone then
    reportAdded id k
  reportAdded id v
  pure old?

theorem set_eq (id : ItemId) (k v : Item) :
    set id k v = (do
      let old? ← place id k v
      match old? with
      | some old => reportRemoved id old
      | none => pure ()
      pure old?) := by
  simp only [set, place, bind_assoc]
  refine bind_congr fun _ => bind_congr fun _ => bind_congr fun _ => bind_congr fun es =>
    bind_congr fun _ => ?_
  cases es.get? k with
  | none => simp only [Option.isNone_none, if_true, bind_assoc, pure_bind]
  | some old =>
    simp only [Option.isNone_some, Bool.false_eq_true, if_false, bind_assoc, pure_bind]

variable (d : CounterId)

theorem place_follows (id : ItemId) (k v : Item) : Follows (Steps Grows d) (place id k v) := by
  refine (mustBeKey_follows d k).bind fun _ => ?_
  refine (mustAccept_follows d id v).bind fun _ => ?_
  refine (mustBeWritable_follows d id).bind fun _ => ?_
  refine (entries_follows d id).bind fun es => ?_
  refine (store_follows d id _).bind fun _ => ?_
  have given := reportAdded_follows (fun grows => grows) d id
  cases es.get? k with
  | none => exact (given k).bind fun _ => (given v).bind fun _ => .pure _
  | some old => exact (given v).bind fun _ => .pure _

theorem set_prolongs (id : ItemId) (k v : Item) :
    Prolongs (Steps Sinks d) (place id k v) (set id k v) := by
  rw [set_eq]
  refine (Prolongs.refl _).more fun old? => ?_
  cases old? with
  | none => exact .pure _
  | some old => exact (reportRemoved_follows (fun sinks => sinks) d id old).bind fun _ => .pure _

end MapObject

namespace Slot

def place (index : Nat) (x : Item) : Action (Memory × Slot) (CounterId × Item) := do
  let (_, s) ← get
  let old ← s.get? index
  onMemory (Memory.addRoot s.counter x)
  modify fun (m, s) => (m, { s with items := s.items.set index x })
  pure (s.counter, old)

theorem set_eq (index : Nat) (x : Item) :
    set index x = place index x >>= fun (c, old) => onMemory (Memory.removeRoot c old) := by
  simp only [set, place, bind_assoc, pure_bind]

variable (d : CounterId)

theorem place_follows (index : Nat) (x : Item) :
    Follows (StepsBeside Grows d) (place index x) := by
  refine .get_bind fun (m, s) => (Follows.lift (s.get? index)).bind fun old => ?_
  have given := Memory.addRoot_follows (fun grows => grows) d s.counter x
  refine (onMemory_follows d given).bind fun _ => ?_
  exact .bind (.modify fun t => refl_of (Memory.Steps Grows d) t.1) fun _ => .pure _

theorem set_prolongs (index : Nat) (x : Item) :
    Prolongs (StepsBeside Sinks d) (place index x) (set index x) := by
  rw [set_eq]
  exact (Prolongs.refl _).more fun (c, old) =>
    onMemory_follows d (Memory.removeRoot_follows (fun sinks => sinks) d c old)

/-- Only when an item cannot be held does a slot that is filled release anything. -/
theorem addRoots_prolongs (c : CounterId) (done xs : List Item) :
    Prolongs (Memory.Steps Sinks d) (xs.forM (Memory.addRoot c)) (addRoots c done xs) := by
  induction xs generalizing done with
  | nil => exact .refl _
  | cons x xs ih =>
    intro m
    rw [Action.attempt_eq, Action.attempt_eq, Action.apply_forM_cons, addRoots, Action.apply_of]
    rcases (Memory.addRoot c x).apply m with ⟨e | _, m'⟩
    · exact Memory.removeRoots_follows (fun sinks => sinks) d c done.reverse m'
    · exact ih (x :: done) m'

theorem create_prolongs (c : CounterId) (xs : List Item) :
    Prolongs (Memory.Steps Sinks d) (xs.forM (Memory.addRoot c)) (create c xs) :=
  (addRoots_prolongs d c [] xs).more fun _ => .pure _

end Slot

namespace Machine

/-- The first part of `storeStatic`: the top of the stack is in the static field as well, and what
was there has not been released. -/
def placeStatic (index : Nat) : Action Machine (CounterId × Item) := do
  let x ← peek 0
  match (← get).engine.statics with
  | none => Action.refuse .noStatics
  | some slot =>
    (Slot.place index x).onPart (fun s => (s.memory, slot)) fun (m, slot) s =>
      { s with memory := m, engine := { s.engine with statics := some slot } }

variable (d : CounterId)

theorem placeStatic_follows (index : Nat) : Follows (Steps Grows d) (placeStatic index) := by
  refine (peek_follows d 0).bind fun x => ?_
  refine .get_bind fun s => ?_
  split
  · exact .refuse _
  · exact (Slot.place_follows d index x).onPart fun _ _ moves => ⟨rfl, rfl, moves⟩

theorem storeStatic_prolongs (index : Nat) :
    Prolongs (Steps Sinks d) (placeStatic index) (storeStatic index) := by
  refine .bind (peek 0) fun x => .bind get fun s => ?_
  cases s.engine.statics with
  | none => exact .refl _
  | some slot =>
    dsimp only
    refine Prolongs.more ?_ fun _ => (pop_follows (fun sinks => sinks) d).bind fun _ => .pure ()
    exact (Slot.set_prolongs d index x).onPart fun _ _ _ moves => ⟨rfl, rfl, moves⟩

/-- The static fields that there were are released before new ones are made. -/
theorem initStatics_steps (n : Nat) (s : Machine) :
    ∃ t, s.Steps Sinks d t ∧ t.Steps Grows d ((initStatics n).attempt s) := by
  have created : Prolongs (Steps Grows d) (releaseStatics s.engine.statics)
      (releaseStatics s.engine.statics >>= fun _ => createStatics s.engine.counter n) :=
    (Prolongs.refl _).more fun _ => createStatics_follows (fun grows => grows) d _ n
  rw [Action.attempt_eq, apply_initStatics]
  exact ⟨_, releaseStatics_follows (fun sinks => sinks) d s.engine.statics s, created s⟩

end Machine

namespace Session

/-- The session at the moment when the command, if it places items, has referenced the new items and
has not released any item yet. -/
def placed (round : Nat) : Command → Session → Option Session
  | .onList name (.set index x), s => some <| Action.attempt (do
    let id ← target [.array, .struct] name
    let x ← value round x
    onMemory (ListObject.place id index x)) s
  | .onMap name (.set k v), s => some <| Action.attempt (do
    let id ← target [.map] name
    let k ← value round k
    let v ← value round v
    onMemory (MapObject.place id k v)) s
  | .newSlot _ xs c, s => some <| Action.attempt (do
    let xs ← values round xs
    onMemory (xs.forM (Memory.addRoot c))) s
  | .newNullSlot _ n c, s =>
    some <| (onMemory ((List.replicate n .null).forM (Memory.addRoot c))).attempt s
  | .onSlot name (.set index x), s => some <| Action.attempt (do
    let x ← value round x
    onNamedSlot name (Slot.place index x)) s
  | .onEngine (.storeStatic index), s => some <| (onMachine (Machine.placeStatic index)).attempt s
  | _, _ => none

variable (d : CounterId) (round : Nat) {s p : Session} {command : Command}

theorem onNamedSlot_prolongs {α β : Type} (name : String) {x : Action (Memory × Slot) α}
    {y : Action (Memory × Slot) β} (prolongs : Prolongs (StepsBeside Sinks d) x y) :
    Prolongs (Steps Sinks d) (onNamedSlot name x) (onNamedSlot name y) := by
  refine .bind get fun s => ?_
  cases s.namedSlots[name]? with
  | none => exact .refl _
  | some slot => exact prolongs.onPart fun _ _ _ moves => ⟨rfl, rfl, moves⟩

theorem onMemory_prolongs {α β : Type} {x : Action Memory α} {y : Action Memory β}
    (prolongs : Prolongs (Memory.Steps Sinks d) x y) :
    Prolongs (Steps Sinks d) (onMemory x) (onMemory y) :=
  prolongs.onPart fun _ _ _ moves => ⟨rfl, rfl, moves⟩

theorem onMachine_prolongs {α β : Type} {x : Action Machine α} {y : Action Machine β}
    (prolongs : Prolongs (Machine.Steps Sinks d) x y) :
    Prolongs (Steps Sinks d) (onMachine x) (onMachine y) :=
  prolongs.onPart fun _ _ _ moves => moves

/-- Up to the moment of placing a count only grows, and from there it only sinks. -/
theorem perform_placed (placing : placed round command s = some p) :
    s.Steps Grows d p ∧ p.Steps Sinks d ((perform round command).attempt s) := by
  unfold placed at placing
  split at placing
  · rename_i _ name index x
    obtain rfl := Option.some.inj placing
    constructor
    · refine (target_follows d _ name).bind (fun id => ?_) s
      refine (value_follows d round x).bind fun x => ?_
      exact onMemory_follows d (ListObject.place_follows d id index x)
    · refine Prolongs.bind (target _ name) (fun id => .bind (value round x) fun x => ?_) s
      exact (onMemory_prolongs d (ListObject.set_prolongs d id index x)).more fun _ => .pure _
  · rename_i _ name k v
    obtain rfl := Option.some.inj placing
    constructor
    · refine (target_follows d _ name).bind (fun id => ?_) s
      refine (value_follows d round k).bind fun k => (value_follows d round v).bind fun v => ?_
      exact onMemory_follows d (MapObject.place_follows d id k v)
    · refine Prolongs.bind (target _ name) (fun id => .bind (value round k) fun k => ?_) s
      refine .bind (value round v) fun v => ?_
      exact (onMemory_prolongs d (MapObject.set_prolongs d id k v)).more fun _ => .pure _
  · rename_i _ name xs c
    obtain rfl := Option.some.inj placing
    constructor
    · refine (values_follows d round xs).bind (fun xs => onMemory_follows d ?_) s
      exact .forM (fun x => Memory.addRoot_follows (fun grows => grows) d c x) xs
    · refine Prolongs.bind (values round xs) (fun xs => ?_) s
      refine (onMemory_prolongs d (Slot.create_prolongs d c xs)).more fun slot => ?_
      exact (placeSlot_follows (fun sinks => sinks) d name slot).bind fun _ => .pure _
  · rename_i _ name n c
    obtain rfl := Option.some.inj placing
    constructor
    · refine onMemory_follows d ?_ s
      exact .forM (fun x => Memory.addRoot_follows (fun grows => grows) d c x) _
    · refine (onMemory_prolongs d (Slot.create_prolongs d c _)).more (fun slot => ?_) s
      exact (placeSlot_follows (fun sinks => sinks) d name slot).bind fun _ => .pure _
  · rename_i _ name index x
    obtain rfl := Option.some.inj placing
    constructor
    · refine (value_follows d round x).bind (fun x => ?_) s
      exact onNamedSlot_follows d name (Slot.place_follows d index x)
    · refine Prolongs.bind (value round x) (fun x => ?_) s
      exact (onNamedSlot_prolongs d name (Slot.set_prolongs d index x)).more fun _ => .pure _
  · rename_i _ index
    obtain rfl := Option.some.inj placing
    constructor
    · exact onMachine_follows d (Machine.placeStatic_follows d index) s
    · exact (onMachine_prolongs d (Machine.storeStatic_prolongs d index)).more (fun _ => .pure _) s
  · exact absurd placing (by simp)

/-- A command that places no items does not add and release in turn, except that it may make new
static fields. -/
theorem cases_of_not_placed (none : placed round command s = none) :
    command.adds = false ∨ command.removes = false ∨ ∃ n, command = .onEngine (.initStatics n) := by
  cases command with
  | newSlot name xs c => exact absurd none (by simp [placed])
  | newNullSlot name n c => exact absurd none (by simp [placed])
  | onList name command =>
    cases command with
    | set index x => exact absurd none (by simp [placed])
    | _ => simp [Command.adds, Command.removes, ListCommand.adds, ListCommand.removes]
  | onMap name command =>
    cases command with
    | set k v => exact absurd none (by simp [placed])
    | _ => simp [Command.adds, Command.removes, MapCommand.adds, MapCommand.removes]
  | onSlot name command =>
    cases command with
    | set index x => exact absurd none (by simp [placed])
    | _ => simp [Command.adds, Command.removes, SlotCommand.adds, SlotCommand.removes]
  | onEngine command =>
    cases command with
    | storeStatic index => exact absurd none (by simp [placed])
    | initStatics n => exact .inr (.inr ⟨n, rfl⟩)
    | _ => simp [Command.adds, Command.removes, EngineCommand.adds, EngineCommand.removes]
  | onCounter c command =>
    cases command <;> simp [Command.adds, Command.removes, CounterCommand.adds,
      CounterCommand.removes]
  | onStack name command =>
    cases command <;> simp [Command.adds, Command.removes, StackCommand.adds, StackCommand.removes]
  | _ => simp [Command.adds, Command.removes]

end Session

end LiveItems
