import LiveItems.Session.Perform
import LiveItems.Proofs.Container.List
import LiveItems.Proofs.Container.Map
import LiveItems.Proofs.Session.Sound
set_option autoImplicit false

namespace LiveItems

/-! ## Balanced commands -/

def Creation.Balanced (counters : Nat) : Creation → Prop
  | .list _ _ owner => ∀ c, owner = some c → c < counters
  | .map owner => ∀ c, owner = some c → c < counters
  | _ => True

/-- No roots and no occurrences are added or removed by hand; items are made candidates by hand only
if `suspects` allows it. -/
def CounterCommand.Balanced (suspects : Prop) : CounterCommand → Prop
  | .addRoots .. => False
  | .removeRoot .. => False
  | .addOccurrence .. => False
  | .removeOccurrence .. => False
  | .suspect _ => suspects
  | _ => True

/-- The command leaves the bookkeeping to the library and refers to counters that there are. -/
def Command.Balanced (suspects : Prop) (counters : Nat) : Command → Prop
  | .create _ what => what.Balanced counters
  | .onCounter c command => c < counters ∧ command.Balanced suspects
  | .newStack _ c => c < counters
  | .newSlot _ _ c => c < counters
  | .newNullSlot _ _ c => c < counters
  | _ => True

def Command.Collects : Command → Prop
  | .onCounter _ .collect => True
  | .onEngine .collect => True
  | _ => False

/-- The command may be refused after it has begun: what it has made by then is taken back, or left
behind. -/
def Command.IsAbandoned : Command → Prop
  | .create _ (.copy ..) => True
  | .newSlot .. => True
  | _ => False

namespace Session

open Memory

def PopsEmpty (s : Session) : Command → Prop
  | .onStack target .pop => ∃ stack ∈ s.stackAt target, stack.items = []
  | .onEngine .pop => s.machine.engine.stack.items = []
  | _ => False

/-- How a command fails: a refusal has changed nothing, and nothing but popping from an empty stack
is a violation. -/
def Fails (s : Session) (command : Command) (e : Error) (t : Session) : Prop :=
  match e with
  | .invalidOperation _ => command.IsAbandoned ∨ t = s
  | .limitExceeded .. => True
  | .invariantViolation why => why = .popFromEmpty ∧ s.PopsEmpty command ∧ t = s
  | .invalidConfiguration _ => False

structure Keeps (strict : Prop) (s : Session) (command : Command) (t : Session) : Prop where
  sound : t.Sound strict
  extended : s.memory.Extends t.memory
  moved : ¬command.Collects → s.Moves t

def Answered (a : Answer) (t : Session) : Prop := ∀ x, a.item? = some x → t.memory.heap.Knows x

abbrev Performs (strict : Prop) (command : Command) (x : Action Session Answer) (s : Session) :
    Prop :=
  Action.Ends (fun e t => s.Keeps strict command t ∧ s.Fails command e t)
    (fun a t => s.Keeps strict command t ∧ Answered a t) x s

variable {strict : Prop} {s t : Session} {x : Item} {id : ItemId} {command : Command} {α : Type}

theorem answered_none {a : Answer} (none : a.item? = none) : Answered a t :=
  fun x hx => absurd (none.symm.trans hx) (by simp)

theorem answered_item (known : t.memory.heap.Knows x) : Answered (.item x) t := by
  intro y hy
  obtain rfl : x = y := Option.some.inj hy
  exact known

theorem Keeps.of_moves (sound : t.Sound strict) (moved : s.Moves t) : s.Keeps strict command t :=
  ⟨sound, moved.toExtends, fun _ => moved⟩

theorem Keeps.refl (sound : s.Sound strict) : s.Keeps strict command s :=
  .of_moves sound (Advances.refl s.memory)

theorem Safe.answer {post : α → Session → Prop} {x : Action Session α} {f : α → Answer}
    (safe : Safe strict post x s) (answered : ∀ a t, post a t → Answered (f a) t) :
    Safe strict Answered (x >>= fun a => pure (f a)) s :=
  safe.bind fun a t kept => .pure ⟨kept.1, kept.2.1, answered a t kept.2.2⟩

theorem Safe.performs {x : Action Session Answer} (safe : Safe strict Answered x s)
    (sound : s.Sound strict) : Performs strict command x s := by
  refine safe.mono ?_ fun a t kept => ⟨.of_moves kept.1 kept.2.1, kept.2.2⟩
  rintro e t ⟨⟨why, rfl⟩, rfl⟩
  exact ⟨.refl sound, .inr rfl⟩

theorem Performs.keeps {x : Action Session Answer} (performs : Performs strict command x s) :
    s.Keeps strict command (x.attempt s) := by
  rcases performs.cases with ⟨e, t, run, kept, -⟩ | ⟨a, t, run, kept, -⟩
  · rwa [Action.attempt_eq, run]
  · rwa [Action.attempt_eq, run]

theorem Safe.read (sound : s.Sound strict) {f : Session → Answer} (answered : Answered (f s) s) :
    Safe strict Answered (get >>= fun s => pure (f s)) s :=
  .get_bind (.pure ⟨sound, .refl s.memory, answered⟩)

section Operands

variable (sound : s.Sound strict)
include sound

theorem lookup_ends (name : String) :
    Action.Ends (Action.Refused s) (fun a t => t = s ∧ s.memory.heap.Knows a) (lookup name) s := by
  refine .get_bind ?_
  cases found : s.names[name]? with
  | none =>
    simp only
    exact .refuse (.intro _ s)
  | some x =>
    simp only
    exact .pure ⟨rfl, sound.names name x found⟩

theorem value_ends (round : Nat) (x : Operand) :
    Action.Ends (Action.Refused s) (fun a t => t = s ∧ s.memory.heap.Knows a) (value round x)
      s := by
  cases x with
  | leaf l => exact .pure ⟨rfl, .leaf _ l⟩
  | named name => exact lookup_ends sound name
  | round => exact .pure ⟨rfl, .leaf _ _⟩

theorem values_ends (round : Nat) (xs : List Operand) :
    Action.Ends (Action.Refused s) (fun ys t => t = s ∧ ∀ y ∈ ys, s.memory.heap.Knows y)
      (values round xs) s := by
  induction xs with
  | nil => exact .pure ⟨rfl, fun y hy => absurd hy List.not_mem_nil⟩
  | cons x xs ih =>
    refine (value_ends sound round x).bind ?_
    rintro y t ⟨rfl, known⟩
    refine ih.bind ?_
    rintro ys t ⟨rfl, others⟩
    exact .pure ⟨rfl, List.forall_mem_cons.2 ⟨known, others⟩⟩

theorem target_ends (kinds : List ObjectKind) (name : String) :
    Action.Ends (Action.Refused s)
      (fun id t => t = s ∧ ∃ kind ∈ kinds, s.memory.heap.Knows (.object kind id))
      (target kinds name) s := by
  refine (lookup_ends sound name).bind ?_
  rintro x t ⟨rfl, known⟩
  cases x with
  | leaf l => exact .refuse (.intro _ t)
  | object kind id =>
    simp only
    split
    · rename_i listed
      exact .pure ⟨rfl, kind, listed, known⟩
    · exact .refuse (.intro _ t)

theorem bind_safe (name : String) (known : s.memory.heap.Knows x) :
    Safe strict (fun _ t => t.memory = s.memory) (bind name x) s :=
  .of_ok rfl ⟨⟨sound.machine, sound.stackCounters, sound.slotCounters,
    forall_insert sound.names known⟩, .refl s.memory, rfl⟩

end Operands

/-! ## Containers -/

section Containers

variable (sound : s.Sound strict)
include sound

/-- A copy may be given up half way; everything else that creates an item is refused beforehand. -/
theorem createItem_ends (round : Nat) (what : Creation)
    (balanced : what.Balanced s.memory.counters.length) :
    Action.Ends
      (fun e t => (∃ why, e = .invalidOperation why) ∧ t.Sound strict ∧ s.Moves t ∧
        ((∃ source limits, what = .copy source limits) ∨ t = s))
      (fun a t => t.Sound strict ∧ s.Moves t ∧ t.memory.heap.Knows a)
      (createItem round what) s := by
  have refused : ∀ e t, Action.Refused s e t → (∃ why, e = .invalidOperation why) ∧
      t.Sound strict ∧ s.Moves t ∧ ((∃ source limits, what = .copy source limits) ∨ t = s) := by
    rintro e t ⟨why, rfl⟩
    exact ⟨why, sound, .refl t.memory, .inr rfl⟩
  match what, balanced with
  | .list kind items owner, balanced =>
    refine ((values_ends sound round items).worsen refused).bind ?_
    rintro xs t ⟨rfl, known⟩
    have created := onMemory_safe sound (ListObject.create_safe sound.memory balanced known)
    refine (created.worsen refused).bind ?_
    rintro a u ⟨kept, moved, -, listed⟩
    refine .pure ⟨kept, moved, ListObject.knows_of_list listed ?_⟩
    cases kind <;> simp [ListKind.object]
  | .map owner, balanced =>
    exact ((onMemory_safe sound (MapObject.create_safe sound.memory balanced)).worsen refused).bind
      fun _ _ kept => .pure kept
  | .buffer bytes, _ =>
    exact ((onMemory_safe sound (BufferObject.create_safe sound.memory bytes)).worsen refused).bind
      fun _ _ kept => .pure kept
  | .interop interface, _ =>
    exact .of_ok rfl ⟨⟨sound.machine, sound.stackCounters, sound.slotCounters, sound.names⟩,
      .refl s.memory, .leaf _ _⟩
  | .alias x, _ =>
    refine (value_ends sound round x).mono refused ?_
    rintro a t ⟨rfl, known⟩
    exact ⟨sound, .refl t.memory, known⟩
  | .copy source limits, _ =>
    refine ((target_ends sound [.struct] source).worsen refused).bind ?_
    rintro id t ⟨rfl, kind, form, known⟩
    obtain rfl := List.mem_singleton.1 form
    have kept : ∀ m, ListObject.Grown strict t.roots t.memory m →
        (t.setMemory m).Sound strict ∧ t.Moves (t.setMemory m) := fun m grown =>
      ⟨sound.withMemory grown.sound grown.extended, grown.retains.advances grown.extended⟩
    have copied : Action.Ends
        (fun e u => (∃ why, e = .invalidOperation why) ∧ u.Sound strict ∧ t.Moves u)
        (fun a u => u.Sound strict ∧ t.Moves u ∧ u.memory.heap.Knows (.object .struct a))
        (onMemory (ListObject.copyStruct id limits.maxLiveItems)) t :=
      (ListObject.copyStruct_adds sound.memory known limits.maxLiveItems).onPart Session.memory
        (fun _ m failed => ⟨failed.1, kept m failed.2⟩)
        fun _ m made => ⟨(kept m made.1).1, (kept m made.1).2, made.2⟩
    refine (copied.worsen fun _ _ failed => ?_).bind fun _ _ made => .pure made
    exact ⟨failed.1, failed.2.1, failed.2.2, .inl ⟨source, limits, rfl⟩⟩

theorem performList_safe (round : Nat) (known : s.memory.heap.Knows (.object .array id))
    (command : ListCommand) : Safe strict Answered (performList round id command) s := by
  obtain ⟨xs, listed⟩ := known.list (.inl rfl)
  have done : ∀ t : Session, Answered .done t := fun t => answered_none rfl
  cases command with
  | push x =>
    refine (value_ends sound round x).bind ?_
    rintro y t ⟨rfl, known⟩
    exact (onMemory_safe sound (ListObject.push_safe sound.memory listed known)).answer
      fun _ t _ => done t
  | set index x =>
    refine (value_ends sound round x).bind ?_
    rintro y t ⟨rfl, known⟩
    exact (onMemory_safe sound (ListObject.set_safe sound.memory listed known index)).answer
      fun _ t _ => done t
  | insert index x =>
    refine (value_ends sound round x).bind ?_
    rintro y t ⟨rfl, known⟩
    exact (onMemory_safe sound (ListObject.insert_safe sound.memory listed known index)).answer
      fun _ t _ => done t
  | remove index =>
    exact (onMemory_safe sound (ListObject.remove_safe sound.memory listed index)).answer
      fun _ _ known => answered_item known
  | pop =>
    exact (onMemory_safe sound (ListObject.pop_safe sound.memory listed)).answer
      fun _ _ known => answered_item known
  | clear =>
    exact (onMemory_safe sound (ListObject.clear_safe sound.memory listed)).answer
      fun _ t _ => done t
  | reverse =>
    exact (onMemory_safe sound (ListObject.reverse_safe sound.memory listed)).answer
      fun _ t _ => done t
  | get index =>
    refine .read sound fun x hx => ?_
    rw [ListObject.listItems_eq listed] at hx
    exact (ListObject.holds sound.memory listed (List.mem_of_getElem? hx)).known
  | size => exact Safe.read sound (answered_none rfl)
  | items => exact Safe.read sound (answered_none rfl)
  | setReadOnly b =>
    exact (onMemory_safe sound (sound.memory.setReadOnly id b)).answer fun _ t _ => done t
  | isReadOnly => exact Safe.read sound (answered_none rfl)

theorem performMap_safe (round : Nat) (known : s.memory.heap.Knows (.object .map id))
    (command : MapCommand) : Safe strict Answered (performMap round id command) s := by
  obtain ⟨es, mapped⟩ := known.map
  cases command with
  | set k v =>
    refine (value_ends sound round k).bind ?_
    rintro k t ⟨rfl, -⟩
    refine (value_ends sound round v).bind ?_
    rintro v t ⟨rfl, known⟩
    exact (onMemory_safe sound (MapObject.set_safe sound.memory mapped known)).answer
      fun _ _ old => old
  | get k =>
    refine (value_ends sound round k).bind ?_
    rintro k t ⟨rfl, -⟩
    have found : Memory.Safe strict t.roots (fun a m => ∀ x, a = some x → m.heap.Knows x)
        (MapObject.get? id k) t.memory := by
      refine (MapObject.get?_ends sound.memory mapped).imp ?_
      rintro a m ⟨rfl, known⟩
      exact ⟨sound.memory, .refl _, known⟩
    exact (onMemory_safe sound found).answer fun _ _ known => known
  | remove k =>
    refine (value_ends sound round k).bind ?_
    rintro k t ⟨rfl, -⟩
    exact (onMemory_safe sound (MapObject.remove_safe sound.memory mapped)).answer
      fun _ _ old => old
  | contains k =>
    refine (value_ends sound round k).bind ?_
    rintro k t ⟨rfl, -⟩
    have looked : Memory.Safe strict t.roots (fun _ _ => True) (MapObject.contains id k)
        t.memory := by
      refine (MapObject.contains_ends t.memory id k).imp ?_
      rintro a m rfl
      exact ⟨sound.memory, .refl _, trivial⟩
    exact (onMemory_safe sound looked).answer fun _ _ _ => answered_none rfl
  | clear =>
    exact (onMemory_safe sound (MapObject.clear_safe sound.memory mapped)).answer
      fun _ _ _ => answered_none rfl
  | keys => exact Safe.read sound (answered_none rfl)
  | values => exact Safe.read sound (answered_none rfl)
  | size => exact Safe.read sound (answered_none rfl)
  | setReadOnly b =>
    exact (onMemory_safe sound (sound.memory.setReadOnly id b)).answer
      fun _ _ _ => answered_none rfl
  | isReadOnly => exact Safe.read sound (answered_none rfl)

theorem performBuffer_safe (known : s.memory.heap.Knows (.object .buffer id))
    (command : BufferCommand) : Safe strict Answered (performBuffer id command) s := by
  obtain ⟨data, stored⟩ := known.buffer
  cases command with
  | get index => exact Safe.read sound (answered_none rfl)
  | set index b =>
    exact (onMemory_safe sound (BufferObject.set_safe sound.memory stored index b)).answer
      fun _ _ _ => answered_none rfl
  | bytes => exact Safe.read sound (answered_none rfl)
  | size => exact Safe.read sound (answered_none rfl)

end Containers

/-! ## Counters, stacks, slots and the engine -/

section Holders

variable (sound : s.Sound strict)
include sound

theorem performCounter_performs (round : Nat) {c : CounterId} (hc : c < s.memory.counters.length)
    (command : CounterCommand) (balanced : command.Balanced (¬strict)) :
    Performs strict (.onCounter c command) (performCounter round c command) s := by
  cases command with
  | addRoots x n => exact balanced.elim
  | removeRoot x => exact balanced.elim
  | addOccurrence x parent => exact balanced.elim
  | removeOccurrence x parent => exact balanced.elim
  | suspect x =>
    refine Safe.performs ?_ sound
    refine (value_ends sound round x).bind ?_
    rintro y t ⟨rfl, known⟩
    exact (onMemory_safe sound
      (sound.memory.suspect hc known balanced)).answer fun _ _ _ => answered_none rfl
  | collect =>
    obtain ⟨m, ids, run, memory, moved, -⟩ := sound.memory.collect hc
    refine .of_ok (a := .number (m.counter c).count) (t := s.setMemory m) ?_
      ⟨⟨sound.withMemory memory moved, moved, fun none => absurd trivial none⟩, answered_none rfl⟩
    rw [performCounter, Action.apply_bind, onMemory, Action.apply_onPart, run]
    rfl
  | resetPeak =>
    obtain ⟨m, run, memory, recounts⟩ := sound.memory.resetPeak hc
    have reset : Memory.Safe strict s.roots (fun _ _ => True) (Memory.resetPeak c) s.memory :=
      .of_ok run ⟨memory, recounts.advances, trivial⟩
    exact ((onMemory_safe sound reset).answer fun _ _ _ => answered_none rfl).performs sound
  | references x =>
    refine Safe.performs ?_ sound
    refine (value_ends sound round x).bind ?_
    rintro y t ⟨rfl, -⟩
    exact Safe.read sound (answered_none rfl)
  | multiplicity parent x =>
    refine Safe.performs ?_ sound
    refine (value_ends sound round parent).bind ?_
    rintro p t ⟨rfl, -⟩
    refine (value_ends sound round x).bind ?_
    rintro y t ⟨rfl, -⟩
    exact Safe.read sound (answered_none rfl)
  | isSame other => exact .pure ⟨.refl sound, answered_none rfl⟩

theorem performStack_performs (round : Nat) (name : Option String) (command : StackCommand) :
    Performs strict (.onStack name command) (performStack round name command) s := by
  have reading : ∀ {α : Type} (f : Stack → α) (answer : α → Answer),
      (∀ a, (answer a).item? = none) →
      Safe strict Answered (do return answer (← onStack name (return f (← get).2))) s := by
    intro α f answer none
    exact (onStack_safe sound (fun _ _ => True) name fun _ u _ held =>
      .get_bind (.pure ⟨held, ⟨.refl u.1, rfl⟩, trivial⟩)).answer
        fun a _ _ => answered_none (none a)
  cases command with
  | push x =>
    refine Safe.performs ?_ sound
    refine (value_ends sound round x).bind ?_
    rintro y t ⟨rfl, known⟩
    exact (onStack_safe sound (fun _ _ => True) name fun _ u same held =>
      Stack.push_safe held (same ▸ known)).answer fun _ _ _ => answered_none rfl
  | pop =>
    have popped := onStack_ends sound (fun a m => m.heap.Knows a) name
      (fun stack e => e = .invariantViolation .popFromEmpty ∧ stack.items = [])
      fun _ u _ held => (Stack.pop_ends held).worsen
        fun _ _ failed => ⟨⟨failed.1, failed.2.1⟩, failed.2.2⟩
    refine (popped.worsen ?_).bind fun a t kept =>
      .pure ⟨.of_moves kept.1 kept.2.1, answered_item kept.2.2⟩
    rintro e t (⟨⟨why, rfl⟩, rfl⟩ | ⟨⟨stack, found, rfl, empty⟩, rfl⟩)
    · exact ⟨.refl sound, .inr rfl⟩
    · exact ⟨.refl sound, rfl, ⟨stack, found, empty⟩, rfl⟩
  | peek depth =>
    refine Safe.performs ?_ sound
    refine (onStack_safe sound (fun a m => m.heap.Knows a) name fun _ u _ held => ?_).answer
      fun _ _ known => answered_item known
    refine .get_bind (.lift (fun e failed => ⟨Stack.peek_refused failed, rfl⟩) fun a found => ?_)
    exact ⟨held, ⟨.refl u.1, rfl⟩, Stack.known_of_peek held found⟩
  | remove depth =>
    exact ((onStack_safe sound (fun a m => m.heap.Knows a) name fun _ _ _ held =>
      Stack.remove_safe held depth).answer fun _ _ known => answered_item known).performs sound
  | insert depth x =>
    refine Safe.performs ?_ sound
    refine (value_ends sound round x).bind ?_
    rintro y t ⟨rfl, known⟩
    exact (onStack_safe sound (fun _ _ => True) name fun _ u same held =>
      Stack.insert_safe held (same ▸ known) depth).answer fun _ _ _ => answered_none rfl
  | reverse n =>
    exact ((onStack_safe sound (fun _ _ => True) name fun _ _ _ held =>
      Stack.reverse_safe held n).answer fun _ _ _ => answered_none rfl).performs sound
  | clear =>
    exact ((onStack_safe sound (fun _ _ => True) name fun _ _ _ held =>
      Stack.clear_safe held).answer fun _ _ _ => answered_none rfl).performs sound
  | size => exact (reading (·.items.length) .size fun _ => rfl).performs sound
  | items => exact (reading Stack.bottomUp .items fun _ => rfl).performs sound
  | counter => exact (reading Stack.counter .number fun _ => rfl).performs sound

theorem performSlot_safe (round : Nat) (name : String) (command : SlotCommand) :
    Safe strict Answered (performSlot round name command) s := by
  have reading : ∀ {α : Type} (f : Slot → α) (answer : α → Answer),
      (∀ a, (answer a).item? = none) →
      Safe strict Answered (do return answer (← onNamedSlot name (return f (← get).2))) s := by
    intro α f answer none
    exact (onNamedSlot_safe sound (fun _ _ => True) name fun _ u _ held =>
      .get_bind (.pure ⟨held, ⟨.refl u.1, rfl⟩, trivial⟩)).answer
        fun a _ _ => answered_none (none a)
  cases command with
  | get index =>
    refine (onNamedSlot_safe sound (fun a m => m.heap.Knows a) name
      fun _ u _ held => ?_).answer fun _ _ known => answered_item known
    refine .get_bind (.lift (fun e failed => ⟨Slot.get_refused failed, rfl⟩) fun a found => ?_)
    exact ⟨held, ⟨.refl u.1, rfl⟩, Slot.known_of_get held found⟩
  | set index x =>
    refine (value_ends sound round x).bind ?_
    rintro y t ⟨rfl, known⟩
    exact (onNamedSlot_safe sound (fun _ _ => True) name fun _ u same held =>
      Slot.set_safe held (same ▸ known) index).answer fun _ _ _ => answered_none rfl
  | clear =>
    exact (onNamedSlot_safe sound (fun _ _ => True) name fun _ _ _ held =>
      Slot.clear_safe held).answer fun _ _ _ => answered_none rfl
  | size => exact reading (·.items.length) .size fun _ => rfl
  | items => exact reading Slot.items .items fun _ => rfl

theorem onMachine_performs {x : Action Machine Unit}
    (limited : Machine.Limited strict (s.stackRoots + s.slotRoots) x s.machine) :
    Performs strict command (onMachine x >>= fun _ => pure .done) s := by
  refine (onMachine_ends sound (fun _ _ => True)
    (limited.imp fun _ _ kept => ⟨kept.1, kept.2, trivial⟩) ?_).bind fun _ _ kept =>
      .pure ⟨.of_moves kept.1 kept.2.1, answered_none rfl⟩
  rintro e machine (⟨⟨why, rfl⟩, rfl⟩ | ⟨⟨count, limit, rfl⟩, held, recounts⟩)
  · exact ⟨.refl sound, .inr rfl⟩
  · exact ⟨.of_moves (sound.withMachine held recounts.extends) recounts.advances, trivial⟩

theorem performEngine_performs (round : Nat) (command : EngineCommand) :
    Performs strict (.onEngine command) (performEngine round command) s := by
  have machine := sound.machine
  cases command with
  | push x =>
    refine Action.Ends.bind ((value_ends sound round x).worsen ?_) ?_
    · rintro e t ⟨⟨why, rfl⟩, rfl⟩
      exact ⟨.refl sound, .inr rfl⟩
    · rintro y t ⟨rfl, known⟩
      exact onMachine_performs sound (Machine.push_limited machine known)
  | pop =>
    refine (onMachine_ends sound (fun a m => m.heap.Knows a) (Machine.pop_ends machine)
      ?_).bind fun _ _ kept => .pure ⟨.of_moves kept.1 kept.2.1, answered_item kept.2.2⟩
    rintro e machine ⟨rfl, empty, rfl⟩
    exact ⟨.refl sound, rfl, empty, rfl⟩
  | peek depth =>
    refine Safe.performs ?_ sound
    have peeked : Machine.Safe strict (s.stackRoots + s.slotRoots)
        (fun a t => t.memory.heap.Knows a) (Machine.peek depth) s.machine := by
      refine (Machine.peek_ends machine depth).imp ?_
      rintro a t ⟨rfl, -, known⟩
      exact ⟨machine, .refl _, known⟩
    exact (onMachine_safe sound (fun a m => m.heap.Knows a) peeked).answer
      fun _ _ known => answered_item known
  | initStatics n =>
    exact onMachine_performs sound ((Machine.initStatics_bounded machine n).worsen
      fun _ _ exceeded => .inr exceeded)
  | loadStatic index => exact onMachine_performs sound (Machine.loadStatic_limited machine index)
  | storeStatic index =>
    exact ((onMachine_safe sound (fun _ _ => True)
      (Machine.storeStatic_safe machine index)).answer
      fun _ _ _ => answered_none rfl).performs sound
  | collect =>
    obtain ⟨m, ids, run, held, moved, -⟩ := Machine.collect_run machine
    have kept : s.Keeps strict (.onEngine .collect) (s.setMemory m) :=
      ⟨sound.withMachine held moved, moved, fun none => absurd trivial none⟩
    refine .of_ok (a := .number (m.counter s.machine.engine.counter).count) (t := s.setMemory m) ?_
      ⟨kept, answered_none rfl⟩
    rw [performEngine, Action.apply_bind, onMachine, Action.apply_onPart, run]
    rfl
  | checkLimit =>
    exact onMachine_performs sound ((Machine.checkLimit_bounded machine (.refl _)).worsen
      fun _ _ exceeded => .inr exceeded)
  | halt =>
    exact ((onMachine_safe sound (fun _ _ => True) (Machine.halt_safe machine)).answer
      fun _ _ _ => answered_none rfl).performs sound
  | describe => exact (Safe.read sound (answered_none rfl)).performs sound

end Holders

/-! ## All commands -/

/-- A stack that has its roots already gets a name; the one that had the name goes. -/
theorem placeStack_apply (sound : s.Sound strict) (name : String) {m : Memory} (stack : Stack)
    (held : Stack.Held strict s.roots (m, stack)) (recounts : s.memory.Recounts m) :
    ∃ t, (placeStack name stack).apply (s.setMemory m) = (.ok (), t) ∧ t.Sound strict ∧
      s.Moves t := by
  cases found : s.namedStacks[name]? with
  | none =>
    rw [roots_of_no_stack found] at held
    refine ⟨_, ?_, sound.withNamedStack held recounts.extends, recounts.advances⟩
    have absent : (s.setMemory m).namedStacks[name]? = none := found
    rw [placeStack, Action.apply_modify, dropStack, absent]
    rfl
  | some old =>
    have memory := held.sound
    rw [roots_of_stack found, add_left_comm] at memory
    have old_lt : old.counter < m.counters.length :=
      Nat.lt_of_lt_of_le (sound.stackCounters name old found) recounts.extends.counters
    have old_held : Stack.Held strict
        (Memory.rootsOf stack.counter stack.items + s.besideStack name) (m, old) := ⟨memory, old_lt⟩
    obtain ⟨memory', recounts'⟩ := Stack.drop_sound old_held
    have both := recounts.trans recounts'
    refine ⟨_, ?_, sound.withNamedStack ⟨memory', recounts'.counters ▸ held.counter⟩ both.extends,
      both.advances⟩
    have present : (s.setMemory m).namedStacks[name]? = some old := found
    rw [placeStack, Action.apply_modify, dropStack, present, ← insert_erase s.namedStacks]
    rfl

theorem placeSlot_apply (sound : s.Sound strict) (name : String) {m : Memory} (slot : Slot)
    (held : Slot.Held strict s.roots (m, slot)) (recounts : s.memory.Recounts m) :
    ∃ t, (placeSlot name slot).apply (s.setMemory m) = (.ok (), t) ∧ t.Sound strict ∧
      s.Moves t := by
  cases found : s.namedSlots[name]? with
  | none =>
    rw [roots_of_no_slot found] at held
    refine ⟨_, ?_, sound.withNamedSlot held recounts.extends, recounts.advances⟩
    have absent : (s.setMemory m).namedSlots[name]? = none := found
    rw [placeSlot, Action.apply_modify, dropSlot, absent]
    rfl
  | some old =>
    have memory := held.sound
    rw [roots_of_slot found, add_left_comm] at memory
    have old_lt : old.counter < m.counters.length :=
      Nat.lt_of_lt_of_le (sound.slotCounters name old found) recounts.extends.counters
    have old_held : Slot.Held strict (Memory.rootsOf slot.counter slot.items + s.besideSlot name)
        (m, old) := ⟨memory, old_lt⟩
    obtain ⟨memory', recounts'⟩ := Slot.drop_sound old_held
    have both := recounts.trans recounts'
    refine ⟨_, ?_, sound.withNamedSlot ⟨memory', recounts'.counters ▸ held.counter⟩ both.extends,
      both.advances⟩
    have present : (s.setMemory m).namedSlots[name]? = some old := found
    rw [placeSlot, Action.apply_modify, dropSlot, present, ← insert_erase s.namedSlots]
    rfl

theorem newStack_safe (sound : s.Sound strict) (name : String) {c : CounterId}
    (hc : c < s.memory.counters.length) :
    Safe strict (fun _ _ => True) (placeStack name { counter := c }) s := by
  obtain ⟨t, run, kept, moved⟩ := placeStack_apply sound name { counter := c }
    (Carries.empty sound.memory hc) (.refl s.memory)
  exact .of_ok run ⟨kept, moved, trivial⟩

/-- A new slot takes its name, or is refused and has lost the roots that it had got. -/
theorem newSlot_ends (sound : s.Sound strict) (name : String) {c : CounterId}
    (hc : c < s.memory.counters.length) {xs : List Item}
    (known : ∀ x ∈ xs, s.memory.heap.Knows x) :
    Action.Ends
      (fun e t => (∃ why, e = .invalidOperation why) ∧ (∃ x ∈ xs, ∀ l, x ≠ .leaf l) ∧
        t.Sound strict ∧ s.Moves t)
      (fun _ t => t.Sound strict ∧ s.Moves t)
      (onMemory (Slot.create c xs) >>= placeSlot name) s := by
  have created : Action.Ends
      (fun e t => (∃ why, e = .invalidOperation why) ∧ (∃ x ∈ xs, ∀ l, x ≠ .leaf l) ∧
        t.Sound strict ∧ s.Moves t)
      (fun slot t => ∃ m, t = s.setMemory m ∧ Slot.Held strict s.roots (m, slot) ∧
        s.memory.Recounts m) (onMemory (Slot.create c xs)) s := by
    refine (Slot.create_ends sound.memory hc known).onPart Session.memory ?_ ?_
    · rintro e m ⟨why, container, rolled, recounts⟩
      exact ⟨why, container, sound.withMemory rolled recounts.extends, recounts.advances⟩
    · rintro slot m ⟨rfl, carries, recounts⟩
      exact ⟨m, rfl, carries, recounts⟩
  refine created.bind ?_
  rintro slot t ⟨m, rfl, held, recounts⟩
  obtain ⟨t, placed, kept, moved⟩ := placeSlot_apply sound name slot held recounts
  exact .of_ok placed ⟨kept, moved⟩

theorem forget_safe (sound : s.Sound strict) (name : String) :
    Safe strict (fun _ _ => True)
      (modify fun s : Session => { s with names := s.names.erase name }) s :=
  .of_ok rfl ⟨⟨sound.machine, sound.stackCounters, sound.slotCounters, forall_erase sound.names⟩,
    .refl s.memory, trivial⟩

theorem perform_performs (sound : s.Sound strict) (round : Nat) (command : Command)
    (balanced : command.Balanced (¬strict) s.memory.counters.length) :
    Performs strict command (perform round command) s := by
  match command, balanced with
  | .create name what, balanced =>
    refine Action.Ends.bind ((createItem_ends sound round what balanced).worsen ?_) ?_
    · rintro e t ⟨⟨why, rfl⟩, kept, moved, ⟨source, limits, rfl⟩ | rfl⟩
      · exact ⟨.of_moves kept moved, .inl trivial⟩
      · exact ⟨.of_moves kept moved, .inr rfl⟩
    · rintro x t ⟨kept, moved, known⟩
      have named : (bind name x).apply t =
          (.ok (), { t with names := t.names.insert name x }) := rfl
      obtain ⟨kept', -, -⟩ := (bind_safe kept name known).ok named
      refine .of_ok (a := .item x) (t := { t with names := t.names.insert name x }) ?_
        ⟨.of_moves kept' moved, answered_item known⟩
      rw [Action.apply_bind, named]
      rfl
  | .forget name, _ =>
    exact ((forget_safe sound name).answer fun _ _ _ => answered_none rfl).performs sound
  | .describe x, _ =>
    refine Safe.performs ?_ sound
    refine (value_ends sound round x).bind ?_
    rintro y t ⟨rfl, -⟩
    exact Safe.read sound (answered_none rfl)
  | .equal a b, _ =>
    refine Safe.performs ?_ sound
    refine (value_ends sound round a).bind ?_
    rintro a t ⟨rfl, -⟩
    refine (value_ends sound round b).bind ?_
    rintro b t ⟨rfl, -⟩
    exact .pure ⟨sound, .refl t.memory, answered_none rfl⟩
  | .distinct xs, _ =>
    refine Safe.performs ?_ sound
    refine (values_ends sound round xs).bind ?_
    rintro ys t ⟨rfl, -⟩
    exact .pure ⟨sound, .refl t.memory, answered_none rfl⟩
  | .onList name command, _ =>
    refine Safe.performs ?_ sound
    refine (target_ends sound [.array, .struct] name).bind ?_
    rintro id t ⟨rfl, kind, form, known⟩
    obtain ⟨xs, listed⟩ := known.list (by simpa using form)
    exact performList_safe sound round (ListObject.knows_of_list listed (.inl rfl)) command
  | .onMap name command, _ =>
    refine Safe.performs ?_ sound
    refine (target_ends sound [.map] name).bind ?_
    rintro id t ⟨rfl, kind, form, known⟩
    obtain rfl := List.mem_singleton.1 form
    exact performMap_safe sound round known command
  | .onBuffer name command, _ =>
    refine Safe.performs ?_ sound
    refine (target_ends sound [.buffer] name).bind ?_
    rintro id t ⟨rfl, kind, form, known⟩
    obtain rfl := List.mem_singleton.1 form
    exact performBuffer_safe sound known command
  | .newCounter, _ =>
    exact ((onMemory_safe sound sound.memory.newCounter).answer
      fun _ _ _ => answered_none rfl).performs sound
  | .onCounter c command, balanced =>
    exact performCounter_performs sound round balanced.1 command balanced.2
  | .newStack name c, balanced =>
    exact ((newStack_safe sound name balanced).answer
      fun _ _ _ => answered_none rfl).performs sound
  | .dropStack name, _ =>
    obtain ⟨kept, recounts⟩ := dropStack_sound sound name
    have dropped : Safe strict (fun _ _ => True) (modify (dropStack name)) s :=
      .of_ok rfl ⟨kept, recounts.advances, trivial⟩
    exact (dropped.answer fun _ _ _ => answered_none rfl).performs sound
  | .onStack name command, _ => exact performStack_performs sound round name command
  | .newSlot name xs c, balanced =>
    refine Action.Ends.bind ((values_ends sound round xs).worsen ?_) ?_
    · rintro e t ⟨⟨why, rfl⟩, rfl⟩
      exact ⟨.refl sound, .inr rfl⟩
    · rintro ys t ⟨rfl, known⟩
      rw [← bind_assoc]
      refine Action.Ends.bind ((newSlot_ends sound name balanced known).worsen ?_)
        fun _ _ kept => .pure ⟨.of_moves kept.1 kept.2, answered_none rfl⟩
      rintro e u ⟨⟨why, rfl⟩, -, kept, moved⟩
      exact ⟨.of_moves kept moved, .inl trivial⟩
  | .newNullSlot name n c, balanced =>
    have nulls : ∀ x ∈ List.replicate n Item.null, x = .null :=
      fun x hx => (List.mem_replicate.1 hx).2
    change Performs strict _ (onMemory (Slot.create c (List.replicate n .null)) >>= fun slot =>
      placeSlot name slot >>= fun _ => pure .done) s
    rw [← bind_assoc]
    refine Action.Ends.bind ((newSlot_ends sound name balanced
      fun x hx => nulls x hx ▸ .leaf _ _).worsen ?_) fun _ _ kept =>
        .pure ⟨.of_moves kept.1 kept.2, answered_none rfl⟩
    rintro e u ⟨-, ⟨x, hx, container⟩, -⟩
    exact absurd (nulls x hx) (container .null)
  | .dropSlot name, _ =>
    obtain ⟨kept, recounts⟩ := dropSlot_sound sound name
    have dropped : Safe strict (fun _ _ => True) (modify (dropSlot name)) s :=
      .of_ok rfl ⟨kept, recounts.advances, trivial⟩
    exact (dropped.answer fun _ _ _ => answered_none rfl).performs sound
  | .onSlot name command, _ => exact (performSlot_safe sound round name command).performs sound
  | .onEngine command, _ => exact performEngine_performs sound round command

end Session

end LiveItems
