import LiveItems.Session.Perform
import LiveItems.Proofs.Container.Agree
import LiveItems.Proofs.Roots.Agree
import LiveItems.Proofs.Session.Sound
set_option autoImplicit false

namespace LiveItems

open LiveItems.Action (Twins)

/-! ## Names that a command uses -/

def Operand.names : Operand → List String
  | .named name => [name]
  | _ => []

def Creation.names : Creation → List String
  | .list _ xs _ => xs.flatMap Operand.names
  | .alias x => x.names
  | .copy source _ => [source]
  | _ => []

def ListCommand.names : ListCommand → List String
  | .push x => x.names
  | .set _ x => x.names
  | .insert _ x => x.names
  | _ => []

def MapCommand.names : MapCommand → List String
  | .set k v => k.names ++ v.names
  | .get k => k.names
  | .remove k => k.names
  | .contains k => k.names
  | _ => []

def StackCommand.names : StackCommand → List String
  | .push x => x.names
  | .insert _ x => x.names
  | _ => []

def SlotCommand.names : SlotCommand → List String
  | .set _ x => x.names
  | _ => []

def Command.names : Command → List String
  | .create _ what => what.names
  | .describe x => x.names
  | .equal a b => a.names ++ b.names
  | .distinct xs => xs.flatMap Operand.names
  | .onList target command => target :: command.names
  | .onMap target command => target :: command.names
  | .onBuffer target _ => [target]
  | .onStack _ command => command.names
  | .newSlot _ xs _ => xs.flatMap Operand.names
  | .onSlot _ command => command.names
  | _ => []

/-- The commands that go neither to a counter nor to the engine. -/
def Command.IsPlain : Command → Prop
  | .newCounter => False
  | .onCounter .. => False
  | .onEngine _ => False
  | _ => True

namespace Memory

variable {K : Set ItemId} {m n : Memory} {x : Item}

theorem Agrees.describe (agrees : m.Agrees K n) (within : x.Within K) :
    n.describe x = m.describe x := by
  cases x with
  | leaf l => rfl
  | object kind id =>
    have inside := within id rfl
    simp only [Memory.describe, agrees.ownerOf within, Heap.childCountOf, Item.id?,
      Option.bind_some, agrees.storage inside, Heap.childrenOf, agrees.children inside]

end Memory

namespace Session

open Memory

/-! ## Agreement -/

structure HoldsOnly (K : Set ItemId) (s : Session) : Prop where
  stack : ∀ x ∈ s.machine.engine.stack.items, x.Within K
  statics : ∀ slot, s.machine.engine.statics = some slot → ∀ x ∈ slot.items, x.Within K
  namedStacks : ∀ (name : String) (stack : Stack), s.namedStacks[name]? = some stack →
    ∀ x ∈ stack.items, x.Within K
  namedSlots : ∀ (name : String) (slot : Slot), s.namedSlots[name]? = some slot →
    ∀ x ∈ slot.items, x.Within K

/-- The same session but for the memory, and memories that agree on a set to which all that stacks
and slots hold belongs. -/
structure Agrees (K : Set ItemId) (s t : Session) : Prop where
  memory : s.memory.Agrees K t.memory
  same : t = s.setMemory t.memory
  holds : s.HoldsOnly K

def AgreesBeyond (K : Set ItemId) (s t : Session) : Prop := ∃ K', K ⊆ K' ∧ s.Agrees K' t

abbrev Matches {α : Type} (K : Set ItemId) (x : Action Session α) (s t : Session) : Prop :=
  Twins (Agrees K) (fun _ => Agrees K) x x s t

abbrev Reads {α : Type} (K : Set ItemId) (post : α → Prop) (x : Action Session α)
    (s t : Session) : Prop :=
  Twins (Agrees K) (fun a s' t' => s' = s ∧ t' = t ∧ post a) x x s t

/-- There is a new item, with agreement on what it needs and no name yet. -/
def Creates (K : Set ItemId) (base : Session) (x : Item) (s t : Session) : Prop :=
  s.names = base.names ∧ ∃ K', K ⊆ K' ∧ s.Agrees K' t ∧ x.Within K'

def UsesOnly (K : Set ItemId) (names : List String) (s : Session) : Prop :=
  ∀ name ∈ names, ∀ x, s.names[name]? = some x → x.Within K

variable {α : Type} {K : Set ItemId} {s t : Session} {m n : Memory} {x : Item} {id : ItemId}
  {name : String}

theorem UsesOnly.append_left {names others : List String} (uses : s.UsesOnly K (names ++ others)) :
    s.UsesOnly K names := fun name hn => uses name (List.mem_append_left others hn)

theorem UsesOnly.append_right {names others : List String} (uses : s.UsesOnly K (names ++ others)) :
    s.UsesOnly K others := fun name hn => uses name (List.mem_append_right names hn)

theorem UsesOnly.head {names : List String} (uses : s.UsesOnly K (name :: names)) :
    s.UsesOnly K [name] := fun other ho => uses other (List.mem_singleton.1 ho ▸ List.mem_cons_self)

theorem UsesOnly.tail {names : List String} (uses : s.UsesOnly K (name :: names)) :
    s.UsesOnly K names := fun other ho => uses other (List.mem_cons_of_mem name ho)

theorem UsesOnly.mono {K' : Set ItemId} {names : List String} (uses : s.UsesOnly K names)
    (subset : K ⊆ K') : s.UsesOnly K' names :=
  fun name hn x found => (uses name hn x found).mono subset

theorem UsesOnly.insert {names : List String} (uses : s.UsesOnly K names)
    (named : t.names = s.names.insert name x) (within : x.Within K) :
    t.UsesOnly K (name :: names) := by
  intro other ho y found
  rw [named, Std.ExtTreeMap.getElem?_insert] at found
  split at found
  · exact Option.some.inj found ▸ within
  · rename_i differs
    refine uses other ((List.mem_cons.1 ho).resolve_left ?_) y found
    rintro rfl
    exact differs Std.ReflCmp.compare_self

theorem HoldsOnly.mono {K' : Set ItemId} (holds : s.HoldsOnly K) (subset : K ⊆ K') :
    s.HoldsOnly K' :=
  ⟨fun x hx => (holds.stack x hx).mono subset,
    fun slot found x hx => (holds.statics slot found x hx).mono subset,
    fun name stack found x hx => (holds.namedStacks name stack found x hx).mono subset,
    fun name slot found x hx => (holds.namedSlots name slot found x hx).mono subset⟩

section Agrees

variable (agrees : s.Agrees K t)
include agrees

theorem Agrees.beyond : s.AgreesBeyond K t := ⟨K, subset_rfl, agrees⟩

theorem Agrees.namedStacks : t.namedStacks = s.namedStacks := by rw [agrees.same]; rfl

theorem Agrees.namedSlots : t.namedSlots = s.namedSlots := by rw [agrees.same]; rfl

theorem Agrees.names : t.names = s.names := by rw [agrees.same]; rfl

theorem Agrees.engine : t.machine.engine = s.machine.engine := by rw [agrees.same]; rfl

/-! ## Parts of the session -/

theorem Agrees.withMore {K' : Set ItemId} (subset : K ⊆ K') (kept : m.Agrees K' n) :
    (s.setMemory m).Agrees K' (t.setMemory n) :=
  ⟨kept, by rw [agrees.same]; rfl, { agrees.holds.mono subset with }⟩

theorem Agrees.withMemory (kept : m.Agrees K n) : (s.setMemory m).Agrees K (t.setMemory n) :=
  agrees.withMore subset_rfl kept

theorem Agrees.insertStack (name : String) {stack : Stack}
    (within : ∀ x ∈ stack.items, x.Within K) :
    Agrees K { s with namedStacks := s.namedStacks.insert name stack }
      { t with namedStacks := t.namedStacks.insert name stack } := by
  refine ⟨agrees.memory, by rw [agrees.same]; rfl, ?_⟩
  exact { agrees.holds with namedStacks := forall_insert agrees.holds.namedStacks within }

theorem Agrees.insertSlot (name : String) {slot : Slot} (within : ∀ x ∈ slot.items, x.Within K) :
    Agrees K { s with namedSlots := s.namedSlots.insert name slot }
      { t with namedSlots := t.namedSlots.insert name slot } := by
  refine ⟨agrees.memory, by rw [agrees.same]; rfl, ?_⟩
  exact { agrees.holds with namedSlots := forall_insert agrees.holds.namedSlots within }

theorem Agrees.dropStack (name : String) : (s.dropStack name).Agrees K (t.dropStack name) := by
  rw [Session.dropStack, Session.dropStack, agrees.namedStacks]
  cases found : s.namedStacks[name]? with
  | none => exact agrees
  | some stack =>
    have kept := agrees.withMemory (agrees.memory.sameHeap (Stack.sameHeap_drop stack s.memory)
      (Stack.sameHeap_drop stack t.memory))
    refine ⟨kept.memory, ?_,
      { kept.holds with namedStacks := forall_erase agrees.holds.namedStacks }⟩
    dsimp only
    rw [agrees.same]
    rfl

theorem Agrees.dropSlot (name : String) : (s.dropSlot name).Agrees K (t.dropSlot name) := by
  rw [Session.dropSlot, Session.dropSlot, agrees.namedSlots]
  cases found : s.namedSlots[name]? with
  | none => exact agrees
  | some slot =>
    have kept := agrees.withMemory (agrees.memory.sameHeap (Slot.sameHeap_drop slot s.memory)
      (Slot.sameHeap_drop slot t.memory))
    refine ⟨kept.memory, ?_,
      { kept.holds with namedSlots := forall_erase agrees.holds.namedSlots }⟩
    dsimp only
    rw [agrees.same]
    rfl

theorem Agrees.named (name : String) (x : Item) :
    Agrees K { s with names := s.names.insert name x } { t with names := t.names.insert name x } :=
  ⟨agrees.memory, by rw [agrees.same]; rfl, { agrees.holds with }⟩

theorem onMemory_matches {post : α → Prop} {x : Action Memory α}
    (twins : Memory.Matches K post x s.memory t.memory) : Matches K (onMemory x) s t :=
  twins.onPart (fun _ _ kept => agrees.withMemory kept) fun _ _ _ kept => agrees.withMemory kept.1

theorem onStack_matches (target : Option String) {x : Action (Memory × Stack) α}
    (twins : ∀ stack, (∀ y ∈ stack.items, y.Within K) →
      MatchesBeside Stack.items K x (s.memory, stack) (t.memory, stack)) :
    Matches K (onStack target x) s t := by
  cases target with
  | none =>
    have placed : ∀ u v : Memory × Stack, Holds Stack.items K u v →
        Agrees K
          { s with machine := ⟨u.1, { s.machine.engine with stack := u.2 }⟩ }
          { t with machine := ⟨v.1, { t.machine.engine with stack := v.2 }⟩ } := by
      intro u v holds
      refine ⟨holds.memory, ?_, { agrees.holds with stack := holds.within }⟩
      rw [holds.same, agrees.engine, agrees.same]
      rfl
    have onEngine := twins s.machine.engine.stack agrees.holds.stack
    have parts : ((t.memory, t.machine.engine.stack) : Memory × Stack) =
        (t.memory, s.machine.engine.stack) := by rw [agrees.engine]
    rw [← parts] at onEngine
    have onEngine : Twins (fun u v => Agrees K { s with machine := u } { t with machine := v })
        (fun _ u v => Agrees K { s with machine := u } { t with machine := v })
        (Machine.onStack x) (Machine.onStack x) s.machine t.machine :=
      onEngine.onPart placed fun _ => placed
    exact onEngine.onPart (fun _ _ kept => kept) fun _ _ _ kept => kept
  | some name =>
    refine .get_bind ?_
    rw [agrees.namedStacks]
    cases found : s.namedStacks[name]? with
    | none => exact .refuse agrees
    | some stack =>
      have placed : ∀ u v : Memory × Stack, Holds Stack.items K u v →
          Agrees K { s.setMemory u.1 with namedStacks := s.namedStacks.insert name u.2 }
            { t.setMemory v.1 with namedStacks := t.namedStacks.insert name v.2 } := by
        intro u v holds
        rw [holds.same]
        exact (agrees.withMemory holds.memory).insertStack name holds.within
      exact (twins stack (agrees.holds.namedStacks name stack found)).onPart placed fun _ => placed

theorem onNamedSlot_matches (name : String) {x : Action (Memory × Slot) α}
    (twins : ∀ slot, (∀ y ∈ slot.items, y.Within K) →
      MatchesBeside Slot.items K x (s.memory, slot) (t.memory, slot)) :
    Matches K (onNamedSlot name x) s t := by
  refine .get_bind ?_
  rw [agrees.namedSlots]
  cases found : s.namedSlots[name]? with
  | none => exact .refuse agrees
  | some slot =>
    have placed : ∀ u v : Memory × Slot, Holds Slot.items K u v →
        Agrees K { s.setMemory u.1 with namedSlots := s.namedSlots.insert name u.2 }
          { t.setMemory v.1 with namedSlots := t.namedSlots.insert name v.2 } := by
      intro u v holds
      rw [holds.same]
      exact (agrees.withMemory holds.memory).insertSlot name holds.within
    exact (twins slot (agrees.holds.namedSlots name slot found)).onPart placed fun _ => placed

/-! ## Operands -/

theorem Agrees.read {f : Session → Answer} (same : f t = f s) :
    Matches K (get >>= fun s => pure (f s)) s t := by
  refine .get_bind ?_
  rw [same]
  exact .pure agrees

theorem lookup_reads (uses : s.UsesOnly K [name]) : Reads K (Item.Within K) (lookup name) s t := by
  refine .get_bind ?_
  rw [agrees.names]
  cases found : s.names[name]? with
  | none => exact .refuse agrees
  | some x => exact .pure ⟨rfl, rfl, uses name List.mem_cons_self x found⟩

theorem value_reads (round : Nat) {x : Operand} (uses : s.UsesOnly K x.names) :
    Reads K (Item.Within K) (value round x) s t := by
  cases x with
  | leaf l => exact .pure ⟨rfl, rfl, .leaf K l⟩
  | named name => exact lookup_reads agrees uses
  | round => exact .pure ⟨rfl, rfl, .leaf K _⟩

theorem values_reads (round : Nat) {xs : List Operand}
    (uses : s.UsesOnly K (xs.flatMap Operand.names)) :
    Reads K (fun ys => ∀ y ∈ ys, y.Within K) (values round xs) s t := by
  induction xs with
  | nil => exact .pure ⟨rfl, rfl, fun y hy => absurd hy List.not_mem_nil⟩
  | cons x xs ih =>
    refine (value_reads agrees round uses.append_left).bind ?_
    rintro y _ _ ⟨rfl, rfl, within⟩
    refine (ih uses.append_right).bind ?_
    rintro ys _ _ ⟨rfl, rfl, others⟩
    exact .pure ⟨rfl, rfl, List.forall_mem_cons.2 ⟨within, others⟩⟩

theorem target_reads (kinds : List ObjectKind) (uses : s.UsesOnly K [name]) :
    Reads K (· ∈ K) (target kinds name) s t := by
  refine (lookup_reads agrees uses).bind ?_
  rintro x _ _ ⟨rfl, rfl, within⟩
  cases x with
  | leaf l => exact .refuse agrees
  | object kind id =>
    dsimp only
    split
    · exact .pure ⟨rfl, rfl, within id rfl⟩
    · exact .refuse agrees

/-! ## Commands -/

theorem newItem_twins (kind : ObjectKind) {x : Action Memory ItemId}
    (created : Twins (Memory.AgreesBeyond K) (fun a m n => m.AgreesBeyond (insert a K) n) x x
      s.memory t.memory) :
    Twins (AgreesBeyond K) (Creates K s) (onMemory x >>= fun a => pure (Item.object kind a))
      (onMemory x >>= fun a => pure (Item.object kind a)) s t := by
  have placed : Twins (AgreesBeyond K) (fun a => Creates K s (.object kind a)) (onMemory x)
      (onMemory x) s t := by
    refine created.onPart ?_ ?_
    · rintro m n ⟨K', subset, kept⟩
      exact ⟨K', subset, agrees.withMore subset kept⟩
    · rintro a m n ⟨K', subset, kept⟩
      have more : K ⊆ K' := (Set.subset_insert a K).trans subset
      refine ⟨rfl, K', more, agrees.withMore more kept, fun b hb => ?_⟩
      obtain rfl := Option.some.inj hb
      exact subset (Set.mem_insert a K)
  exact placed.bind fun a s t created => .pure created

theorem createItem_twins (round : Nat) (what : Creation) (uses : s.UsesOnly K what.names) :
    Twins (AgreesBeyond K) (Creates K s) (createItem round what) (createItem round what) s t := by
  have more : ∀ {x : Action Memory ItemId} {s t : Session},
      Twins (Memory.Agrees K) (fun a m n => m.Agrees (insert a K) n) x x s.memory t.memory →
      Twins (Memory.AgreesBeyond K) (fun a m n => m.AgreesBeyond (insert a K) n) x x s.memory
        t.memory := fun created =>
    created.mono (fun _ _ kept => ⟨K, subset_rfl, kept⟩) fun _ _ _ kept => ⟨_, subset_rfl, kept⟩
  match what, uses with
  | .list kind items owner, uses =>
    refine ((values_reads agrees round uses).mono (fun _ _ kept => kept.beyond)
      fun _ _ _ kept => kept).bind ?_
    rintro xs _ _ ⟨rfl, rfl, within⟩
    exact newItem_twins agrees _ (more (ListObject.create_twins agrees.memory owner within))
  | .map owner, _ =>
    exact newItem_twins agrees _ (more (MapObject.create_twins agrees.memory owner))
  | .buffer bytes, _ =>
    exact newItem_twins agrees _ (more (BufferObject.create_twins agrees.memory bytes))
  | .interop interface, _ =>
    have run : ∀ u : Session, (createItem round (.interop interface)).apply u =
        (.ok (.leaf (.interop ⟨u.interops, interface⟩)), { u with interops := u.interops + 1 }) :=
      fun _ => rfl
    have second := run t
    have given : t.interops = s.interops := by rw [agrees.same]; rfl
    rw [given] at second
    refine .of_ok (run s) second ⟨rfl, K, subset_rfl, ?_, .leaf K _⟩
    exact ⟨agrees.memory, by rw [agrees.same]; rfl, { agrees.holds with }⟩
  | .alias x, uses =>
    refine (value_reads agrees round uses).mono (fun _ _ kept => kept.beyond) ?_
    rintro y _ _ ⟨rfl, rfl, within⟩
    exact ⟨rfl, K, subset_rfl, agrees, within⟩
  | .copy source limits, uses =>
    refine ((target_reads agrees [.struct] uses).mono (fun _ _ kept => kept.beyond)
      fun _ _ _ kept => kept).bind ?_
    rintro id _ _ ⟨rfl, rfl, inside⟩
    exact newItem_twins agrees _ (ListObject.copyStruct_twins agrees.memory inside _)

theorem performList_matches (round : Nat) (inside : id ∈ K) {command : ListCommand}
    (uses : s.UsesOnly K command.names) :
    Matches K (performList round id command) s t := by
  have done : ∀ {x : Action Memory Unit}, Memory.Matches K (fun _ => True) x s.memory t.memory →
      Matches K (onMemory x >>= fun _ => pure Answer.done) s t :=
    fun twins => (onMemory_matches agrees twins).bind fun _ _ _ kept => .pure kept
  have listed := agrees.memory.listItems inside
  cases command with
  | push x =>
    refine (value_reads agrees round uses).bind ?_
    rintro y _ _ ⟨rfl, rfl, within⟩
    exact done (ListObject.push_matches agrees.memory inside within)
  | set index x =>
    refine (value_reads agrees round uses).bind ?_
    rintro y _ _ ⟨rfl, rfl, within⟩
    exact done (ListObject.set_matches agrees.memory inside index within)
  | insert index x =>
    refine (value_reads agrees round uses).bind ?_
    rintro y _ _ ⟨rfl, rfl, within⟩
    exact done (ListObject.insert_matches agrees.memory inside index within)
  | remove index =>
    exact (onMemory_matches agrees (ListObject.remove_matches agrees.memory inside index)).bind
      fun _ _ _ kept => .pure kept
  | pop =>
    exact (onMemory_matches agrees (ListObject.pop_matches agrees.memory inside)).bind
      fun _ _ _ kept => .pure kept
  | clear => exact done (ListObject.clear_matches agrees.memory inside)
  | reverse => exact done (ListObject.reverse_matches agrees.memory inside)
  | get index => exact agrees.read (by rw [listed])
  | size => exact agrees.read (by rw [listed])
  | items => exact agrees.read (by rw [listed])
  | setReadOnly value => exact done (setReadOnly_matches agrees.memory inside value)
  | isReadOnly => exact agrees.read (by rw [agrees.memory.isReadOnly inside])

theorem performMap_matches (round : Nat) (inside : id ∈ K) {command : MapCommand}
    (uses : s.UsesOnly K command.names) :
    Matches K (performMap round id command) s t := by
  have mapped := agrees.memory.mapEntries inside
  cases command with
  | set k v =>
    refine (value_reads agrees round uses.append_left).bind ?_
    rintro k _ _ ⟨rfl, rfl, -⟩
    refine (value_reads agrees round uses.append_right).bind ?_
    rintro v _ _ ⟨rfl, rfl, within⟩
    exact (onMemory_matches agrees (MapObject.set_matches agrees.memory inside within)).bind
      fun _ _ _ kept => .pure kept
  | get k =>
    refine (value_reads agrees round uses).bind ?_
    rintro k _ _ ⟨rfl, rfl, -⟩
    exact (onMemory_matches agrees (MapObject.get?_matches agrees.memory inside)).bind
      fun _ _ _ kept => .pure kept
  | remove k =>
    refine (value_reads agrees round uses).bind ?_
    rintro k _ _ ⟨rfl, rfl, -⟩
    exact (onMemory_matches agrees (MapObject.remove_matches agrees.memory inside)).bind
      fun _ _ _ kept => .pure kept
  | contains k =>
    refine (value_reads agrees round uses).bind ?_
    rintro k _ _ ⟨rfl, rfl, -⟩
    exact (onMemory_matches agrees (MapObject.contains_matches agrees.memory inside)).bind
      fun _ _ _ kept => .pure kept
  | clear =>
    exact (onMemory_matches agrees (MapObject.clear_matches agrees.memory inside)).bind
      fun _ _ _ kept => .pure kept
  | keys => exact agrees.read (by rw [mapped])
  | values => exact agrees.read (by rw [mapped])
  | size => exact agrees.read (by rw [mapped])
  | setReadOnly value =>
    exact (onMemory_matches agrees (setReadOnly_matches agrees.memory inside value)).bind
      fun _ _ _ kept => .pure kept
  | isReadOnly => exact agrees.read (by rw [agrees.memory.isReadOnly inside])

theorem performBuffer_matches (inside : id ∈ K) (command : BufferCommand) :
    Matches K (performBuffer id command) s t := by
  have stored := agrees.memory.bytes inside
  cases command with
  | get index => exact agrees.read (by rw [stored])
  | set index b =>
    exact (onMemory_matches agrees (BufferObject.set_matches agrees.memory inside index b)).bind
      fun _ _ _ kept => .pure kept
  | bytes => exact agrees.read (by rw [stored])
  | size => exact agrees.read (by rw [stored])

theorem performStack_matches (round : Nat) (target : Option String) {command : StackCommand}
    (uses : s.UsesOnly K command.names) :
    Matches K (performStack round target command) s t := by
  have reading : ∀ {α : Type} (f : Stack → α) (answer : α → Answer),
      Matches K (do return answer (← onStack target (return f (← get).2))) s t := by
    intro α f answer
    exact (onStack_matches agrees target fun stack within =>
      .get_bind (.pure ⟨agrees.memory, rfl, within⟩)).bind fun _ _ _ kept => .pure kept
  cases command with
  | push x =>
    refine (value_reads agrees round uses).bind ?_
    rintro y _ _ ⟨rfl, rfl, new⟩
    exact (onStack_matches agrees target fun stack within =>
      Stack.push_matches agrees.memory within new).bind fun _ _ _ kept => .pure kept
  | pop =>
    exact (onStack_matches agrees target fun stack within =>
      Stack.pop_matches agrees.memory within).bind fun _ _ _ kept => .pure kept
  | peek depth =>
    exact (onStack_matches agrees target fun stack within =>
      .get_bind (.lift ⟨agrees.memory, rfl, within⟩ fun _ _ =>
        ⟨agrees.memory, rfl, within⟩)).bind fun _ _ _ kept => .pure kept
  | remove depth =>
    exact (onStack_matches agrees target fun stack within =>
      Stack.remove_matches agrees.memory within depth).bind fun _ _ _ kept => .pure kept
  | insert depth x =>
    refine (value_reads agrees round uses).bind ?_
    rintro y _ _ ⟨rfl, rfl, new⟩
    exact (onStack_matches agrees target fun stack within =>
      Stack.insert_matches agrees.memory within depth new).bind fun _ _ _ kept => .pure kept
  | reverse k =>
    exact (onStack_matches agrees target fun stack within =>
      Stack.reverse_matches agrees.memory within k).bind fun _ _ _ kept => .pure kept
  | clear =>
    exact (onStack_matches agrees target fun stack _ =>
      Stack.clear_matches agrees.memory).bind fun _ _ _ kept => .pure kept
  | size => exact reading (·.items.length) .size
  | items => exact reading Stack.bottomUp .items
  | counter => exact reading Stack.counter .number

theorem performSlot_matches (round : Nat) (name : String) {command : SlotCommand}
    (uses : s.UsesOnly K command.names) :
    Matches K (performSlot round name command) s t := by
  have reading : ∀ {α : Type} (f : Slot → α) (answer : α → Answer),
      Matches K (do return answer (← onNamedSlot name (return f (← get).2))) s t := by
    intro α f answer
    exact (onNamedSlot_matches agrees name fun slot within =>
      .get_bind (.pure ⟨agrees.memory, rfl, within⟩)).bind fun _ _ _ kept => .pure kept
  cases command with
  | get index =>
    exact (onNamedSlot_matches agrees name fun slot within =>
      .get_bind (.lift ⟨agrees.memory, rfl, within⟩ fun _ _ =>
        ⟨agrees.memory, rfl, within⟩)).bind fun _ _ _ kept => .pure kept
  | set index x =>
    refine (value_reads agrees round uses).bind ?_
    rintro y _ _ ⟨rfl, rfl, new⟩
    exact (onNamedSlot_matches agrees name fun slot within =>
      Slot.set_matches agrees.memory within new index).bind fun _ _ _ kept => .pure kept
  | clear =>
    exact (onNamedSlot_matches agrees name fun slot _ =>
      Slot.clear_matches agrees.memory).bind fun _ _ _ kept => .pure kept
  | size => exact reading (·.items.length) .size
  | items => exact reading Slot.items .items

theorem placeStack_matches (name : String) {stack : Stack}
    (within : ∀ x ∈ stack.items, x.Within K) :
    Matches K (placeStack name stack) s t :=
  .modify ((agrees.dropStack name).insertStack name within)

theorem placeSlot_matches (name : String) {slot : Slot} (within : ∀ x ∈ slot.items, x.Within K) :
    Matches K (placeSlot name slot) s t :=
  .modify ((agrees.dropSlot name).insertSlot name within)

theorem newSlot_matches (name : String) (c : CounterId) {xs : List Item}
    (within : ∀ x ∈ xs, x.Within K) :
    Matches K (onMemory (Slot.create c xs) >>= fun slot =>
      placeSlot name slot >>= fun _ => pure Answer.done) s t := by
  have created : Twins (Agrees K) (fun slot s t => s.Agrees K t ∧ ∀ x ∈ slot.items, x.Within K)
      (onMemory (Slot.create c xs)) (onMemory (Slot.create c xs)) s t :=
    (Slot.create_matches agrees.memory c within).onPart (fun _ _ kept => agrees.withMemory kept)
      fun _ _ _ kept => ⟨agrees.withMemory kept.1, kept.2⟩
  refine created.bind fun slot s t kept => ?_
  exact (placeSlot_matches kept.1 name kept.2).bind fun _ _ _ kept => .pure kept

/-- A command that refers to nothing outside of the set does the same in both sessions. -/
theorem perform_matches (round : Nat) {command : Command} (plain : command.IsPlain)
    (uses : s.UsesOnly K command.names) (old : ∀ name what, command ≠ .create name what) :
    Matches K (perform round command) s t := by
  match command, plain, uses, old with
  | .create name what, _, _, old => exact absurd rfl (old name what)
  | .forget name, _, _, _ =>
    refine Twins.bind (.modify ⟨agrees.memory, ?_, { agrees.holds with }⟩)
      fun _ _ _ kept => .pure kept
    rw [agrees.same]
    rfl
  | .describe x, _, uses, _ =>
    refine (value_reads agrees round uses).bind ?_
    rintro y _ _ ⟨rfl, rfl, within⟩
    exact agrees.read (congrArg Answer.description (agrees.memory.describe within))
  | .equal a b, _, uses, _ =>
    refine (value_reads agrees round uses.append_left).bind ?_
    rintro a _ _ ⟨rfl, rfl, -⟩
    refine (value_reads agrees round uses.append_right).bind ?_
    rintro b _ _ ⟨rfl, rfl, -⟩
    exact .pure agrees
  | .distinct xs, _, uses, _ =>
    refine (values_reads agrees round uses).bind ?_
    rintro ys _ _ ⟨rfl, rfl, -⟩
    exact .pure agrees
  | .onList name command, _, uses, _ =>
    refine (target_reads agrees _ uses.head).bind ?_
    rintro id _ _ ⟨rfl, rfl, inside⟩
    exact performList_matches agrees round inside uses.tail
  | .onMap name command, _, uses, _ =>
    refine (target_reads agrees _ uses.head).bind ?_
    rintro id _ _ ⟨rfl, rfl, inside⟩
    exact performMap_matches agrees round inside uses.tail
  | .onBuffer name command, _, uses, _ =>
    refine (target_reads agrees _ uses).bind ?_
    rintro id _ _ ⟨rfl, rfl, inside⟩
    exact performBuffer_matches agrees inside command
  | .newStack name c, _, _, _ =>
    exact (placeStack_matches agrees name fun x hx => absurd hx List.not_mem_nil).bind
      fun _ _ _ kept => .pure kept
  | .dropStack name, _, _, _ =>
    exact Twins.bind (.modify (agrees.dropStack name)) fun _ _ _ kept => .pure kept
  | .onStack target command, _, uses, _ => exact performStack_matches agrees round target uses
  | .newSlot name xs c, _, uses, _ =>
    refine (values_reads agrees round uses).bind ?_
    rintro ys _ _ ⟨rfl, rfl, within⟩
    exact newSlot_matches agrees name c within
  | .newNullSlot name n c, _, _, _ =>
    refine newSlot_matches agrees name c fun x hx => ?_
    rw [(List.mem_replicate.1 hx).2]
    exact .leaf K _
  | .dropSlot name, _, _, _ =>
    exact Twins.bind (.modify (agrees.dropSlot name)) fun _ _ _ kept => .pure kept
  | .onSlot name command, _, uses, _ => exact performSlot_matches agrees round name uses

theorem performCreate_twins (round : Nat) (name : String) {what : Creation}
    (uses : s.UsesOnly K what.names) :
    Twins (AgreesBeyond K)
      (fun _ s' t' => ∃ x, s'.names = s.names.insert name x ∧
        ∃ K', K ⊆ K' ∧ s'.Agrees K' t' ∧ x.Within K')
      (perform round (.create name what)) (perform round (.create name what)) s t := by
  refine (createItem_twins agrees round what uses).bind ?_
  rintro x s' t' ⟨names, K', more, kept, within⟩
  have named : Twins (AgreesBeyond K)
      (fun _ u v => u.names = s.names.insert name x ∧ u.Agrees K' v) (bind name x) (bind name x)
      s' t' := .modify ⟨congrArg (·.insert name x) names, kept.named name x⟩
  exact named.bind fun _ _ _ done => .pure ⟨x, done.1, K', more, done.2, within⟩

end Agrees

end Session

end LiveItems
