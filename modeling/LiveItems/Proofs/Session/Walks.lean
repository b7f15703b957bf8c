import LiveItems.Proofs.Session.Reachable
import LiveItems.Proofs.Container.Walks
import LiveItems.Proofs.Engine.Walks
set_option autoImplicit false

namespace LiveItems

open LiveItems.Action (Ends)
open Memory

/-- The command refers to counters that there are. It may call them directly in any way. -/
def Command.InRange (counters : Nat) : Command → Prop
  | .create _ what => what.Balanced counters
  | .onCounter c _ => c < counters
  | .newStack _ c => c < counters
  | .newSlot _ _ c => c < counters
  | .newNullSlot _ _ c => c < counters
  | _ => True

namespace Session

/-! ## What a command concerns -/

def ownerOf (s : Session) (name : String) : Set CounterId :=
  {c | ∃ x, s.names[name]? = some x ∧ s.memory.heap.ownerOf x = some c}

def stackCounter (s : Session) (name : String) : Set CounterId :=
  {c | ∃ stack, s.namedStacks[name]? = some stack ∧ stack.counter = c}

def slotCounter (s : Session) (name : String) : Set CounterId :=
  {c | ∃ slot, s.namedSlots[name]? = some slot ∧ slot.counter = c}

/-- The counters that a command may change. A new stack or slot takes the place of the one that has
its name. -/
def concerns (s : Session) : Command → Set CounterId
  | .create _ (.copy source _) => s.ownerOf source
  | .onList name _ => s.ownerOf name
  | .onMap name _ => s.ownerOf name
  | .onBuffer name _ => s.ownerOf name
  | .onCounter c _ => {c}
  | .newStack name _ => s.stackCounter name
  | .dropStack name => s.stackCounter name
  | .onStack (some name) _ => s.stackCounter name
  | .onStack none _ => {s.machine.engine.counter}
  | .newSlot name _ c => insert c (s.slotCounter name)
  | .newNullSlot name _ c => insert c (s.slotCounter name)
  | .dropSlot name => s.slotCounter name
  | .onSlot name _ => s.slotCounter name
  | .onEngine _ => {s.machine.engine.counter}
  | _ => ∅

/-! ## Sessions with known items -/

structure Proper (s : Session) : Prop where
  machine : s.machine.Proper
  namedStacks : ∀ (name : String) (stack : Stack), s.namedStacks[name]? = some stack →
    Stack.Hosted (s.memory, stack)
  namedSlots : ∀ (name : String) (slot : Slot), s.namedSlots[name]? = some slot →
    Slot.Hosted (s.memory, slot)
  names : ∀ (name : String) (x : Item), s.names[name]? = some x → s.memory.heap.Knows x

structure Leads (A : Set CounterId) (s t : Session) : Prop where
  walks : s.memory.Walks A t.memory
  proper : t.Proper

abbrev Leading {α : Type} (A : Set CounterId) (post : α → Session → Prop) (x : Action Session α)
    (s : Session) : Prop :=
  Ends (fun _ t => Leads A s t) (fun a t => Leads A s t ∧ post a t) x s

variable {A B : Set CounterId} {s t u : Session} {x : Item} {α β : Type} {name : String}
  {post : α → Session → Prop} {mid : β → Session → Prop}

theorem Leads.trans (first : Leads A s t) (second : Leads A t u) : Leads A s u :=
  ⟨first.walks.trans second.walks, second.proper⟩

instance (A : Set CounterId) : IsTrans Session (Leads A) where
  trans _ _ _ := Leads.trans

theorem Proper.refl (proper : s.Proper) (A : Set CounterId) : Leads A s s :=
  ⟨.refl A s.memory, proper⟩

theorem Proper.apart (proper : s.Proper) : s.memory.Apart := proper.machine.apart

theorem Leading.bind {x : Action Session β} {f : β → Action Session α} (first : Leading A mid x s)
    (next : ∀ b t, Leads A s t → mid b t → Leading A post (f b) t) :
    Leading A post (x >>= f) s :=
  Ends.along first next

theorem Leading.answer {x : Action Session β} {f : β → Answer} (leading : Leading A mid x s)
    (answered : ∀ b t, mid b t → Answered (f b) t) :
    Leading A Answered (x >>= fun b => pure (f b)) s :=
  leading.bind fun b t leads reached => Ends.pure ⟨leads.proper.refl A, answered b t reached⟩

theorem Leading.attempt {x : Action Session α} (leading : Leading A post x s) :
    Leads A s (x.attempt s) := by
  rcases leading.cases with ⟨e, t, run, leads⟩ | ⟨a, t, run, leads, -⟩
  · rwa [Action.attempt_eq, run]
  · rwa [Action.attempt_eq, run]

theorem Leading.widen {x : Action Session α} (leading : Leading A post x s) (sub : A ⊆ B) :
    Leading B post x s :=
  leading.mono (fun _ _ leads => ⟨leads.walks.mono sub, leads.proper⟩)
    fun _ _ reached => ⟨⟨reached.1.walks.mono sub, reached.1.proper⟩, reached.2⟩

theorem Leading.checked {x : Action Session β} {f : β → Action Session α} (proper : s.Proper)
    (first : Ends (fun _ t => t = s) (fun b t => t = s ∧ mid b t) x s)
    (next : ∀ b, mid b s → Leading A post (f b) s) : Leading A post (x >>= f) s := by
  refine (first.worsen ?_).bind ?_
  · rintro _ t rfl
    exact proper.refl A
  · rintro b t ⟨rfl, answered⟩
    exact next b answered

section Parts

variable (proper : s.Proper)
include proper

/-- Whatever is new must be known, and whatever was known still is. -/
theorem Proper.move (walks : s.memory.Walks A t.memory) (machine : t.machine.Proper)
    (ofStacks : ∀ (k : String) (stack : Stack), t.namedStacks[k]? = some stack →
      s.namedStacks[k]? = some stack ∨ Stack.Hosted (t.memory, stack))
    (ofSlots : ∀ (k : String) (slot : Slot), t.namedSlots[k]? = some slot →
      s.namedSlots[k]? = some slot ∨ Slot.Hosted (t.memory, slot))
    (ofNames : ∀ (k : String) (x : Item), t.names[k]? = some x →
      s.names[k]? = some x ∨ t.memory.heap.Knows x) : Leads A s t := by
  have apart := walks.apart proper.apart
  have grown := (walks.extends proper.apart).counters
  refine ⟨walks, machine, fun k stack found => ?_, fun k slot found => ?_, fun k x found => ?_⟩
  · rcases ofStacks k stack found with old | new
    · have hosted := proper.namedStacks k stack old
      exact ⟨apart, hosted.bound.trans_le grown,
        fun x hx => walks.knows proper.apart (hosted.known x hx)⟩
    · exact new
  · rcases ofSlots k slot found with old | new
    · have hosted := proper.namedSlots k slot old
      exact ⟨apart, hosted.bound.trans_le grown,
        fun x hx => walks.knows proper.apart (hosted.known x hx)⟩
    · exact new
  · rcases ofNames k x found with old | new
    · exact walks.knows proper.apart (proper.names k x old)
    · exact new

theorem Proper.setMemory {m : Memory} (walks : s.memory.Walks A m) : Leads A s (s.setMemory m) :=
  proper.move (t := s.setMemory m) walks (proper.machine.setMemory walks) (fun _ _ old => .inl old)
    (fun _ _ old => .inl old) fun _ _ old => .inl old

theorem onMemory_changes {post : α → Memory → Prop} {x : Action Memory α}
    (walking : Memory.Walking A post x s.memory) :
    Leading A (fun a t => t = s.setMemory t.memory ∧ post a t.memory) (onMemory x) s :=
  Ends.onPart Session.memory walking (fun _ _ walks => proper.setMemory walks)
    fun _ _ walks => ⟨proper.setMemory walks.1, rfl, walks.2⟩

theorem onMemory_leading {post : α → Memory → Prop} {x : Action Memory α}
    (walking : Memory.Walking A post x s.memory) :
    Leading A (fun a t => post a t.memory) (onMemory x) s :=
  (onMemory_changes proper walking).imp fun _ _ reached => ⟨reached.1, reached.2.2⟩

theorem onMachine_leading {post : α → Memory → Prop} {x : Action Machine α}
    (leading : Machine.Leading post x s.machine) :
    Leading {s.machine.engine.counter} (fun a t => post a t.memory) (onMachine x) s := by
  have beside : ∀ machine, Machine.Leads s.machine machine →
      Leads {s.machine.engine.counter} s { s with machine } := fun machine leads =>
    proper.move (t := { s with machine }) leads.walks leads.proper (fun _ _ old => .inl old)
      (fun _ _ old => .inl old) fun _ _ old => .inl old
  exact Ends.onPart (fun s : Session => s.machine) leading (fun _ t leads => beside t leads)
    fun _ t leads => ⟨beside t leads.1, leads.2⟩

/-! ## Named stacks and slots -/

theorem Proper.withStack {m : Memory} {stack : Stack} (walks : s.memory.Walks A m)
    (hosted : Stack.Hosted (m, stack)) :
    Leads A s { s.setMemory m with namedStacks := s.namedStacks.insert name stack } := by
  refine proper.move (t := { s.setMemory m with namedStacks := s.namedStacks.insert name stack })
    walks (proper.machine.setMemory walks) ?_ (fun _ _ old => .inl old) fun _ _ old => .inl old
  intro k stack found
  rw [Std.ExtTreeMap.getElem?_insert] at found
  split at found
  · exact .inr (Option.some.inj found ▸ hosted)
  · exact .inl found

theorem Proper.withSlot {m : Memory} {slot : Slot} (walks : s.memory.Walks A m)
    (hosted : Slot.Hosted (m, slot)) :
    Leads A s { s.setMemory m with namedSlots := s.namedSlots.insert name slot } := by
  refine proper.move (t := { s.setMemory m with namedSlots := s.namedSlots.insert name slot })
    walks (proper.machine.setMemory walks) (fun _ _ old => .inl old) ?_ fun _ _ old => .inl old
  intro k slot found
  rw [Std.ExtTreeMap.getElem?_insert] at found
  split at found
  · exact .inr (Option.some.inj found ▸ hosted)
  · exact .inl found

theorem onNamedStack_leading {post : α → Memory → Prop} {x : Action (Memory × Stack) α}
    (leading : ∀ stack, s.namedStacks[name]? = some stack → Stack.Hosted (s.memory, stack) →
      Stack.Leading post x (s.memory, stack)) :
    Leading (s.stackCounter name) (fun a t => post a t.memory) (onNamedStack name x) s := by
  refine Ends.get_bind ?_
  cases found : s.namedStacks[name]? with
  | none =>
    simp only
    exact Ends.refuse (proper.refl _)
  | some stack =>
    simp only
    have hosted := proper.namedStacks name stack found
    have beside : ∀ p, LiveItems.Leads Stack.counter Stack.items (s.memory, stack) p →
        Leads (s.stackCounter name) s
          { s.setMemory p.1 with namedStacks := s.namedStacks.insert name p.2 } := fun p leads =>
      proper.withStack (leads.walks.mono fun c hc => ⟨stack, found, hc.symm⟩) (hosted.leads leads)
    exact Ends.onPart (fun s : Session => (s.memory, stack)) (leading stack found hosted)
      (fun _ p leads => beside p leads) fun _ p leads => ⟨beside p leads.1, leads.2⟩

theorem onNamedSlot_leading {post : α → Memory → Prop} {x : Action (Memory × Slot) α}
    (leading : ∀ slot, s.namedSlots[name]? = some slot → Slot.Hosted (s.memory, slot) →
      Slot.Leading post x (s.memory, slot)) :
    Leading (s.slotCounter name) (fun a t => post a t.memory) (onNamedSlot name x) s := by
  refine Ends.get_bind ?_
  cases found : s.namedSlots[name]? with
  | none =>
    simp only
    exact Ends.refuse (proper.refl _)
  | some slot =>
    simp only
    have hosted := proper.namedSlots name slot found
    have beside : ∀ p, LiveItems.Leads Slot.counter Slot.items (s.memory, slot) p →
        Leads (s.slotCounter name) s
          { s.setMemory p.1 with namedSlots := s.namedSlots.insert name p.2 } := fun p leads =>
      proper.withSlot (leads.walks.mono fun c hc => ⟨slot, found, hc.symm⟩) (hosted.leads leads)
    exact Ends.onPart (fun s : Session => (s.memory, slot)) (leading slot found hosted)
      (fun _ p leads => beside p leads) fun _ p leads => ⟨beside p leads.1, leads.2⟩

theorem dropStack_leads (name : String) : Leads (s.stackCounter name) s (s.dropStack name) := by
  rw [dropStack]
  cases found : s.namedStacks[name]? with
  | none => exact proper.refl _
  | some stack =>
    have walks := (Stack.drop_walks (proper.namedStacks name stack found)).mono
      (B := s.stackCounter name) fun c hc => ⟨stack, found, hc.symm⟩
    refine proper.move (t := { s.setMemory (stack.drop s.memory) with
      namedStacks := s.namedStacks.erase name }) walks (proper.machine.setMemory walks)
      (fun k other kept => .inl ?_) (fun _ _ old => .inl old) fun _ _ old => .inl old
    rw [Std.ExtTreeMap.getElem?_erase] at kept
    exact (Option.ite_none_left_eq_some.1 kept).2

theorem dropSlot_leads (name : String) : Leads (s.slotCounter name) s (s.dropSlot name) := by
  rw [dropSlot]
  cases found : s.namedSlots[name]? with
  | none => exact proper.refl _
  | some slot =>
    have walks := (Slot.drop_walks (proper.namedSlots name slot found)).mono
      (B := s.slotCounter name) fun c hc => ⟨slot, found, hc.symm⟩
    refine proper.move (t := { s.setMemory (slot.drop s.memory) with
      namedSlots := s.namedSlots.erase name }) walks (proper.machine.setMemory walks)
      (fun _ _ old => .inl old) (fun k other kept => .inl ?_) fun _ _ old => .inl old
    rw [Std.ExtTreeMap.getElem?_erase] at kept
    exact (Option.ite_none_left_eq_some.1 kept).2

theorem placeStack_leading {stack : Stack} (hosted : Stack.Hosted (s.memory, stack)) :
    Leading (s.stackCounter name) (fun _ _ => True) (placeStack name stack) s := by
  have dropped := dropStack_leads proper name
  have still : Stack.Hosted ((s.dropStack name).memory, stack) :=
    ⟨dropped.proper.apart,
      hosted.bound.trans_le (dropped.walks.extends proper.apart).counters,
      fun x hx => dropped.walks.knows proper.apart (hosted.known x hx)⟩
  exact Ends.of_ok rfl ⟨dropped.trans (dropped.proper.withStack (.refl _ _) still), trivial⟩

theorem placeSlot_leading {slot : Slot} (hosted : Slot.Hosted (s.memory, slot)) :
    Leading (s.slotCounter name) (fun _ _ => True) (placeSlot name slot) s := by
  have dropped := dropSlot_leads proper name
  have still : Slot.Hosted ((s.dropSlot name).memory, slot) :=
    ⟨dropped.proper.apart,
      hosted.bound.trans_le (dropped.walks.extends proper.apart).counters,
      fun x hx => dropped.walks.knows proper.apart (hosted.known x hx)⟩
  exact Ends.of_ok rfl ⟨dropped.trans (dropped.proper.withSlot (.refl _ _) still), trivial⟩

/-! ## Operands -/

theorem bind_leading (name : String) (known : s.memory.heap.Knows x) :
    Leading A (fun _ t => t.memory = s.memory) (bind name x) s := by
  refine Ends.of_ok (t := { s with names := s.names.insert name x }) rfl ⟨?_, rfl⟩
  refine proper.move (t := { s with names := s.names.insert name x }) (.refl _ _) proper.machine
    (fun _ _ old => .inl old) (fun _ _ old => .inl old) fun k y found => ?_
  rw [Std.ExtTreeMap.getElem?_insert] at found
  split at found
  · exact .inr (Option.some.inj found ▸ known)
  · exact .inl found

theorem looked_up (name : String) :
    Ends (fun _ t => t = s) (fun a t => t = s ∧ s.memory.heap.Knows a ∧ s.names[name]? = some a)
      (lookup name) s := by
  refine Ends.get_bind ?_
  cases found : s.names[name]? with
  | none =>
    simp only
    exact Ends.refuse rfl
  | some x =>
    simp only
    exact Ends.pure ⟨rfl, proper.names name x found, rfl⟩

theorem valued (round : Nat) (x : Operand) :
    Ends (fun _ t => t = s) (fun a t => t = s ∧ s.memory.heap.Knows a) (value round x) s := by
  cases x with
  | leaf l => exact Ends.pure ⟨rfl, .leaf _ l⟩
  | named name => exact (looked_up proper name).imp fun _ _ found => ⟨found.1, found.2.1⟩
  | round => exact Ends.pure ⟨rfl, .leaf _ _⟩

theorem value_leading {f : Item → Action Session α} {round : Nat} {y : Operand}
    (next : ∀ x, s.memory.heap.Knows x → Leading A post (f x) s) :
    Leading A post (value round y >>= f) s :=
  Leading.checked proper (valued proper round y) next

theorem values_leading {f : List Item → Action Session α} {round : Nat} {ys : List Operand}
    (next : ∀ xs, (∀ x ∈ xs, s.memory.heap.Knows x) → Leading A post (f xs) s) :
    Leading A post (values round ys >>= f) s := by
  have valued : Ends (fun _ t => t = s) (fun xs t => t = s ∧ ∀ x ∈ xs, s.memory.heap.Knows x)
      (values round ys) s := by
    clear next
    induction ys with
    | nil => exact Ends.pure ⟨rfl, fun y hy => absurd hy List.not_mem_nil⟩
    | cons y ys ih =>
      refine (valued proper round y).bind ?_
      rintro x t ⟨rfl, known⟩
      refine ih.bind ?_
      rintro xs t ⟨rfl, others⟩
      exact Ends.pure ⟨rfl, List.forall_mem_cons.2 ⟨known, others⟩⟩
  exact Leading.checked proper valued next

/-- A direct call may name any object as a parent. -/
theorem referred_leading {f : Option ItemId → Action Session α} {round : Nat} {parent : ObjectRef}
    (next : ∀ id?, Leading A post (f id?) s) :
    Leading A post (objectId? round parent >>= f) s := by
  have referred : Ends (fun _ t => t = s) (fun _ t => t = s ∧ True)
      (objectId? round parent) s := by
    cases parent with
    | operand x =>
      refine (valued proper round x).bind ?_
      rintro y t ⟨rfl, -⟩
      exact Ends.pure ⟨rfl, trivial⟩
    | ordinal n => exact Ends.get_bind (Ends.pure ⟨rfl, trivial⟩)
  exact Leading.checked proper referred fun id? _ => next id?

theorem target_leading {kinds : List ObjectKind} {f : ItemId → Action Session α}
    (next : ∀ id kind, kind ∈ kinds → s.memory.heap.Knows (.object kind id) →
      s.memory.Governs (s.ownerOf name) id → Leading A post (f id) s) :
    Leading A post (target kinds name >>= f) s := by
  have targeted : Ends (fun _ t => t = s) (fun id t => t = s ∧ ∃ kind ∈ kinds,
      s.memory.heap.Knows (.object kind id) ∧ s.memory.Governs (s.ownerOf name) id)
      (target kinds name) s := by
    refine (looked_up proper name).bind ?_
    rintro x t ⟨rfl, known, found⟩
    cases x with
    | leaf l => exact Ends.refuse rfl
    | object kind id =>
      simp only
      split
      · rename_i listed
        refine Ends.pure ⟨rfl, kind, listed, known, known.mem_ids rfl, fun c owned => ?_⟩
        exact ⟨.object kind id, found, owned⟩
      · exact Ends.refuse rfl
  refine Leading.checked proper targeted fun id found => ?_
  obtain ⟨kind, listed, known, governs⟩ := found
  exact next id kind listed known governs

theorem read_leading {f : Session → Answer} (answered : Answered (f s) s) :
    Leading A Answered (get >>= fun s => pure (f s)) s :=
  Ends.get_bind (Ends.pure ⟨proper.refl A, answered⟩)

end Parts

/-! ## Containers -/

section Containers

variable {id : ItemId} (proper : s.Proper)
include proper

theorem onMemory_answer {post : α → Memory → Prop} {x : Action Memory α} {f : α → Answer}
    (walking : Memory.Walking A post x s.memory)
    (answered : ∀ a t, post a t → ∀ y, (f a).item? = some y → t.heap.Knows y) :
    Leading A Answered (onMemory x >>= fun a => pure (f a)) s :=
  (onMemory_leading proper walking).answer fun a t reached => answered a t.memory reached

theorem onMemory_done {post : α → Memory → Prop} {x : Action Memory α} {f : α → Answer}
    (none : ∀ a, (f a).item? = none) (walking : Memory.Walking A post x s.memory) :
    Leading A Answered (onMemory x >>= fun a => pure (f a)) s :=
  onMemory_answer proper walking fun a _ _ y hy => absurd ((none a).symm.trans hy) (by simp)

theorem createItem_leading (round : Nat) {what : Creation}
    (inRange : what.Balanced s.memory.counters.length) (name : String) :
    Leading (s.concerns (.create name what)) (fun x t => t.memory.heap.Knows x)
      (createItem round what) s := by
  match what, inRange with
  | .list kind items owner, inRange =>
    refine values_leading proper fun xs known => ?_
    refine (onMemory_leading proper (ListObject.create_walking proper.apart inRange known)).bind
      fun a t leads made => Ends.pure ⟨leads.proper.refl _, ?_⟩
    have listed : t.memory.heap.storage? a = some (.list xs) := by
      rw [Heap.storage?, made]
      rfl
    refine ListObject.knows_of_list listed ?_
    cases kind <;> simp [ListKind.object]
  | .map owner, inRange =>
    exact (onMemory_leading proper (MapObject.create_walking proper.apart inRange)).bind
      fun a t leads known => Ends.pure ⟨leads.proper.refl _, known⟩
  | .buffer bytes, _ =>
    exact (onMemory_leading proper (BufferObject.create_walking proper.apart bytes)).bind
      fun a t leads known => Ends.pure ⟨leads.proper.refl _, known⟩
  | .interop interface, _ =>
    exact Ends.of_ok (t := { s with interops := s.interops + 1 }) rfl
      ⟨proper.move (.refl _ _) proper.machine (fun _ _ old => .inl old) (fun _ _ old => .inl old)
        fun _ _ old => .inl old, .leaf _ _⟩
  | .alias x, _ =>
    refine (valued proper round x).mono (fun _ t same => same.symm ▸ proper.refl _) ?_
    rintro a t ⟨rfl, known⟩
    exact ⟨proper.refl _, known⟩
  | .copy source limits, _ =>
    refine target_leading proper fun id kind form known governs => ?_
    obtain rfl := List.mem_singleton.1 form
    exact (onMemory_leading proper (ListObject.copyStruct_walking proper.apart governs known
      limits.maxLiveItems)).bind fun a t leads made => Ends.pure ⟨leads.proper.refl _, made⟩

theorem performList_leading (round : Nat) {xs : List Item}
    (listed : s.memory.heap.storage? id = some (.list xs)) (governs : s.memory.Governs A id)
    (command : ListCommand) : Leading A Answered (performList round id command) s := by
  have apart := proper.apart
  cases command with
  | push x =>
    exact value_leading proper fun x known => onMemory_done proper (fun _ => rfl)
      (ListObject.push_walking apart governs listed known)
  | set index x =>
    exact value_leading proper fun x known => onMemory_done proper (fun _ => rfl)
      (ListObject.set_walking apart governs listed known index)
  | insert index x =>
    exact value_leading proper fun x known => onMemory_done proper (fun _ => rfl)
      (ListObject.insert_walking apart governs listed known index)
  | remove index =>
    exact onMemory_answer proper (ListObject.remove_walking apart governs listed index)
      fun _ _ known _ same => Option.some.inj same ▸ known
  | pop =>
    exact onMemory_answer proper (ListObject.pop_walking apart governs listed)
      fun _ _ known _ same => Option.some.inj same ▸ known
  | clear =>
    exact onMemory_done proper (fun _ => rfl) (ListObject.clear_walking apart governs listed)
  | reverse =>
    exact onMemory_done proper (fun _ => rfl) (ListObject.reverse_walking apart governs listed)
  | get index =>
    refine read_leading proper fun x hx => ?_
    rw [ListObject.listItems_eq listed] at hx
    exact (ListObject.stored_mayHold apart listed (List.mem_of_getElem? hx)).known
  | size => exact read_leading proper (answered_none rfl)
  | items => exact read_leading proper (answered_none rfl)
  | setReadOnly b =>
    exact onMemory_done proper (fun _ => rfl) (setReadOnly_walking apart governs b)
  | isReadOnly => exact read_leading proper (answered_none rfl)

theorem performMap_leading (round : Nat) {es : OrderedMap Item Item}
    (mapped : s.memory.heap.storage? id = some (.map es)) (governs : s.memory.Governs A id)
    (command : MapCommand) : Leading A Answered (performMap round id command) s := by
  have apart := proper.apart
  cases command with
  | set k v =>
    exact value_leading proper fun k _ => value_leading proper fun v known =>
      onMemory_answer proper (MapObject.set_walking apart mapped governs known) fun _ _ old => old
  | get k =>
    exact value_leading proper fun k _ =>
      onMemory_answer proper (MapObject.get?_walking apart mapped) fun _ _ found => found
  | remove k =>
    exact value_leading proper fun k _ =>
      onMemory_answer proper (MapObject.remove_walking apart mapped governs) fun _ _ old => old
  | contains k =>
    exact value_leading proper fun k _ => onMemory_done proper (fun _ => rfl)
      MapObject.contains_walking
  | clear =>
    exact onMemory_done proper (fun _ => rfl) (MapObject.clear_walking apart mapped governs)
  | keys => exact read_leading proper (answered_none rfl)
  | values => exact read_leading proper (answered_none rfl)
  | size => exact read_leading proper (answered_none rfl)
  | setReadOnly b =>
    exact onMemory_done proper (fun _ => rfl) (setReadOnly_walking apart governs b)
  | isReadOnly => exact read_leading proper (answered_none rfl)

theorem performBuffer_leading {data : List UInt8}
    (stored : s.memory.heap.storage? id = some (.bytes data)) (governs : s.memory.Governs A id)
    (command : BufferCommand) : Leading A Answered (performBuffer id command) s := by
  cases command with
  | get index => exact read_leading proper (answered_none rfl)
  | set index b =>
    exact onMemory_done proper (fun _ => rfl)
      (BufferObject.set_walking proper.apart governs stored index b)
  | bytes => exact read_leading proper (answered_none rfl)
  | size => exact read_leading proper (answered_none rfl)

end Containers

/-! ## Counters, stacks, slots and the engine -/

section Holders

variable (proper : s.Proper)
include proper

theorem performCounter_leading (round : Nat) {c : CounterId} (hc : c < s.memory.counters.length)
    (command : CounterCommand) : Leading {c} Answered (performCounter round c command) s := by
  have among := Set.mem_singleton c
  cases command with
  | addRoots x n =>
    exact value_leading proper fun x known => onMemory_done proper (fun _ => rfl)
      (addLooseRoots_walking among hc known n)
  | removeRoot x =>
    exact value_leading proper fun x _ => onMemory_done proper (fun _ => rfl)
      (removeRoot_walking among hc x)
  | addOccurrence x parent =>
    refine value_leading proper fun x known => referred_leading proper fun id? => ?_
    cases id? with
    | none => exact Ends.pure ⟨proper.refl _, answered_none rfl⟩
    | some id =>
      exact onMemory_done proper (fun _ => rfl) (addOccurrence_walking among hc known id)
  | removeOccurrence x parent =>
    refine value_leading proper fun x _ => referred_leading proper fun id? => ?_
    cases id? with
    | none => exact Ends.pure ⟨proper.refl _, answered_none rfl⟩
    | some id => exact onMemory_done proper (fun _ => rfl) (removeOccurrence_walking among hc x id)
  | suspect x =>
    exact value_leading proper fun x known => onMemory_done proper (fun _ => rfl)
      (suspect_walking among hc known)
  | collect =>
    exact onMemory_done proper (fun _ => rfl) (collect_walking among hc)
  | resetPeak => exact onMemory_done proper (fun _ => rfl) (resetPeak_walking among hc)
  | references x =>
    exact value_leading proper fun x _ => read_leading proper (answered_none rfl)
  | multiplicity parent x =>
    exact value_leading proper fun parent _ => value_leading proper fun x _ =>
      read_leading proper (answered_none rfl)
  | isSame other => exact Ends.pure ⟨proper.refl _, answered_none rfl⟩

theorem onStack_leading {post : α → Memory → Prop} {x : Action (Memory × Stack) α}
    (target : Option String) (command : StackCommand)
    (leading : ∀ stack, Stack.Hosted (s.memory, stack) →
      Stack.Leading post x (s.memory, stack)) :
    Leading (s.concerns (.onStack target command)) (fun a t => post a t.memory)
      (onStack target x) s := by
  cases target with
  | some name => exact onNamedStack_leading proper fun stack _ hosted => leading stack hosted
  | none =>
    exact onMachine_leading proper (Machine.onStack_leading proper.machine
      (leading s.machine.engine.stack proper.machine.onStack))

theorem performStack_leading (round : Nat) (target : Option String) (command : StackCommand) :
    Leading (s.concerns (.onStack target command)) Answered (performStack round target command)
      s := by
  -- nothing is named after an operation that yields no item
  have done : ∀ {β : Type} {post : β → Memory → Prop} {x : Action (Memory × Stack) β}
      {f : β → Answer}, (∀ b, (f b).item? = none) →
      (∀ stack, Stack.Hosted (s.memory, stack) → Stack.Leading post x (s.memory, stack)) →
      Leading (s.concerns (.onStack target command)) Answered
        (onStack target x >>= fun b => pure (f b)) s := fun none leading =>
    (onStack_leading proper target command leading).answer fun b _ _ => answered_none (none b)
  have item : ∀ {x : Action (Memory × Stack) Item},
      (∀ stack, Stack.Hosted (s.memory, stack) →
        Stack.Leading (fun a m => m.heap.Knows a) x (s.memory, stack)) →
      Leading (s.concerns (.onStack target command)) Answered
        (onStack target x >>= fun b => pure (.item b)) s := fun leading =>
    (onStack_leading proper target command leading).answer fun _ _ known => answered_item known
  have read : ∀ {β : Type} {f : Memory × Stack → β} {stack : Stack},
      Stack.Hosted (s.memory, stack) →
      Stack.Leading (fun _ _ => True) (get >>= fun p => pure (f p)) (s.memory, stack) :=
    fun hosted => Ends.get_bind (Ends.pure ⟨hosted.refl, trivial⟩)
  cases command with
  | push x =>
    exact value_leading proper fun x known => done (fun _ => rfl)
      fun stack hosted => Stack.push_leading hosted known
  | pop => exact item fun stack hosted => Stack.pop_leading hosted
  | peek depth =>
    exact item fun stack hosted => Ends.get_bind (Ends.lift (fun _ _ => hosted.refl) fun _ found =>
      ⟨hosted.refl, Stack.known_of_peek_hosted hosted found⟩)
  | remove depth => exact item fun stack hosted => Stack.remove_leading hosted depth
  | insert depth x =>
    exact value_leading proper fun x known => done (fun _ => rfl)
      fun stack hosted => Stack.insert_leading hosted known depth
  | reverse n => exact done (fun _ => rfl) fun stack hosted => Stack.reverse_leading hosted n
  | clear => exact done (fun _ => rfl) fun stack hosted => Stack.clear_leading hosted
  | size => exact done (fun _ => rfl) fun stack hosted => read hosted
  | items => exact done (fun _ => rfl) fun stack hosted => read hosted
  | counter => exact done (fun _ => rfl) fun stack hosted => read hosted

theorem performSlot_leading (round : Nat) (name : String) (command : SlotCommand) :
    Leading (s.slotCounter name) Answered (performSlot round name command) s := by
  have done : ∀ {β : Type} {post : β → Memory → Prop} {x : Action (Memory × Slot) β}
      {f : β → Answer}, (∀ b, (f b).item? = none) →
      (∀ slot, Slot.Hosted (s.memory, slot) → Slot.Leading post x (s.memory, slot)) →
      Leading (s.slotCounter name) Answered (onNamedSlot name x >>= fun b => pure (f b)) s :=
    fun none leading => (onNamedSlot_leading proper fun slot _ hosted => leading slot hosted).answer
      fun b _ _ => answered_none (none b)
  have read : ∀ {β : Type} {f : Memory × Slot → β} {slot : Slot},
      Slot.Hosted (s.memory, slot) →
      Slot.Leading (fun _ _ => True) (get >>= fun p => pure (f p)) (s.memory, slot) :=
    fun hosted => Ends.get_bind (Ends.pure ⟨hosted.refl, trivial⟩)
  cases command with
  | get index =>
    have got : ∀ slot, Slot.Hosted (s.memory, slot) →
        Slot.Leading (fun a m => m.heap.Knows a) (do (← get).2.get? index) (s.memory, slot) :=
      fun slot hosted => Ends.get_bind (Ends.lift (fun _ _ => hosted.refl) fun _ found =>
        ⟨hosted.refl, Slot.known_of_get_hosted hosted found⟩)
    exact (onNamedSlot_leading proper fun slot _ hosted => got slot hosted).answer
      fun _ _ known => answered_item known
  | set index x =>
    exact value_leading proper fun x known => done (fun _ => rfl)
      fun slot hosted => Slot.set_leading hosted known index
  | clear => exact done (fun _ => rfl) fun slot hosted => Slot.clear_leading hosted
  | size => exact done (fun _ => rfl) fun slot hosted => read hosted
  | items => exact done (fun _ => rfl) fun slot hosted => read hosted

theorem performEngine_leading (round : Nat) (command : EngineCommand) :
    Leading {s.machine.engine.counter} Answered (performEngine round command) s := by
  have machine := proper.machine
  have done : ∀ {β : Type} {post : β → Memory → Prop} {x : Action Machine β} {f : β → Answer},
      (∀ b, (f b).item? = none) → Machine.Leading post x s.machine →
      Leading {s.machine.engine.counter} Answered (onMachine x >>= fun b => pure (f b)) s :=
    fun none leading => (onMachine_leading proper leading).answer
      fun b _ _ => answered_none (none b)
  have item : ∀ {x : Action Machine Item},
      Machine.Leading (fun a m => m.heap.Knows a) x s.machine →
      Leading {s.machine.engine.counter} Answered (onMachine x >>= fun b => pure (.item b)) s :=
    fun leading => (onMachine_leading proper leading).answer
      fun _ _ known => answered_item known
  cases command with
  | push x =>
    exact value_leading proper fun x known => done (fun _ => rfl)
      (Machine.push_leading machine known)
  | pop => exact item (Machine.pop_leading machine)
  | peek depth => exact item (Machine.peek_leading machine depth)
  | initStatics n => exact done (fun _ => rfl) (Machine.initStatics_leading machine n)
  | loadStatic index => exact done (fun _ => rfl) (Machine.loadStatic_leading machine index)
  | storeStatic index => exact done (fun _ => rfl) (Machine.storeStatic_leading machine index)
  | collect => exact done (fun _ => rfl) (Machine.collect_leading machine)
  | checkLimit => exact done (fun _ => rfl) (Machine.checkLimit_leading machine)
  | halt => exact done (fun _ => rfl) (Machine.halt_leading machine)
  | describe => exact read_leading proper (answered_none rfl)

end Holders

/-! ## Commands -/

section Commands

variable (proper : s.Proper)
include proper

theorem newSlot_leading {c : CounterId} (bound : c < s.memory.counters.length) {xs : List Item}
    (known : ∀ x ∈ xs, s.memory.heap.Knows x) (name : String) :
    Leading (insert c (s.slotCounter name)) Answered (do
      placeSlot name (← onMemory (Slot.create c xs))
      return .done) s := by
  have created : Memory.Walking (insert c (s.slotCounter name))
      (fun slot _ => slot = { counter := c, items := xs }) (Slot.create c xs) s.memory :=
    (Slot.create_walking proper.apart bound known).widen
      (Set.singleton_subset_iff.2 (Set.mem_insert c _))
  refine (onMemory_changes proper created).bind fun slot t leads made => ?_
  obtain ⟨changed, rfl⟩ := made
  have slots : t.slotCounter name = s.slotCounter name := by
    rw [changed]
    rfl
  have hosted : Slot.Hosted (t.memory, { counter := c, items := xs }) :=
    ⟨leads.proper.apart, bound.trans_le (leads.walks.extends proper.apart).counters,
      fun x hx => leads.walks.knows proper.apart (known x hx)⟩
  have placed : Leading (t.slotCounter name) (fun _ _ => True)
      (placeSlot name { counter := c, items := xs }) t := placeSlot_leading leads.proper hosted
  rw [slots] at placed
  exact (placed.widen (Set.subset_insert c _)).answer fun _ _ _ => answered_none rfl

theorem perform_leading (round : Nat) (command : Command)
    (inRange : command.InRange s.memory.counters.length) :
    Leading (s.concerns command) Answered (perform round command) s := by
  match command, inRange with
  | .create name what, inRange =>
    refine (createItem_leading proper round inRange name).bind fun x t leads known => ?_
    refine (bind_leading leads.proper name known).answer fun _ u same => ?_
    exact answered_item (same ▸ known)
  | .forget name, _ =>
    refine Ends.of_ok (t := { s with names := s.names.erase name }) rfl ⟨?_, answered_none rfl⟩
    refine proper.move (t := { s with names := s.names.erase name }) (.refl _ _) proper.machine
      (fun _ _ old => .inl old) (fun _ _ old => .inl old) fun k x found => .inl ?_
    rw [Std.ExtTreeMap.getElem?_erase] at found
    exact (Option.ite_none_left_eq_some.1 found).2
  | .describe x, _ =>
    exact value_leading proper fun x _ => read_leading proper (answered_none rfl)
  | .equal a b, _ =>
    exact value_leading proper fun a _ => value_leading proper fun b _ =>
      Ends.pure ⟨proper.refl _, answered_none rfl⟩
  | .distinct xs, _ =>
    exact values_leading proper fun xs _ => Ends.pure ⟨proper.refl _, answered_none rfl⟩
  | .onList name command, _ =>
    refine target_leading proper fun id kind form known governs => ?_
    obtain ⟨xs, listed⟩ := known.list (by simpa using form)
    exact performList_leading proper round listed governs command
  | .onMap name command, _ =>
    refine target_leading proper fun id kind form known governs => ?_
    obtain rfl := List.mem_singleton.1 form
    obtain ⟨es, mapped⟩ := known.map
    exact performMap_leading proper round mapped governs command
  | .onBuffer name command, _ =>
    refine target_leading proper fun id kind form known governs => ?_
    obtain rfl := List.mem_singleton.1 form
    obtain ⟨data, stored⟩ := known.buffer
    exact performBuffer_leading proper stored governs command
  | .newCounter, _ =>
    exact onMemory_done proper (fun _ => rfl)
      (walking_of_walks (x := newCounter) ⟨[], .newCounter (.done _)⟩)
  | .onCounter c command, inRange => exact performCounter_leading proper round inRange command
  | .newStack name c, inRange =>
    have hosted : Stack.Hosted (s.memory, { counter := c }) :=
      ⟨proper.apart, inRange, fun x hx => absurd hx List.not_mem_nil⟩
    exact (placeStack_leading proper hosted).answer fun _ _ _ => answered_none rfl
  | .dropStack name, _ =>
    exact Ends.of_ok rfl ⟨dropStack_leads proper name, answered_none rfl⟩
  | .onStack target command, _ => exact performStack_leading proper round target command
  | .newSlot name xs c, inRange =>
    exact values_leading proper fun xs known => newSlot_leading proper inRange known name
  | .newNullSlot name n c, inRange =>
    exact newSlot_leading proper inRange
      (fun x hx => (List.mem_replicate.1 hx).2 ▸ .leaf _ _) name
  | .dropSlot name, _ =>
    exact Ends.of_ok rfl ⟨dropSlot_leads proper name, answered_none rfl⟩
  | .onSlot name command, _ => exact performSlot_leading proper round name command
  | .onEngine command, _ => exact performEngine_leading proper round command

theorem performNamed_leading (round : Nat) (command : Command) (saveAs : Option String)
    (inRange : command.InRange s.memory.counters.length) :
    Leading (s.concerns command) Answered (performNamed round command saveAs) s := by
  refine (perform_leading proper round command inRange).bind fun a t leads answered => ?_
  have same : ∀ u, Answered a u → u.Proper → Leading (s.concerns command) Answered (pure a) u :=
    fun u answered proper => Ends.pure ⟨proper.refl _, answered⟩
  cases saveAs with
  | none => exact same t answered leads.proper
  | some name =>
    cases item : a.item? with
    | none => exact same t answered leads.proper
    | some x =>
      refine (bind_leading leads.proper name (answered x item)).bind fun _ u named kept => ?_
      exact same u (fun y hy => kept ▸ answered y hy) named.proper

theorem conclude_leads (result : Except Error Unit) :
    Leads {s.machine.engine.counter} s
      { s with machine := (Machine.conclude result s.machine).2 } := by
  have leads := Machine.conclude_leads proper.machine result
  exact proper.move (t := { s with machine := (Machine.conclude result s.machine).2 })
    leads.walks leads.proper (fun _ _ old => .inl old) (fun _ _ old => .inl old)
    fun _ _ old => .inl old

end Commands

end Session

end LiveItems
