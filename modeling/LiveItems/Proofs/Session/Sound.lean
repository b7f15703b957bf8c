import LiveItems.Session.Basic
import LiveItems.Proofs.Engine
import LiveItems.Proofs.Container.Basic
set_option autoImplicit false

namespace LiveItems

open Memory

section Named

variable {β : Type} (counter : β → CounterId) (items : β → List Item)

def namedRoots (t : Std.ExtTreeMap String β) : CounterId → Multiset Item :=
  (t.toList.map fun e => rootsOf (counter e.2) (items e.2)).sum

variable {t : Std.ExtTreeMap String β} {name : String} {v : β}

theorem nodup_toList (t : Std.ExtTreeMap String β) : t.toList.Nodup := by
  refine List.Nodup.of_map Prod.fst ?_
  rw [Std.ExtTreeMap.map_fst_toList_eq_keys]
  exact Std.ExtTreeMap.nodup_keys

theorem mem_toList_erase {e : String × β} :
    e ∈ (t.erase name).toList ↔ e ∈ t.toList ∧ e.1 ≠ name := by
  obtain ⟨k, w⟩ := e
  rw [Std.ExtTreeMap.mem_toList_iff_getElem?_eq_some,
    Std.ExtTreeMap.mem_toList_iff_getElem?_eq_some,
    Std.ExtTreeMap.getElem?_erase]
  by_cases same : k = name
  · simp [same]
  · simp [same, Ne.symm same]

theorem toList_insert_perm (t : Std.ExtTreeMap String β) (name : String) (v : β) :
    (t.insert name v).toList.Perm ((name, v) :: (t.erase name).toList) := by
  have apart : (name, v) ∉ (t.erase name).toList := fun h => (mem_toList_erase.1 h).2 rfl
  refine (List.perm_ext_iff_of_nodup (nodup_toList _)
    (List.nodup_cons.2 ⟨apart, nodup_toList _⟩)).2 fun e => ?_
  obtain ⟨k, w⟩ := e
  rw [List.mem_cons, mem_toList_erase, Std.ExtTreeMap.mem_toList_iff_getElem?_eq_some,
    Std.ExtTreeMap.mem_toList_iff_getElem?_eq_some, Std.ExtTreeMap.getElem?_insert]
  by_cases same : k = name
  · simp [same, eq_comm]
  · simp [same, Ne.symm same]

theorem insert_of_get (found : t[name]? = some v) : t.insert name v = t := by
  refine Std.ExtTreeMap.ext_getElem? fun k => ?_
  rw [Std.ExtTreeMap.getElem?_insert]
  by_cases same : name = k
  · simp [← same, found]
  · simp [same]

theorem erase_of_none (absent : t[name]? = none) : t.erase name = t := by
  refine Std.ExtTreeMap.ext_getElem? fun k => ?_
  rw [Std.ExtTreeMap.getElem?_erase]
  by_cases same : name = k
  · simp [← same, absent]
  · simp [same]

theorem insert_erase (t : Std.ExtTreeMap String β) (name : String) (v : β) :
    (t.erase name).insert name v = t.insert name v := by
  refine Std.ExtTreeMap.ext_getElem? fun k => ?_
  rw [Std.ExtTreeMap.getElem?_insert, Std.ExtTreeMap.getElem?_insert,
    Std.ExtTreeMap.getElem?_erase]
  by_cases same : name = k
  · simp [same]
  · simp [same]

theorem namedRoots_insert (t : Std.ExtTreeMap String β) (name : String) (v : β) :
    namedRoots counter items (t.insert name v) =
      rootsOf (counter v) (items v) + namedRoots counter items (t.erase name) := by
  rw [namedRoots, ((toList_insert_perm t name v).map _).sum_eq, List.map_cons, List.sum_cons]
  rfl

theorem namedRoots_of_get (found : t[name]? = some v) :
    namedRoots counter items t =
      rootsOf (counter v) (items v) + namedRoots counter items (t.erase name) := by
  rw [← namedRoots_insert, insert_of_get found]

theorem exists_of_mem_namedRoots {x : Item} {c : CounterId}
    (hx : x ∈ namedRoots counter items t c) :
    ∃ (name : String) (v : β), t[name]? = some v ∧ x ∈ items v := by
  have among : ∀ es : List (String × β),
      x ∈ (es.map fun e => rootsOf (counter e.2) (items e.2)).sum c →
      ∃ e ∈ es, x ∈ items e.2 := by
    intro es
    induction es with
    | nil => exact fun hx => absurd hx (Multiset.notMem_zero x)
    | cons e es ih =>
      intro hx
      rw [List.map_cons, List.sum_cons, Pi.add_apply] at hx
      rcases Multiset.mem_add.1 hx with hx | hx
      · exact ⟨e, List.mem_cons_self, mem_of_mem_rootsOf hx⟩
      · obtain ⟨e', he, hx⟩ := ih hx
        exact ⟨e', List.mem_cons_of_mem e he, hx⟩
  obtain ⟨e, he, hx⟩ := among t.toList hx
  exact ⟨e.1, e.2, Std.ExtTreeMap.mem_toList_iff_getElem?_eq_some.1 he, hx⟩

theorem forall_insert {p : β → Prop} (all : ∀ (k : String) (w : β), t[k]? = some w → p w)
    (new : p v) :
    ∀ (k : String) (w : β), (t.insert name v)[k]? = some w → p w := by
  intro k w found
  rw [Std.ExtTreeMap.getElem?_insert] at found
  split at found
  · exact Option.some.inj found ▸ new
  · exact all k w found

theorem forall_erase {p : β → Prop} (all : ∀ (k : String) (w : β), t[k]? = some w → p w) :
    ∀ (k : String) (w : β), (t.erase name)[k]? = some w → p w := by
  intro k w found
  rw [Std.ExtTreeMap.getElem?_erase] at found
  split at found
  · exact absurd found (by simp)
  · exact all k w found

end Named

namespace Session

def stackRoots (s : Session) : CounterId → Multiset Item :=
  namedRoots Stack.counter Stack.items s.namedStacks

def slotRoots (s : Session) : CounterId → Multiset Item :=
  namedRoots Slot.counter Slot.items s.namedSlots

/-- All roots: each position of a stack or a slot that holds an item, by counter. -/
def roots (s : Session) : CounterId → Multiset Item :=
  s.machine.engine.roots + (s.stackRoots + s.slotRoots)

def besideStack (s : Session) (name : String) : CounterId → Multiset Item :=
  s.machine.engine.roots +
    (namedRoots Stack.counter Stack.items (s.namedStacks.erase name) + s.slotRoots)

def besideSlot (s : Session) (name : String) : CounterId → Multiset Item :=
  s.machine.engine.roots +
    (s.stackRoots + namedRoots Slot.counter Slot.items (s.namedSlots.erase name))

theorem roots_of_stack {s : Session} {name : String} {stack : Stack}
    (found : s.namedStacks[name]? = some stack) :
    s.roots = rootsOf stack.counter stack.items + s.besideStack name := by
  rw [roots, stackRoots, namedRoots_of_get _ _ found, besideStack, add_assoc, add_left_comm]

theorem roots_of_slot {s : Session} {name : String} {slot : Slot}
    (found : s.namedSlots[name]? = some slot) :
    s.roots = rootsOf slot.counter slot.items + s.besideSlot name := by
  rw [roots, slotRoots, namedRoots_of_get _ _ found, besideSlot, add_left_comm s.stackRoots,
    add_left_comm]

theorem roots_of_no_stack {s : Session} {name : String} (absent : s.namedStacks[name]? = none) :
    s.roots = s.besideStack name := by
  rw [roots, stackRoots, besideStack, erase_of_none absent]

theorem roots_of_no_slot {s : Session} {name : String} (absent : s.namedSlots[name]? = none) :
    s.roots = s.besideSlot name := by
  rw [roots, slotRoots, besideSlot, erase_of_none absent]

structure Sound (strict : Prop) (s : Session) : Prop where
  machine : s.machine.Held strict (s.stackRoots + s.slotRoots)
  stackCounters : ∀ (name : String) (stack : Stack), s.namedStacks[name]? = some stack →
    stack.counter < s.memory.counters.length
  slotCounters : ∀ (name : String) (slot : Slot), s.namedSlots[name]? = some slot →
    slot.counter < s.memory.counters.length
  names : ∀ (name : String) (x : Item), s.names[name]? = some x → s.memory.heap.Knows x

theorem Sound.memory {strict : Prop} {s : Session} (sound : s.Sound strict) :
    s.memory.Sound strict s.roots := sound.machine.sound

def Moves (s t : Session) : Prop := s.memory.Advances t.memory

abbrev Safe {α : Type} (strict : Prop) (post : α → Session → Prop) (x : Action Session α)
    (s : Session) : Prop :=
  Action.Ends (Action.Refused s) (fun a t => t.Sound strict ∧ s.Moves t ∧ post a t) x s

def stackAt (s : Session) : Option String → Option Stack
  | some name => s.namedStacks[name]?
  | none => some s.machine.engine.stack

variable {strict : Prop} {s t : Session} {x : Item} {α : Type} {name : String}

theorem start_counter (limits : Limits) (supply : IdSupply) (c : CounterId) :
    (start limits supply).memory.counter c = Counter.fresh := by
  cases c with
  | zero => rfl
  | succ c => exact counter_of_le (Nat.succ_le_succ (Nat.zero_le c))

theorem roots_start (limits : Limits) (supply : IdSupply) : (start limits supply).roots = 0 := by
  have none : ∀ {β : Type} (counter : β → CounterId) (items : β → List Item),
      namedRoots counter items {} = 0 := fun _ _ => rfl
  rw [roots, stackRoots, slotRoots]
  simp only [start, none, Engine.roots, rootsOf_nil, staticRoots, add_zero]

theorem start_sound (strict : Prop) (limits : Limits) (supply : IdSupply) :
    (start limits supply).Sound strict := by
  have empty : ∀ p, (start limits supply).memory.heap.object? p = none := by
    intro p
    simp [start, memory, Heap.object?]
  have nothing : ∀ p, (start limits supply).memory.heap.children p = [] := by
    intro p
    rw [Heap.children, Heap.storage?, empty]
    rfl
  have wf : (start limits supply).memory.heap.WellFormed 1 := by
    refine ⟨fun p hp => ?_, fun p x hx => ?_, fun p c owned => ?_⟩
    · obtain ⟨o, ho⟩ := Heap.mem_ids.1 hp
      exact absurd ho (by simp [empty])
    · exact absurd hx (by simp [nothing])
    · exact absurd owned (by simp [Heap.owner, empty])
  have memory : (start limits supply).memory.Sound strict (start limits supply).roots := by
    rw [roots_start]
    refine ⟨wf, fun c hc => ?_, fun c => ?_, fun c x hx => absurd hx (Multiset.notMem_zero x),
      fun _ _ => rfl⟩
    · obtain rfl := Nat.lt_one_iff.1 hc
      exact Counter.accounts_fresh strict _ _
    · rw [start_counter]
      rfl
  exact ⟨⟨memory, Nat.one_pos, Nat.one_pos, fun slot found => absurd found (by simp [start])⟩,
    fun k stack found => absurd found (by simp [start]),
    fun k slot found => absurd found (by simp [start]),
    fun k x found => absurd found (by simp [start])⟩

section Parts

variable (sound : s.Sound strict)
include sound

theorem Sound.withMachine {machine : Machine}
    (held : machine.Held strict (s.stackRoots + s.slotRoots))
    (moved : s.memory.Extends machine.memory) : Sound strict { s with machine } :=
  ⟨held, fun k stack found => Nat.lt_of_lt_of_le (sound.stackCounters k stack found) moved.counters,
    fun k slot found => Nat.lt_of_lt_of_le (sound.slotCounters k slot found) moved.counters,
    fun k x found => moved.heap.knows (sound.names k x found)⟩

theorem Sound.extend (memory : t.memory.Sound strict t.roots) (moved : s.memory.Extends t.memory)
    (engine : t.machine.engine = s.machine.engine) (names : t.names = s.names)
    (stackCounters : ∀ (k : String) (stack : Stack), t.namedStacks[k]? = some stack →
      stack.counter < t.memory.counters.length)
    (slotCounters : ∀ (k : String) (slot : Slot), t.namedSlots[k]? = some slot →
      slot.counter < t.memory.counters.length) : t.Sound strict := by
  have grown : s.memory.counters.length ≤ t.memory.counters.length := moved.counters
  refine ⟨⟨memory, ?_, ?_, fun slot found => ?_⟩, stackCounters, slotCounters, fun k x found => ?_⟩
  · rw [engine]
    exact Nat.lt_of_lt_of_le sound.machine.counter grown
  · rw [engine]
    exact Nat.lt_of_lt_of_le sound.machine.stack grown
  · rw [engine] at found
    exact Nat.lt_of_lt_of_le (sound.machine.statics slot found) grown
  · rw [names] at found
    exact moved.heap.knows (sound.names k x found)

theorem Sound.stacks_lt (moved : s.memory.Extends t.memory) (k : String) (stack : Stack)
    (found : s.namedStacks[k]? = some stack) : stack.counter < t.memory.counters.length :=
  Nat.lt_of_lt_of_le (sound.stackCounters k stack found) moved.counters

theorem Sound.slots_lt (moved : s.memory.Extends t.memory) (k : String) (slot : Slot)
    (found : s.namedSlots[k]? = some slot) : slot.counter < t.memory.counters.length :=
  Nat.lt_of_lt_of_le (sound.slotCounters k slot found) moved.counters

theorem Sound.withMemory {m : Memory} (kept : m.Sound strict s.roots)
    (moved : s.memory.Extends m) : (s.setMemory m).Sound strict :=
  sound.extend (t := s.setMemory m) kept moved rfl rfl (sound.stacks_lt moved)
    (sound.slots_lt moved)

theorem onMachine_ends (post : α → Memory → Prop) {x : Action Machine α}
    {failed : Error → Machine → Prop} {failed' : Error → Session → Prop}
    (ends : Action.Ends failed
      (fun a t => t.Held strict (s.stackRoots + s.slotRoots) ∧
        s.machine.memory.Recounts t.memory ∧ post a t.memory) x s.machine)
    (worse : ∀ e machine, failed e machine → failed' e { s with machine }) :
    Action.Ends failed' (fun a t => t.Sound strict ∧ s.Moves t ∧ post a t.memory)
      (onMachine x) s :=
  ends.onPart (fun s : Session => s.machine) worse fun _ _ kept =>
    ⟨sound.withMachine kept.1 kept.2.1.extends, kept.2.1.advances, kept.2.2⟩

theorem onMachine_safe (post : α → Memory → Prop) {x : Action Machine α}
    (safe : Machine.Safe strict (s.stackRoots + s.slotRoots) (fun a t => post a t.memory) x
      s.machine) : Safe strict (fun a t => post a t.memory) (onMachine x) s := by
  refine onMachine_ends sound post safe ?_
  rintro e machine ⟨why, rfl⟩
  exact ⟨why, rfl⟩

theorem onMemory_safe {post : α → Memory → Prop} {x : Action Memory α}
    (safe : Memory.Safe strict s.roots post x s.memory) :
    Safe strict (fun a t => post a t.memory) (onMemory x) s := by
  refine safe.onPart Session.memory ?_ fun _ _ kept =>
    ⟨sound.withMemory kept.1 kept.2.1.toExtends, kept.2.1, kept.2.2⟩
  rintro e m ⟨why, rfl⟩
  exact ⟨why, rfl⟩

theorem Sound.onNamedStack {stack : Stack} (found : s.namedStacks[name]? = some stack) :
    Stack.Held strict (s.besideStack name) (s.memory, stack) := by
  refine ⟨?_, sound.stackCounters name stack found⟩
  have memory := sound.memory
  rwa [roots_of_stack found] at memory

theorem Sound.withNamedStack {m : Memory} {stack : Stack}
    (held : Stack.Held strict (s.besideStack name) (m, stack)) (moved : s.memory.Extends m) :
    Sound strict { s.setMemory m with namedStacks := s.namedStacks.insert name stack } := by
  have memory := held.sound
  rw [besideStack, add_left_comm, ← add_assoc (rootsOf _ _), ← namedRoots_insert] at memory
  exact sound.extend (t := { s.setMemory m with namedStacks := s.namedStacks.insert name stack })
    memory moved rfl rfl (forall_insert (sound.stacks_lt moved) held.counter)
    (sound.slots_lt moved)

theorem Sound.onNamedSlot {slot : Slot} (found : s.namedSlots[name]? = some slot) :
    Slot.Held strict (s.besideSlot name) (s.memory, slot) := by
  refine ⟨?_, sound.slotCounters name slot found⟩
  have memory := sound.memory
  rwa [roots_of_slot found] at memory

theorem Sound.withNamedSlot {m : Memory} {slot : Slot}
    (held : Slot.Held strict (s.besideSlot name) (m, slot)) (moved : s.memory.Extends m) :
    Sound strict { s.setMemory m with namedSlots := s.namedSlots.insert name slot } := by
  have memory := held.sound
  rw [besideSlot, add_left_comm, add_left_comm _ s.stackRoots, ← namedRoots_insert] at memory
  exact sound.extend (t := { s.setMemory m with namedSlots := s.namedSlots.insert name slot })
    memory moved rfl rfl (sound.stacks_lt moved)
    (forall_insert (sound.slots_lt moved) held.counter)

/-- A change of any stack does what it does beside any other roots. It is refused when there is no
stack of the name. -/
theorem onStack_ends (post : α → Memory → Prop) (target : Option String)
    {x : Action (Memory × Stack) α} (fails : Stack → Error → Prop)
    (ends : ∀ (roots : CounterId → Multiset Item) (u : Memory × Stack), u.1 = s.memory →
      Stack.Held strict roots u →
      Action.Ends (fun e t => fails u.2 e ∧ t = u)
        (fun a t => Stack.Held strict roots t ∧ Stack.Moves u t ∧ post a t.1) x u) :
    Action.Ends
      (fun e t => Action.Refused s e t ∨ (∃ stack ∈ s.stackAt target, fails stack e) ∧ t = s)
      (fun a t => t.Sound strict ∧ s.Moves t ∧ post a t.memory) (onStack target x) s := by
  cases target with
  | none =>
    have onEngine : Action.Ends (fun e t => fails s.machine.engine.stack e ∧ t = s.machine)
        (fun a t => t.Held strict (s.stackRoots + s.slotRoots) ∧
          s.machine.memory.Recounts t.memory ∧ post a t.memory) (Machine.onStack x) s.machine :=
      Machine.onStack_ends sound.machine post (ends _ _ rfl sound.machine.onStack)
        fun e t failed => ⟨failed.1, by rw [failed.2]⟩
    refine onMachine_ends sound post onEngine ?_
    rintro e machine ⟨failed, rfl⟩
    exact .inr ⟨⟨_, rfl, failed⟩, rfl⟩
  | some name =>
    refine .get_bind ?_
    cases found : s.namedStacks[name]? with
    | none =>
      simp only
      exact .refuse (.inl (.intro _ s))
    | some stack =>
      simp only
      refine (ends _ _ rfl (sound.onNamedStack found)).onPart
        (fun s : Session => (s.memory, stack)) ?_ fun _ _ kept =>
          ⟨sound.withNamedStack kept.1 kept.2.1.1.extends, kept.2.1.1.advances, kept.2.2⟩
      rintro e u ⟨failed, rfl⟩
      refine .inr ⟨⟨stack, found, failed⟩, ?_⟩
      rw [insert_of_get found]
      rfl

theorem onStack_safe (post : α → Memory → Prop) (target : Option String)
    {x : Action (Memory × Stack) α}
    (safe : ∀ (roots : CounterId → Multiset Item) (u : Memory × Stack), u.1 = s.memory →
      Stack.Held strict roots u → Stack.Safe strict roots (fun a t => post a t.1) x u) :
    Safe strict (fun a t => post a t.memory) (onStack target x) s := by
  refine (onStack_ends sound post target (fun _ e => ∃ why, e = .invalidOperation why)
    safe).worsen ?_
  rintro e t (refused | ⟨⟨_, -, why⟩, rfl⟩)
  · exact refused
  · exact ⟨why, rfl⟩

theorem onNamedSlot_safe (post : α → Memory → Prop) (name : String)
    {x : Action (Memory × Slot) α}
    (safe : ∀ (roots : CounterId → Multiset Item) (u : Memory × Slot), u.1 = s.memory →
      Slot.Held strict roots u → Slot.Safe strict roots (fun a t => post a t.1) x u) :
    Safe strict (fun a t => post a t.memory) (onNamedSlot name x) s := by
  refine .get_bind ?_
  cases found : s.namedSlots[name]? with
  | none =>
    simp only
    exact .refuse (.intro _ s)
  | some slot =>
    simp only
    refine (safe _ _ rfl (sound.onNamedSlot found)).onPart
      (fun s : Session => (s.memory, slot)) ?_ fun _ _ kept =>
        ⟨sound.withNamedSlot kept.1 kept.2.1.1.extends, kept.2.1.1.advances, kept.2.2⟩
    rintro e u ⟨why, rfl⟩
    refine ⟨why, ?_⟩
    rw [insert_of_get found]
    rfl

theorem dropStack_sound (name : String) :
    (s.dropStack name).Sound strict ∧ s.memory.Recounts (s.dropStack name).memory := by
  rw [dropStack]
  cases found : s.namedStacks[name]? with
  | none => exact ⟨sound, .refl s.memory⟩
  | some stack =>
    obtain ⟨memory, recounts⟩ := Stack.drop_sound (sound.onNamedStack found)
    have moved := recounts.extends
    simp only
    refine ⟨sound.extend memory moved rfl rfl (forall_erase (sound.stacks_lt moved))
      (sound.slots_lt moved), recounts⟩

theorem dropSlot_sound (name : String) :
    (s.dropSlot name).Sound strict ∧ s.memory.Recounts (s.dropSlot name).memory := by
  rw [dropSlot]
  cases found : s.namedSlots[name]? with
  | none => exact ⟨sound, .refl s.memory⟩
  | some slot =>
    obtain ⟨memory, recounts⟩ := Slot.drop_sound (sound.onNamedSlot found)
    have moved := recounts.extends
    simp only
    refine ⟨sound.extend memory moved rfl rfl (sound.stacks_lt moved)
      (forall_erase (sound.slots_lt moved)), recounts⟩

end Parts

end Session

end LiveItems
