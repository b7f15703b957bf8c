import LiveItems.Proofs.Cadence
import LiveItems.Proofs.Session.Agree
set_option autoImplicit false

/-!
# Passes are not observed

A pass empties what it collects, so the same work with and without passes leads to different
memories. As long as the work refers only to what stacks and slots reach, and to what it has just
created, it cannot tell the difference: all answers and errors are the same, and so is all that
stacks and slots reach. A last pass makes the counters record the same as well.
-/

namespace LiveItems

open LiveItems.Action (Twins)

/-! ## Work between passes -/

/-- What a host does in one go: it creates items under names, and then performs a command. -/
structure Deed where
  creations : List (String × Creation) := []
  command : Command
  saveAs : Option String := none
  round : Nat := 0
  deriving Repr, DecidableEq

inductive Event where
  | deed (d : Deed)
  | pass (c : CounterId)
  deriving Repr, DecidableEq

def Event.deed? : Event → Option Deed
  | deed d => some d
  | pass _ => none

namespace Session

def carryOut (d : Deed) : List (String × Creation) → Action Session Answer
  | [] => performNamed d.round d.command d.saveAs
  | (name, what) :: rest => do
    let _ ← performNamed d.round (.create name what) none
    carryOut d rest

/-- A deed is done to its end, whatever has become of those before it. -/
def runDeeds : List Deed → Session → List (Except Error Answer) × Session
  | [], s => ([], s)
  | d :: rest, s =>
    let (result, s) := (carryOut d d.creations).apply s
    let (results, s) := runDeeds rest s
    (result :: results, s)

def pass (c : CounterId) (s : Session) : Session :=
  (performNamed 0 (.onCounter c .collect) none).attempt s

/-- Deeds with passes in between. The results are those of the deeds. -/
def runEvents : List Event → Session → List (Except Error Answer) × Session
  | [], s => ([], s)
  | .deed d :: rest, s =>
    let (result, s) := (carryOut d d.creations).apply s
    let (results, s) := runEvents rest s
    (result :: results, s)
  | .pass c :: rest, s => runEvents rest (s.pass c)

def reached (s : Session) : Set ItemId := {a | ∃ c, s.memory.heap.Reaches (s.roots c) a}

def Refers (s : Session) (new names : List String) : Prop :=
  ∀ name ∈ names, name ∈ new ∨ ∀ x, s.names[name]? = some x → x.Within s.reached

/-- The rest of a deed uses only what stacks and slots reach, or what it has created under the new
names. -/
def Minds (d : Deed) (new : List String) : List (String × Creation) → Session → Prop
  | [], s => s.Refers new d.command.names
  | (name, what) :: rest, s => s.Refers new what.names ∧
    ∀ a t, (performNamed d.round (.create name what) none).apply s = (.ok a, t) →
      Minds d (name :: new) rest t

/-- Each deed uses only what stacks and slots reach when it comes to it, or what it creates. -/
def Mindful : List Deed → Session → Prop
  | [], _ => True
  | d :: rest, s =>
    Minds d [] d.creations s ∧ Mindful rest ((carryOut d d.creations).attempt s)

end Session

/-- The deed goes neither to a counter nor to the engine, and what it creates belongs to a counter
that there is. -/
structure Deed.Balanced (suspects : Prop) (counters : Nat) (d : Deed) : Prop where
  plain : d.command.IsPlain
  command : d.command.Balanced suspects counters
  creations : ∀ e ∈ d.creations, e.2.Balanced counters

def Event.Balanced (suspects : Prop) (counters : Nat) : Event → Prop
  | deed d => d.Balanced suspects counters
  | pass c => c < counters

/-- From their stacks and slots, the sessions cannot be told apart. -/
structure Session.Alike (s t : Session) : Prop where
  engine : t.machine.engine = s.machine.engine
  namedStacks : t.namedStacks = s.namedStacks
  namedSlots : t.namedSlots = s.namedSlots
  names : t.names = s.names
  reaches : ∀ c a, t.memory.heap.Reaches (t.roots c) a ↔ s.memory.heap.Reaches (s.roots c) a
  objects : ∀ c a, s.memory.heap.Reaches (s.roots c) a →
    t.memory.heap.object? a = s.memory.heap.object? a

/-- Both counters have recorded the same, up to the order of it. -/
structure Counter.SameRecords (c c' : Counter) : Prop where
  tracked : ∀ a, c'.isTracked a = c.isTracked a
  roots : ∀ a, c'.rootCount a = c.rootCount a
  references : ∀ a, c'.referenceCount a = c.referenceCount a
  edges : ∀ p a, (c'.edges p).multiplicity a = (c.edges p).multiplicity a
  leaves : ∀ p, c'.leafCount p = c.leafCount p
  count : c'.count = c.count

/-! ## What stacks and slots reach -/

namespace Session

open Memory

variable {suspects : Prop} {K : Set ItemId} {s t : Session} {x : Item} {a : ItemId}
  {c : CounterId} {counters : Nat}

theorem HoldsOnly.roots (holds : s.HoldsOnly K) (hx : x ∈ s.roots c) : x.Within K := by
  rw [Session.roots, Engine.roots, Pi.add_apply, Pi.add_apply, Pi.add_apply] at hx
  rcases Multiset.mem_add.1 hx with hx | hx
  · rcases Multiset.mem_add.1 hx with hx | hx
    · exact holds.stack x (mem_of_mem_rootsOf hx)
    · cases statics : s.machine.engine.statics with
      | none =>
        rw [statics] at hx
        exact absurd hx (Multiset.notMem_zero x)
      | some slot =>
        rw [statics] at hx
        exact holds.statics slot statics x (mem_of_mem_rootsOf hx)
  · rcases Multiset.mem_add.1 hx with hx | hx
    · obtain ⟨name, stack, found, hx⟩ := exists_of_mem_namedRoots _ _ hx
      exact holds.namedStacks name stack found x hx
    · obtain ⟨name, slot, found, hx⟩ := exists_of_mem_namedRoots _ _ hx
      exact holds.namedSlots name slot found x hx

theorem holdsOnly_reached (s : Session) : s.HoldsOnly s.reached := by
  have root : ∀ {c x}, x ∈ s.roots c → x.Within s.reached :=
    fun {c x} hx a ha => ⟨c, x, hx, a, ha, .refl⟩
  refine ⟨fun x hx => ?_, fun slot statics x hx => ?_, fun name stack found x hx => ?_,
    fun name slot found x hx => ?_⟩
  · refine root (c := s.machine.engine.stack.counter) ?_
    rw [roots, Engine.roots, add_assoc]
    exact mem_rootsOf hx _
  · refine root (c := slot.counter) ?_
    rw [roots, Engine.roots, statics, add_assoc, add_left_comm]
    exact mem_rootsOf hx _
  · refine root (c := stack.counter) ?_
    rw [roots_of_stack found]
    exact mem_rootsOf hx _
  · refine root (c := slot.counter) ?_
    rw [roots_of_slot found]
    exact mem_rootsOf hx _

section Agrees

variable (agrees : s.Agrees K t)
include agrees

theorem Agrees.roots : t.roots = s.roots := by rw [agrees.same]; rfl

theorem Agrees.symm : t.Agrees K s := by
  refine ⟨agrees.memory.symm, by rw [agrees.same]; rfl, ?_⟩
  rw [agrees.same]
  exact { agrees.holds with }

theorem Agrees.mem_of_reaches (reaches : s.memory.heap.Reaches (s.roots c) a) : a ∈ K := by
  obtain ⟨x, hx, r, hr, path⟩ := reaches
  induction path with
  | refl => exact agrees.holds.roots hx r hr
  | tail _ stores ih =>
    obtain ⟨y, hy, hb⟩ := stores
    exact agrees.memory.closed _ ih y hy _ hb

theorem Agrees.reaches (reaches : s.memory.heap.Reaches (s.roots c) a) :
    t.memory.heap.Reaches (t.roots c) a := by
  rw [agrees.roots]
  obtain ⟨x, hx, r, hr, path⟩ := reaches
  refine ⟨x, hx, r, hr, ?_⟩
  induction path with
  | refl => exact .refl
  | tail before stores ih =>
    obtain ⟨y, hy, hb⟩ := stores
    have inside := agrees.mem_of_reaches ⟨x, hx, r, hr, before⟩
    exact ih.tail ⟨y, agrees.memory.children inside ▸ hy, hb⟩

theorem Agrees.within_of_reached (within : x.Within t.reached) : x.Within K := by
  intro a ha
  obtain ⟨c, reaches⟩ := within a ha
  exact agrees.symm.mem_of_reaches reaches

/-- What a command in one session may use is in the set that the sessions agree on. -/
theorem Agrees.usesOnly {new names : List String} (known : s.UsesOnly K new)
    (refers : t.Refers new names) : s.UsesOnly K names := by
  intro name used x found
  rcases refers name used with new | old
  · exact known name new x found
  · rw [agrees.names] at old
    exact agrees.within_of_reached (old x found)

/-! ## Deeds -/

theorem createNamed_twins (round : Nat) (name : String) {what : Creation}
    (uses : s.UsesOnly K what.names) :
    Twins (AgreesBeyond K)
      (fun _ s' t' => ∃ x, s'.names = s.names.insert name x ∧
        ∃ K', K ⊆ K' ∧ s'.Agrees K' t' ∧ x.Within K')
      (performNamed round (.create name what) none) (performNamed round (.create name what) none)
      s t :=
  (performCreate_twins agrees round name uses).bind fun _ _ _ kept => .pure kept

theorem performNamed_twins (round : Nat) {command : Command} (saveAs : Option String)
    (plain : command.IsPlain) (uses : s.UsesOnly K command.names) :
    Twins (AgreesBeyond K) (fun _ => AgreesBeyond K) (performNamed round command saveAs)
      (performNamed round command saveAs) s t := by
  have performed : Twins (AgreesBeyond K) (fun _ => AgreesBeyond K) (perform round command)
      (perform round command) s t := by
    by_cases creates : ∃ name what, command = .create name what
    · obtain ⟨name, what, rfl⟩ := creates
      refine (performCreate_twins agrees round name uses).imp ?_
      rintro _ s' t' ⟨x, -, K', more, kept, -⟩
      exact ⟨K', more, kept⟩
    · push Not at creates
      exact (perform_matches agrees round plain uses creates).mono (fun _ _ kept => kept.beyond)
        fun _ _ _ kept => kept.beyond
  refine performed.bind ?_
  rintro a s' t' ⟨K', more, kept⟩
  have named : ∀ (name : String) (x : Item), Twins (AgreesBeyond K) (fun _ => AgreesBeyond K)
      (bind name x >>= fun _ => pure a) (bind name x >>= fun _ => pure a) s' t' := by
    intro name x
    have named : Twins (AgreesBeyond K) (fun _ => AgreesBeyond K) (bind name x) (bind name x)
        s' t' := .modify ⟨K', more, kept.named name x⟩
    exact named.bind fun _ _ _ kept => .pure kept
  split
  · exact named _ _
  · exact .pure ⟨K', more, kept⟩

end Agrees

/-- In balanced runs no counter finds a mismatch, so both commands end alike. -/
theorem Grown.alike {failed : Session → Session → Prop} {done : Answer → Session → Session → Prop}
    (first : Grown suspects counters s) (second : Grown suspects counters t) {round : Nat}
    {command : Command} {saveAs : Option String} (balanced : command.Balanced suspects counters)
    (twins : Twins failed done (performNamed round command saveAs)
      (performNamed round command saveAs) s t) :
    ∃ s' t', Grown suspects counters s' ∧ Grown suspects counters t' ∧
      ((∃ e, (performNamed round command saveAs).apply s = (.error e, s') ∧
        (performNamed round command saveAs).apply t = (.error e, t') ∧ failed s' t') ∨
      ∃ a, (performNamed round command saveAs).apply s = (.ok a, s') ∧
        (performNamed round command saveAs).apply t = (.ok a, t') ∧ done a s' t') := by
  have faithful : ∀ u, Grown suspects counters u →
      ¬(performNamed round command saveAs).Violates u := by
    rintro u grown ⟨why, other, run⟩
    have performs := grown.reachable.performs round saveAs (balanced.mono grown.counters)
    exact other (performs.error (Prod.ext run rfl)).2.1
  have first' := first.perform round saveAs balanced
  have second' := second.perform round saveAs balanced
  rcases (twins.resolve_left (faithful s first)).resolve_left (faithful t second) with
    ⟨e, s', t', run, run', related⟩ | ⟨a, s', t', run, run', related⟩
  · rw [Action.attempt_eq, run] at first'
    rw [Action.attempt_eq, run'] at second'
    exact ⟨s', t', first', second', .inl ⟨e, run, run', related⟩⟩
  · rw [Action.attempt_eq, run] at first'
    rw [Action.attempt_eq, run'] at second'
    exact ⟨s', t', first', second', .inr ⟨a, run, run', related⟩⟩

/-- Two balanced runs that differ only in what nothing reaches. -/
structure Linked (suspects : Prop) (counters : Nat) (s t : Session) : Prop where
  first : Grown suspects counters s
  second : Grown suspects counters t
  agrees : ∃ K, s.Agrees K t

theorem carryOut_linked {d : Deed} (plain : d.command.IsPlain)
    (balanced : d.command.Balanced suspects counters) (rest : List (String × Creation)) :
    ∀ {K : Set ItemId} {s t : Session} {new : List String},
      (∀ e ∈ rest, e.2.Balanced counters) → Grown suspects counters s → Grown suspects counters t →
      s.Agrees K t → s.UsesOnly K new → Minds d new rest t →
      ((carryOut d rest).apply s).1 = ((carryOut d rest).apply t).1 ∧
        Linked suspects counters ((carryOut d rest).attempt s) ((carryOut d rest).attempt t) := by
  induction rest with
  | nil =>
    intro K s t new _ first second agrees known minds
    have twins := performNamed_twins agrees d.round d.saveAs plain (agrees.usesOnly known minds)
    rw [carryOut, Action.attempt_eq, Action.attempt_eq]
    obtain ⟨s', t', first', second', ⟨e, run, run', kept⟩ | ⟨a, run, run', kept⟩⟩ :=
      first.alike second balanced twins
    · obtain ⟨K', -, kept⟩ := kept
      rw [run, run']
      exact ⟨rfl, first', second', K', kept⟩
    · obtain ⟨K', -, kept⟩ := kept
      rw [run, run']
      exact ⟨rfl, first', second', K', kept⟩
  | cons e rest ih =>
    intro K s t new creations first second agrees known minds
    obtain ⟨name, what⟩ := e
    obtain ⟨creation, others⟩ := List.forall_mem_cons.1 creations
    have uses : s.UsesOnly K what.names := agrees.usesOnly known minds.1
    have twins := createNamed_twins agrees d.round name uses
    have owned : (Command.create name what).Balanced suspects counters := creation
    rw [carryOut, Action.attempt_eq, Action.attempt_eq, Action.apply_bind, Action.apply_bind]
    obtain ⟨s', t', first', second', ⟨e, run, run', kept⟩ | ⟨a, run, run', kept⟩⟩ :=
      first.alike second owned twins
    · obtain ⟨K', -, kept⟩ := kept
      rw [run, run']
      exact ⟨rfl, first', second', K', kept⟩
    · obtain ⟨x, names, K', more, kept, within⟩ := kept
      rw [run, run']
      exact ih others first' second' kept ((known.mono more).insert names within)
        (minds.2 a t' run')

/-! ## Passes -/

theorem Grown.pass (grown : Grown suspects counters s) (hc : c < counters) :
    Grown suspects counters (s.pass c) := grown.perform 0 none ⟨hc, trivial⟩

theorem pass_run {strict : Prop} (sound : s.Sound strict) (hc : c < s.memory.counters.length) :
    ∃ m ids, s.pass c = s.setMemory m ∧ m.Sound strict s.roots ∧
      Collected c ids s.memory m ∧ m.heap.supply = s.memory.heap.supply ∧
      m.heap.allocated = s.memory.heap.allocated := by
  obtain ⟨m, ids, run, kept, -, collected⟩ := sound.memory.collect hc
  have supply := supply_collect s.memory c
  rw [Action.attempt_eq, run] at supply
  refine ⟨m, ids, ?_, kept, collected, supply⟩
  simp only [pass, Action.attempt_eq, performNamed, perform, performCounter, Action.apply_bind,
    onMemory, Action.apply_onPart, run]
  rfl

/-- After a pass in one of the sessions, they agree on what stacks and slots reach. -/
theorem Agrees.pass {strict : Prop} (agrees : s.Agrees K t) (sound : s.Sound strict)
    (hc : c < s.memory.counters.length) : (s.pass c).Agrees s.reached t := by
  obtain ⟨m, ids, run, -, collected, supply, allocated⟩ := pass_run sound hc
  have object : ∀ a ∈ s.reached, m.heap.object? a = s.memory.heap.object? a := by
    rintro a ⟨d, reaches⟩
    exact collected.object_of_reaches sound.memory hc reaches
  have memory : m.Agrees s.reached t.memory := by
    refine ⟨fun a ha => ?_, fun p hp x hx b hb => ?_, ?_, ?_, ?_⟩
    · obtain ⟨d, reaches⟩ := ha
      rw [agrees.memory.objects a (agrees.mem_of_reaches reaches), object a ⟨d, reaches⟩]
    · obtain ⟨d, reaches⟩ := hp
      have same : m.heap.children p = s.memory.heap.children p := by
        rw [Heap.children, Heap.storage?, object p ⟨d, reaches⟩, Heap.children, Heap.storage?]
      exact ⟨d, reaches.tail ⟨x, same ▸ hx, hb⟩⟩
    · rw [agrees.memory.supply, supply]
    · rw [agrees.memory.allocated, allocated]
    · rw [agrees.memory.counters, collected.counters]
  rw [run]
  refine ⟨memory, ?_, { holdsOnly_reached s with }⟩
  rw [agrees.same]
  rfl

/-! ## Runs -/

theorem runEvents_linked (events : List Event) : ∀ {s t : Session},
    (∀ e ∈ events, e.Balanced suspects counters) → Linked suspects counters s t →
    Mindful (events.filterMap Event.deed?) t →
    (runEvents events s).1 = (runDeeds (events.filterMap Event.deed?) t).1 ∧
      Linked suspects counters (runEvents events s).2
        (runDeeds (events.filterMap Event.deed?) t).2 := by
  induction events with
  | nil => exact fun _ linked _ => ⟨rfl, linked⟩
  | cons e events ih =>
    intro s t balanced linked mindful
    obtain ⟨own, others⟩ := List.forall_mem_cons.1 balanced
    cases e with
    | pass c =>
      obtain ⟨K, agrees⟩ := linked.agrees
      refine ih others ⟨linked.first.pass own, linked.second, s.reached, ?_⟩ mindful
      exact agrees.pass linked.first.reachable.sound (own.trans_le linked.first.counters)
    | deed d =>
      obtain ⟨K, agrees⟩ := linked.agrees
      obtain ⟨minds, mindful⟩ := mindful
      obtain ⟨same, linked⟩ := carryOut_linked own.plain own.command d.creations own.creations
        linked.first linked.second agrees (fun _ hn => absurd hn List.not_mem_nil) minds
      obtain ⟨results, linked⟩ := ih others linked mindful
      exact ⟨congrArg₂ List.cons same results, linked⟩

end Session

/-! ## What a last pass leaves -/

/-- Two exact counters that track the same objects, with the same contents and roots. -/
theorem Counter.Accounts.sameRecords {strict : Prop} {S S' : Set ItemId} {h h' : Heap}
    {held : Multiset Item} {c c' : Counter}
    (acc : Accounts strict S (fun p => h.children p) held c)
    (acc' : Accounts strict S' (fun p => h'.children p) held c') (ids : c'.ids = c.ids)
    (children : ∀ p ∈ c.ids, h'.children p = h.children p) : c.SameRecords c' := by
  have flow : ∀ p a, c'.flow p a = c.flow p a := by
    intro p a
    by_cases hp : p ∈ c.ids
    · rw [acc.mirrors.flow p hp (by simp), acc'.mirrors.flow p (ids ▸ hp) (by simp), children p hp]
    · rw [flow_eq, flow_eq, entry_of_not_mem hp, entry_of_not_mem (ids ▸ hp)]
  have leaves : ∀ p, c'.leafCount p = c.leafCount p := by
    intro p
    by_cases hp : p ∈ c.ids
    · rw [acc.mirrors.leaves p hp (by simp), acc'.mirrors.leaves p (ids ▸ hp) (by simp),
        children p hp]
    · rw [leafCount, leafCount, entry_of_not_mem hp, entry_of_not_mem (ids ▸ hp)]
  refine ⟨fun a => ?_, fun a => ?_, fun a => ?_, flow, leaves, ?_⟩
  · rw [Bool.eq_iff_iff, ← mem_ids, ← mem_ids, ids]
  · rw [acc.mirrors.rooted, acc'.mirrors.rooted]
  · rw [acc.coherent.references, acc'.coherent.references, inflow, inflow, ids]
    exact congrArg (· + 0) (Finset.sum_congr rfl fun p _ => flow p a)
  · have stored : ∑ p ∈ c.ids, leafOccurrences (h'.children p) =
        ∑ p ∈ c.ids, leafOccurrences (h.children p) :=
      Finset.sum_congr rfl fun p hp => by rw [children p hp]
    rw [acc.count_eq, acc'.count_eq, Heap.weigh, Heap.weigh, ids, stored]

namespace Memory

variable {strict : Prop} {roots roots' : CounterId → Multiset Item} {m m' n n' : Memory}
  {c : CounterId} {ids ids' : List ItemId}

/-- After passes over memories in which the roots of the counter are the same and reach the same
objects, the counter has recorded the same. -/
theorem Collected.sameRecords (collected : Collected c ids m m')
    (collected' : Collected c ids' n n')
    (before : m.Sound strict roots) (before' : n.Sound strict roots')
    (after : m'.Sound strict roots) (after' : n'.Sound strict roots')
    (hc : c < m.counters.length) (hc' : c < n.counters.length) (held : roots' c = roots c)
    (reaches : ∀ a, n.heap.Reaches (roots c) a ↔ m.heap.Reaches (roots c) a)
    (objects : ∀ a, m.heap.Reaches (roots c) a → n.heap.object? a = m.heap.object? a) :
    (m'.counter c).SameRecords (n'.counter c) := by
  have acc := after.accounts c (collected.counters ▸ hc)
  have acc' := after'.accounts c (collected'.counters ▸ hc')
  -- after the passes both counters track what their roots reach
  have tracks : ∀ a, a ∈ (m'.counter c).ids ↔ m.heap.Reaches (roots c) a := by
    intro a
    rw [Counter.mem_ids, collected.tracked_iff before hc, collected.reaches_iff before hc]
  have tracks' : ∀ a, a ∈ (n'.counter c).ids ↔ n.heap.Reaches (roots c) a := by
    intro a
    rw [Counter.mem_ids, collected'.tracked_iff before' hc', collected'.reaches_iff before' hc',
      held]
  have same : (n'.counter c).ids = (m'.counter c).ids := by
    refine Finset.ext fun a => ?_
    rw [tracks, tracks', reaches]
  rw [held] at acc'
  refine acc.sameRecords acc' same fun p hp => ?_
  have reached := (tracks p).1 hp
  have kept := collected.object_of_reaches before hc reached
  have kept' := collected'.object_of_reaches before' hc' (held.symm ▸ (reaches p).2 reached)
  rw [Heap.children, Heap.children, Heap.storage?, Heap.storage?, kept, kept', objects p reached]

end Memory

namespace Session

open Memory

variable {suspects : Prop} {K : Set ItemId} {s t : Session} {x : Item} {a : ItemId}
  {c : CounterId} {counters : Nat}

theorem Linked.sameRecords (linked : Linked suspects counters s t)
    (hc : c < s.memory.counters.length) :
    ((s.pass c).memory.counter c).SameRecords ((t.pass c).memory.counter c) := by
  obtain ⟨K, agrees⟩ := linked.agrees
  have first := linked.first.reachable.sound
  have second := linked.second.reachable.sound
  have hc' : c < t.memory.counters.length := agrees.memory.counters ▸ hc
  obtain ⟨m, ids, run, sound, collected, -⟩ := pass_run first hc
  obtain ⟨n, ids', run', sound', collected', -⟩ := pass_run second hc'
  rw [run, run']
  refine collected.sameRecords collected' first.memory second.memory sound sound' hc hc'
    (congrFun agrees.roots c) (fun a => ?_) fun a reaches =>
      agrees.memory.objects a (agrees.mem_of_reaches reaches)
  have iff : t.memory.heap.Reaches (t.roots c) a ↔ s.memory.heap.Reaches (s.roots c) a :=
    ⟨agrees.symm.reaches, agrees.reaches⟩
  rwa [agrees.roots] at iff

theorem Linked.alike (linked : Linked suspects counters s t) : s.Alike t := by
  obtain ⟨K, agrees⟩ := linked.agrees
  exact ⟨agrees.engine, agrees.namedStacks, agrees.namedSlots, agrees.names,
    fun _ _ => ⟨agrees.symm.reaches, agrees.reaches⟩,
    fun _ a reaches => agrees.memory.objects a (agrees.mem_of_reaches reaches)⟩

/-- From any state of a balanced run, deeds that use only what stacks and slots reach, or what they
have just created, give the same results with passes in between as without. Stacks and slots are the
same in the end, and so is all that they reach; and when a last pass of a counter follows, so is
what the counter has recorded. -/
theorem Reachable.passes_unobserved (reachable : Reachable suspects s) {events : List Event}
    (balanced : ∀ e ∈ events, e.Balanced suspects s.memory.counters.length)
    (mindful : Mindful (events.filterMap Event.deed?) s) :
    (runEvents events s).1 = (runDeeds (events.filterMap Event.deed?) s).1 ∧
      (runEvents events s).2.Alike (runDeeds (events.filterMap Event.deed?) s).2 ∧
      ∀ c < s.memory.counters.length,
        (((runEvents events s).2.pass c).memory.counter c).SameRecords
          (((runDeeds (events.filterMap Event.deed?) s).2.pass c).memory.counter c) := by
  have grown : Grown suspects s.memory.counters.length s := ⟨reachable, le_rfl⟩
  have holds : s.HoldsOnly Set.univ := (holdsOnly_reached s).mono (Set.subset_univ _)
  obtain ⟨results, linked⟩ := runEvents_linked events balanced
    ⟨grown, grown, Set.univ, .refl s.memory, rfl, holds⟩ mindful
  exact ⟨results, linked.alike, fun c hc =>
    linked.sameRecords (hc.trans_le linked.first.counters)⟩

def pushNew : Deed where
  creations := [("self", .list .struct [.leaf .null] (some 0))]
  command := .onStack none (.push (.named "self"))

/-- A struct is pushed, made to hold itself and dropped again, with passes in between. -/
def passing : List Event :=
  [.pass 0, .deed pushNew, .pass 0,
    .deed { command := .onList "self" (.push (.named "self")) },
    .deed { command := .onStack none .pop }, .pass 0,
    .deed { command := .onStack none .pop }]

/-- The passes find an array that nothing reaches, and then the struct; without them both are still
counted. -/
theorem passes_unobserved_abandoned :
    (runEvents passing (run abandoned (start {} default)).2).1 =
        (runDeeds (passing.filterMap Event.deed?) (run abandoned (start {} default)).2).1 ∧
      ((runEvents passing (run abandoned (start {} default)).2).2.memory.counter 0).count = 0 ∧
      ((runDeeds (passing.filterMap Event.deed?)
        (run abandoned (start {} default)).2).2.memory.counter 0).count = 3 := by
  have grown := abandoned_grown False
  have bare : ∀ n : Nat, ∀ command : Command, command.IsPlain → command.Balanced False n →
      (Event.deed { command }).Balanced False n := fun _ _ plain balanced =>
    ⟨plain, balanced, fun _ he => absurd he List.not_mem_nil⟩
  have balanced : ∀ e ∈ passing, e.Balanced False
      (run abandoned (start {} default)).2.memory.counters.length := by
    have one := grown.counters
    simp only [passing, List.forall_mem_cons]
    refine ⟨one, ⟨trivial, trivial, fun e he => ?_⟩, one, bare _ _ trivial trivial,
      bare _ _ trivial trivial, one, bare _ _ trivial trivial,
      fun _ he => absurd he List.not_mem_nil⟩
    obtain rfl : e = ("self", .list .struct [.leaf .null] (some 0)) := List.mem_singleton.1 he
    intro c hc
    obtain rfl := Option.some.inj hc
    exact one
  have held : ∀ x ∈ ((carryOut pushNew pushNew.creations).attempt
      (run abandoned (start {} default)).2).names["self"]?,
      x ∈ ((carryOut pushNew pushNew.creations).attempt
        (run abandoned (start {} default)).2).roots 0 := by
    decide +kernel
  have mindful : Mindful (passing.filterMap Event.deed?) (run abandoned (start {} default)).2 := by
    refine ⟨⟨fun _ hn => absurd hn List.not_mem_nil, fun _ _ _ _ hn => .inl hn⟩,
      fun name hn => .inr fun x found a ha => ⟨0, x, held x ?_, a, ha, .refl⟩,
      fun _ hn => absurd hn List.not_mem_nil, fun _ hn => absurd hn List.not_mem_nil, trivial⟩
    obtain rfl : name = "self" := by
      simpa [Command.names, ListCommand.names, Operand.names] using hn
    exact found
  refine ⟨(Reachable.passes_unobserved grown.reachable balanced mindful).1, ?_, ?_⟩
  · decide +kernel
  · decide +kernel

end Session

end LiveItems
