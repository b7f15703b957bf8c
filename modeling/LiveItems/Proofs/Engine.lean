import LiveItems.Engine.Basic
import LiveItems.Proofs.Roots
import LiveItems.Proofs.Memory.Collect
set_option autoImplicit false

namespace LiveItems

open Memory

def staticRoots : Option Slot → CounterId → Multiset Item
  | some slot => rootsOf slot.counter slot.items
  | none => 0

def Engine.roots (e : Engine) : CounterId → Multiset Item :=
  rootsOf e.stack.counter e.stack.items + staticRoots e.statics

namespace Machine

structure Held (strict : Prop) (roots : CounterId → Multiset Item) (s : Machine) : Prop where
  sound : s.memory.Sound strict (s.engine.roots + roots)
  counter : s.engine.counter < s.memory.counters.length
  stack : s.engine.stack.counter < s.memory.counters.length
  statics : ∀ slot, s.engine.statics = some slot → slot.counter < s.memory.counters.length

abbrev Safe {α : Type} (strict : Prop) (roots : CounterId → Multiset Item)
    (post : α → Machine → Prop) (x : Action Machine α) (s : Machine) : Prop :=
  Action.Ends (Action.Refused s)
    (fun a t => t.Held strict roots ∧ s.memory.Recounts t.memory ∧ post a t) x s

structure Exceeded (strict : Prop) (roots : CounterId → Multiset Item) (s : Machine) (e : Error)
    (t : Machine) : Prop where
  limit : ∃ count limit, e = .limitExceeded count limit
  held : t.Held strict roots
  recounts : s.memory.Recounts t.memory

abbrev Bounded (strict : Prop) (roots : CounterId → Multiset Item) (x : Action Machine Unit)
    (s t : Machine) : Prop :=
  Action.Ends (Exceeded strict roots s)
    (fun _ u => u.Held strict roots ∧ s.memory.Recounts u.memory) x t

abbrev Limited (strict : Prop) (roots : CounterId → Multiset Item) (x : Action Machine Unit)
    (s : Machine) : Prop :=
  Action.Ends (fun e t => Action.Refused s e t ∨ Exceeded strict roots s e t)
    (fun _ t => t.Held strict roots ∧ s.memory.Recounts t.memory) x s

def counted (s : Machine) : Machine :=
  { s with engine := { s.engine with executed := s.engine.executed + 1 } }

/-- The memory `m` is what the end of an instruction makes of a machine once the limit holds. -/
structure Settles (strict : Prop) (roots : CounterId → Multiset Item) (s : Machine) (m : Memory) :
    Prop where
  held : Held strict roots { s with memory := m }
  extended : s.memory.Extends m
  rested : ¬s.engine.limits.collectionInterval ∣ s.engine.executed →
    m = s.memory.setCounter s.engine.counter s.counter.resetPeak
  swept : s.engine.limits.collectionInterval ∣ s.engine.executed →
    ∃ m' ids, Collected s.engine.counter ids s.memory m' ∧
      m = m'.setCounter s.engine.counter (m'.counter s.engine.counter).resetPeak

variable {strict : Prop} {roots : CounterId → Multiset Item} {s : Machine} {x : Item} {α : Type}

theorem Held.onStack (held : s.Held strict roots) :
    Stack.Held strict (staticRoots s.engine.statics + roots) (s.memory, s.engine.stack) := by
  have sound := held.sound
  rw [Engine.roots, add_assoc] at sound
  exact ⟨sound, held.stack⟩

theorem Held.withStack (held : s.Held strict roots) {m : Memory} {stack : Stack}
    (kept : Stack.Held strict (staticRoots s.engine.statics + roots) (m, stack))
    (moved : s.memory.Extends m) :
    Held strict roots { s with memory := m, engine := { s.engine with stack } } := by
  refine ⟨?_, Nat.lt_of_lt_of_le held.counter moved.counters, kept.counter,
    fun slot hs => Nat.lt_of_lt_of_le (held.statics slot hs) moved.counters⟩
  have sound := kept.sound
  rw [← add_assoc] at sound
  exact sound

theorem Held.onStatics (held : s.Held strict roots) {slot : Slot}
    (statics : s.engine.statics = some slot) :
    Slot.Held strict (rootsOf s.engine.stack.counter s.engine.stack.items + roots)
      (s.memory, slot) := by
  have sound := held.sound
  rw [Engine.roots, statics, add_assoc, add_left_comm] at sound
  exact ⟨sound, held.statics slot statics⟩

theorem Held.withStatics (held : s.Held strict roots) {m : Memory} (slot : Slot)
    (kept : Slot.Held strict (rootsOf s.engine.stack.counter s.engine.stack.items + roots)
      (m, slot))
    (moved : s.memory.Extends m) :
    Held strict roots { s with memory := m, engine := { s.engine with statics := some slot } } := by
  refine ⟨?_, Nat.lt_of_lt_of_le held.counter moved.counters,
    Nat.lt_of_lt_of_le held.stack moved.counters, fun other hs => ?_⟩
  · have sound := kept.sound
    rw [← add_left_comm, ← add_assoc] at sound
    exact sound
  · obtain rfl := Option.some.inj hs
    exact kept.counter

theorem Held.withoutStatics (held : s.Held strict roots) {m : Memory}
    (kept : m.Sound strict (rootsOf s.engine.stack.counter s.engine.stack.items + roots))
    (moved : s.memory.Extends m) :
    Held strict roots { s with memory := m, engine := { s.engine with statics := none } } := by
  refine ⟨?_, Nat.lt_of_lt_of_le held.counter moved.counters,
    Nat.lt_of_lt_of_le held.stack moved.counters, fun other hs => absurd hs (by simp)⟩
  rw [Engine.roots, staticRoots, add_zero]
  exact kept

theorem Held.congr {t : Machine} (held : s.Held strict roots) (memory : t.memory = s.memory)
    (counter : t.engine.counter = s.engine.counter) (stack : t.engine.stack = s.engine.stack)
    (statics : t.engine.statics = s.engine.statics) : t.Held strict roots := by
  have same : t.engine.roots = s.engine.roots := by rw [Engine.roots, stack, statics]; rfl
  refine ⟨?_, ?_, ?_, ?_⟩
  · rw [memory, same]
    exact held.sound
  · rw [memory, counter]
    exact held.counter
  · rw [memory, stack]
    exact held.stack
  · rw [memory, statics]
    exact held.statics

theorem apply_checkLimit (s : Machine) :
    checkLimit.apply s =
      if s.counter.peak > s.engine.limits.maxLiveItems then
        (.error (.limitExceeded s.counter.peak s.engine.limits.maxLiveItems), s)
      else
        (.ok (), s) := by
  rw [checkLimit, Action.apply_bind, Action.apply_get]
  by_cases exceeded : s.counter.peak > s.engine.limits.maxLiveItems
  · simp only [if_pos exceeded, Action.apply_throw]
  · simp only [if_neg exceeded, Action.apply_pure]

def settle : Action Machine Unit := do
  let s ← get
  if s.engine.executed % s.engine.limits.collectionInterval = 0 then
    let _ ← collect
  onMemory (Memory.resetPeak s.engine.counter)

theorem apply_checkpoint (s : Machine) :
    checkpoint.apply s =
      if s.counter.peak > s.engine.limits.maxLiveItems then
        (.error (.limitExceeded s.counter.peak s.engine.limits.maxLiveItems), s.counted)
      else
        settle.apply s.counted := by
  have unfolded : checkpoint.apply s = (checkLimit >>= fun _ => settle).apply s.counted := rfl
  have checked : checkLimit.apply s.counted =
      if s.counter.peak > s.engine.limits.maxLiveItems then
        (.error (.limitExceeded s.counter.peak s.engine.limits.maxLiveItems), s.counted)
      else
        (.ok (), s.counted) := apply_checkLimit s.counted
  rw [unfolded, Action.apply_bind, checked]
  by_cases exceeded : s.counter.peak > s.engine.limits.maxLiveItems
  · simp only [if_pos exceeded]
  · simp only [if_neg exceeded]

/-- No pass runs at the end of an instruction that has taken the peak above the limit. -/
theorem memory_conclude_of_exceeded {s : Machine}
    (exceeded : s.counter.peak > s.engine.limits.maxLiveItems) (result : Except Error Unit) :
    (conclude result s).2.memory = s.memory := by
  cases result with
  | error e => rfl
  | ok u =>
    rw [conclude, apply_checkpoint, if_pos exceeded]
    rfl

section Operations

variable (held : s.Held strict roots)
include held

theorem onStack_ends (post : α → Memory → Prop) {x : Action (Memory × Stack) α}
    {failed : Error → Memory × Stack → Prop} {failed' : Error → Machine → Prop}
    (ends : Action.Ends failed
      (fun a t => Stack.Held strict (staticRoots s.engine.statics + roots) t ∧
        Stack.Moves (s.memory, s.engine.stack) t ∧ post a t.1) x (s.memory, s.engine.stack))
    (worse : ∀ e t, failed e t →
      failed' e { s with memory := t.1, engine := { s.engine with stack := t.2 } }) :
    Action.Ends failed'
      (fun a t => t.Held strict roots ∧ s.memory.Recounts t.memory ∧ post a t.memory)
      (onStack x) s :=
  ends.onPart (fun s : Machine => (s.memory, s.engine.stack)) worse fun _ _ kept =>
    ⟨held.withStack kept.1 kept.2.1.1.extends, kept.2.1.1, kept.2.2⟩

theorem checkLimit_bounded {base : Machine} (before : base.memory.Recounts s.memory) :
    Bounded strict roots checkLimit base s := by
  rw [Bounded, Action.Ends, apply_checkLimit]
  by_cases exceeded : s.counter.peak > s.engine.limits.maxLiveItems
  · rw [if_pos exceeded]
    exact ⟨⟨_, _, rfl⟩, held, before⟩
  · rw [if_neg exceeded]
    exact ⟨held, before⟩

theorem push_limited (known : s.memory.heap.Knows x) : Limited strict roots (push x) s := by
  refine Action.Ends.bind (onStack_ends held (fun _ _ => True)
    (Stack.push_safe held.onStack known) ?_) ?_
  · rintro e t ⟨why, rfl⟩
    exact .inl ⟨why, rfl⟩
  rintro _ t ⟨kept, recounts, -⟩
  exact (checkLimit_bounded kept recounts).worsen fun _ _ exceeded => .inr exceeded

theorem pop_ends :
    Action.Ends
      (fun e t => e = .invariantViolation .popFromEmpty ∧ s.engine.stack.items = [] ∧ t = s)
      (fun a t => t.Held strict roots ∧ s.memory.Recounts t.memory ∧ t.memory.heap.Knows a)
      pop s := by
  refine onStack_ends held (fun a m => m.heap.Knows a) (Stack.pop_ends held.onStack) ?_
  rintro e t ⟨empty, none, rfl⟩
  exact ⟨empty, none, rfl⟩

theorem peek_ends (depth : Int) :
    Action.Ends (Action.Refused s)
      (fun a t => t = s ∧ s.engine.stack.peek depth = .ok a ∧ s.memory.heap.Knows a)
      (peek depth) s := by
  refine .get_bind (.lift (fun e failed => ⟨Stack.peek_refused failed, rfl⟩) fun a found => ?_)
  exact ⟨rfl, found, Stack.known_of_peek held.onStack found⟩

theorem loadStatic_limited (index : Nat) : Limited strict roots (loadStatic index) s := by
  refine .get_bind ?_
  cases statics : s.engine.statics with
  | none =>
    simp only
    exact .refuse (.inl (.intro _ s))
  | some slot =>
    simp only
    have loaded : Action.Ends
        (fun e t => Action.Refused s e t ∨ Exceeded strict roots s e t)
        (fun a t => t = s ∧ s.memory.heap.Knows a) (liftM (slot.get? index)) s :=
      .lift (fun e failed => .inl ⟨Slot.get_refused failed, rfl⟩) fun a found =>
        ⟨rfl, Slot.known_of_get (held.onStatics statics) found⟩
    refine loaded.bind ?_
    rintro a t ⟨rfl, known⟩
    exact push_limited held known

/-- The item that is stored is the one that is popped, so there is one to pop. -/
theorem storeStatic_safe (index : Nat) :
    Safe strict roots (fun _ _ => True) (storeStatic index) s := by
  refine (peek_ends held 0).bind ?_
  rintro x t ⟨rfl, top, known⟩
  refine .get_bind ?_
  cases statics : t.engine.statics with
  | none =>
    simp only
    exact .refuse (.intro _ t)
  | some slot =>
    simp only
    have stored : Action.Ends (Action.Refused t)
        (fun _ u => u.Held strict roots ∧ t.memory.Recounts u.memory ∧
          u.engine.stack = t.engine.stack)
        ((Slot.set index x).onPart (fun s => (s.memory, slot)) fun u s =>
          { s with memory := u.1, engine := { s.engine with statics := some u.2 } }) t := by
      refine (Slot.set_safe (held.onStatics statics) known index).onPart
        (fun s : Machine => (s.memory, slot)) ?_ fun _ _ kept =>
          ⟨held.withStatics _ kept.1 kept.2.1.1.extends, kept.2.1.1, rfl⟩
      rintro e u ⟨why, rfl⟩
      refine ⟨why, ?_⟩
      rw [← statics]
    refine stored.bind ?_
    rintro _ u ⟨kept, recounts, same⟩
    refine ((pop_ends kept).worsen ?_).bind fun _ _ kept =>
      .pure ⟨kept.1, recounts.trans kept.2.1, trivial⟩
    rintro e v ⟨-, empty, -⟩
    rw [same] at empty
    rw [Stack.peek, empty] at top
    exact absurd top (by simp)

theorem initStatics_bounded (n : Nat) : Bounded strict roots (initStatics n) s s := by
  refine .get_bind ?_
  -- the new fields come when the old ones have gone
  have create : ∀ t : Machine, t.Held strict roots → t.engine.statics = none →
      s.memory.Recounts t.memory →
      Bounded strict roots (do
        let slot ← onMemory (Slot.createNulls s.engine.counter n)
        setStatics (some slot)
        checkLimit) s t := by
    intro t kept none before
    have sound := kept.sound
    rw [Engine.roots, none, staticRoots, add_zero] at sound
    obtain ⟨m', run, carries, recounts⟩ :=
      Slot.createNulls_run sound (before.counters ▸ held.counter) n
    have kept' := kept.withStatics { counter := s.engine.counter, items := List.replicate n .null }
      carries recounts.extends
    have made : (onMemory (Slot.createNulls s.engine.counter n)).apply t =
        (.ok { counter := s.engine.counter, items := List.replicate n .null },
          { t with memory := m' }) := by
      rw [onMemory, Action.apply_onPart, run]
    have placed : (setStatics (some ⟨s.engine.counter, List.replicate n .null⟩)).apply
        { t with memory := m' } = (.ok (), _) := rfl
    exact .after made (.after placed (checkLimit_bounded kept' (before.trans recounts)))
  cases statics : s.engine.statics with
  | none =>
    simp only
    exact create s held statics (.refl s.memory)
  | some old =>
    simp only
    obtain ⟨m', run, carries, recounts⟩ := (held.onStatics statics).removeAll (.refl _)
    have released : (onMemory (removeRoots old.counter old.items)).apply
        { s with engine := { s.engine with statics := none } } =
          (.ok (), { s with memory := m', engine := { s.engine with statics := none } }) := by
      rw [onMemory, Action.apply_onPart, run]
    have dropped : (setStatics none).apply s =
        (.ok (), { s with engine := { s.engine with statics := none } }) := rfl
    exact .after dropped (.after released
      (create _ (held.withoutStatics carries.without recounts.extends) rfl recounts))

theorem halt_safe : Safe strict roots (fun _ _ => True) halt s := by
  refine .get_bind ?_
  by_cases faulted : s.engine.stage = .faulted
  · simp only [if_pos faulted]
    exact .refuse (.intro _ s)
  · simp only [if_neg faulted]
    exact .of_ok rfl ⟨held.congr rfl rfl rfl rfl, .refl s.memory, trivial⟩

theorem Held.withMemory {m : Memory} (kept : m.Sound strict (s.engine.roots + roots))
    (moved : s.memory.Extends m) : Held strict roots { s with memory := m } :=
  ⟨kept, Nat.lt_of_lt_of_le held.counter moved.counters,
    Nat.lt_of_lt_of_le held.stack moved.counters,
    fun slot hs => Nat.lt_of_lt_of_le (held.statics slot hs) moved.counters⟩

theorem collect_run :
    ∃ m ids, collect.apply s = (.ok (m.counter s.engine.counter).count, { s with memory := m }) ∧
      Held strict roots { s with memory := m } ∧ s.memory.Extends m ∧
      Collected s.engine.counter ids s.memory m := by
  obtain ⟨m, ids, run, sound, moved, collected⟩ := held.sound.collect held.counter
  refine ⟨m, ids, ?_, held.withMemory sound moved, moved, collected⟩
  rw [collect, Action.apply_bind, Action.apply_get]
  simp only [onMemory, Action.apply_onPart, run]

theorem resetPeak_run :
    ∃ m, (onMemory (Memory.resetPeak s.engine.counter)).apply s = (.ok (), { s with memory := m }) ∧
      Held strict roots { s with memory := m } ∧ s.memory.Recounts m ∧
      m = s.memory.setCounter s.engine.counter s.counter.resetPeak := by
  obtain ⟨m, run, sound, recounts⟩ := held.sound.resetPeak held.counter
  refine ⟨m, ?_, held.withMemory sound recounts.extends, recounts, ?_⟩
  · rw [onMemory, Action.apply_onPart, run]
  · have same : (Memory.resetPeak s.engine.counter).apply s.memory =
        (.ok (), s.memory.setCounter s.engine.counter s.counter.resetPeak) := rfl
    rw [run] at same
    exact (Prod.mk.inj same).2

/-- Only when one is due does a pass come before the peak starts again. -/
theorem settle_run :
    ∃ m, settle.apply s = (.ok (), { s with memory := m }) ∧ Settles strict roots s m := by
  by_cases due : s.engine.executed % s.engine.limits.collectionInterval = 0
  · obtain ⟨m, ids, run, held', moved, collected⟩ := collect_run held
    obtain ⟨m', run', held'', recounts, same⟩ := resetPeak_run held'
    refine ⟨m', ?_, held'', moved.trans recounts.extends, fun rests => ?_, fun _ =>
      ⟨m, ids, collected, same⟩⟩
    · rw [settle, Action.apply_bind, Action.apply_get]
      simp only [if_pos due, Action.apply_bind, run]
      exact run'
    · exact absurd (Nat.dvd_of_mod_eq_zero due) rests
  · obtain ⟨m, run, held', recounts, same⟩ := resetPeak_run held
    refine ⟨m, ?_, held', recounts.extends, fun _ => same, fun divides => ?_⟩
    · rw [settle, Action.apply_bind, Action.apply_get]
      simp only [if_neg due]
      exact run
    · exact absurd (Nat.mod_eq_zero_of_dvd divides) due

theorem Held.counted : Held strict roots s.counted := held.congr rfl rfl rfl rfl

theorem checkpoint_run :
    (∃ count limit, checkpoint.apply s = (.error (.limitExceeded count limit), s.counted)) ∨
      ∃ m, checkpoint.apply s = (.ok (), { s.counted with memory := m }) ∧
        Settles strict roots s.counted m := by
  rw [apply_checkpoint]
  by_cases exceeded : s.counter.peak > s.engine.limits.maxLiveItems
  · rw [if_pos exceeded]
    exact .inl ⟨_, _, rfl⟩
  · rw [if_neg exceeded]
    exact .inr (settle_run held.counted)

theorem Held.raise (e : Error) : Held strict roots (s.raise e) := held.congr rfl rfl rfl rfl

/-- An instruction ends with its own error, with that of its checkpoint, or settled. -/
theorem Held.conclude (result : Except Error Unit) :
    (∃ e t, Machine.conclude result s = (.error e, t) ∧ t.Held strict roots ∧
      t.memory = s.memory ∧ (result = .error e ∨ ∃ count limit, e = .limitExceeded count limit)) ∨
    ∃ m, Machine.conclude result s = (.ok (), { s.counted with memory := m }) ∧
      result = .ok () ∧ Settles strict roots s.counted m := by
  cases result with
  | error e => exact .inl ⟨e, s.raise e, rfl, held.raise e, rfl, .inl rfl⟩
  | ok u =>
    rcases checkpoint_run held with ⟨count, limit, run⟩ | ⟨m, run, settles⟩
    · refine .inl ⟨.limitExceeded count limit, s.counted.raise (.limitExceeded count limit), ?_,
        held.counted.raise _, rfl, .inr ⟨count, limit, rfl⟩⟩
      simp only [Machine.conclude, run]
    · refine .inr ⟨m, ?_, rfl, settles⟩
      simp only [Machine.conclude, run]

theorem conclude_held (result : Except Error Unit) :
    Held strict roots (conclude result s).2 ∧ s.memory.Extends (conclude result s).2.memory := by
  rcases held.conclude result with ⟨e, t, run, held', same, -⟩ | ⟨m, run, -, settles⟩
  · rw [run]
    exact ⟨held', same ▸ .refl s.memory⟩
  · rw [run]
    exact ⟨settles.held, settles.extended⟩

/-- An engine that goes leaves the other roots. -/
theorem shutDown_sound : s.shutDown.Sound strict roots ∧ s.memory.Extends s.shutDown := by
  obtain ⟨sound, recounts⟩ := Stack.drop_sound held.onStack
  have pass : ∀ m : Memory, m.Sound strict roots → s.engine.counter < m.counters.length →
      ((Memory.collect s.engine.counter).attempt m).Sound strict roots ∧
        m.Extends ((Memory.collect s.engine.counter).attempt m) := by
    intro m sound hc
    obtain ⟨m', ids, run, sound', moved, -⟩ := sound.collect hc
    rw [Action.attempt_eq, run]
    exact ⟨sound', moved⟩
  cases statics : s.engine.statics with
  | none =>
    rw [statics, staticRoots, zero_add] at sound
    obtain ⟨last, moved⟩ := pass _ sound (recounts.counters ▸ held.counter)
    simp only [shutDown, statics]
    exact ⟨last, recounts.extends.trans moved⟩
  | some slot =>
    rw [statics] at sound
    have carried : Slot.Held strict roots (s.engine.stack.drop s.memory, slot) :=
      ⟨sound, recounts.counters ▸ held.statics slot statics⟩
    obtain ⟨sound', recounts'⟩ := Slot.drop_sound carried
    have both := recounts.trans recounts'
    obtain ⟨last, moved⟩ := pass _ sound' (both.counters ▸ held.counter)
    simp only [shutDown, statics]
    exact ⟨last, both.extends.trans moved⟩

end Operations

end Machine

end LiveItems
