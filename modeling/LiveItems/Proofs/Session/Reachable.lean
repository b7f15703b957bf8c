import LiveItems.Session.Run
import LiveItems.Proofs.Session.Perform
set_option autoImplicit false

/-!
# Balanced runs

A balanced run is any sequence of balanced commands, failing ones included, with ends of
instructions in between. All that it can lead to is sound, and so is the memory that is left when
the session is closed.
-/

namespace LiveItems

theorem Command.Balanced.mono {suspects : Prop} {command : Command} {counters more : Nat}
    (balanced : command.Balanced suspects counters) (le : counters ≤ more) :
    command.Balanced suspects more := by
  cases command with
  | create name what =>
    cases what with
    | list kind items owner => exact fun c hc => (balanced c hc).trans_le le
    | map owner => exact fun c hc => (balanced c hc).trans_le le
    | _ => trivial
  | onCounter c command => exact ⟨balanced.1.trans_le le, balanced.2⟩
  | newStack name c => exact balanced.trans_le le
  | newSlot name xs c => exact balanced.trans_le le
  | newNullSlot name n c => exact balanced.trans_le le
  | _ => trivial

mutual

def Step.Balanced (suspects : Prop) (counters : Nat) : Step → Prop
  | .perform command _ _ => command.Balanced suspects counters
  | .instruction body _ => Step.AllBalanced suspects counters body
  | .loop _ body _ => Step.AllBalanced suspects counters body

def Step.AllBalanced (suspects : Prop) (counters : Nat) : List Step → Prop
  | [] => True
  | step :: rest => step.Balanced suspects counters ∧ Step.AllBalanced suspects counters rest

end

namespace Session

open Memory

/-- The sessions that balanced runs lead to. An instruction may end with any result. -/
inductive Reachable (suspects : Prop) : Session → Prop where
  | start (limits : Limits) (supply : IdSupply) : Reachable suspects (start limits supply)
  | perform {s : Session} (round : Nat) (command : Command) (saveAs : Option String) :
      Reachable suspects s → command.Balanced suspects s.memory.counters.length →
      Reachable suspects ((performNamed round command saveAs).attempt s)
  | conclude {s : Session} (result : Except Error Unit) : Reachable suspects s →
      Reachable suspects { s with machine := (Machine.conclude result s.machine).2 }

/-- The memory of a balanced run, during it or after its session has been closed, with the roots
that there are. -/
inductive Yields (suspects : Prop) : Memory → (CounterId → Multiset Item) → Prop where
  | during {s : Session} : Reachable suspects s → Yields suspects s.memory s.roots
  | closed {s : Session} : Reachable suspects s → Yields suspects s.close.memory fun _ => 0

variable {suspects strict : Prop} {s t : Session}

theorem performNamed_performs (sound : s.Sound strict) (round : Nat) (command : Command)
    (saveAs : Option String) (balanced : command.Balanced (¬strict) s.memory.counters.length) :
    Performs strict command (performNamed round command saveAs) s := by
  refine Action.Ends.bind (perform_performs sound round command balanced) fun a t kept => ?_
  obtain ⟨kept, answered⟩ := kept
  cases saveAs with
  | none => exact .pure ⟨kept, answered⟩
  | some name =>
    cases item : a.item? with
    | none => exact .pure ⟨kept, answered⟩
    | some x =>
      have named : (bind name x).apply t =
          (.ok (), { t with names := t.names.insert name x }) := rfl
      obtain ⟨kept', -, -⟩ := (bind_safe kept.sound name (answered x item)).ok named
      refine .of_ok (a := a) (t := { t with names := t.names.insert name x }) ?_
        ⟨⟨kept', kept.extended, kept.moved⟩, answered⟩
      rw [Action.apply_bind, named]
      rfl

theorem conclude_sound (sound : s.Sound strict) (result : Except Error Unit) :
    Sound strict { s with machine := (Machine.conclude result s.machine).2 } ∧
      s.memory.Extends (Machine.conclude result s.machine).2.memory := by
  obtain ⟨held, moved⟩ := Machine.conclude_held sound.machine result
  exact ⟨sound.withMachine held moved, moved⟩

theorem Reachable.sound (reachable : Reachable suspects s) : s.Sound (¬suspects) := by
  induction reachable with
  | start limits supply => exact start_sound _ limits supply
  | perform round command saveAs _ balanced ih =>
    rw [← not_not (a := suspects)] at balanced
    exact (performNamed_performs ih round command saveAs balanced).keeps.sound
  | conclude result _ ih => exact (conclude_sound ih result).1

theorem Reachable.performs (reachable : Reachable suspects s) (round : Nat) {command : Command}
    (saveAs : Option String) (balanced : command.Balanced suspects s.memory.counters.length) :
    Performs (¬suspects) command (performNamed round command saveAs) s := by
  rw [← not_not (a := suspects)] at balanced
  exact performNamed_performs reachable.sound round command saveAs balanced

structure Grown (suspects : Prop) (counters : Nat) (s : Session) : Prop where
  reachable : Reachable suspects s
  counters : counters ≤ s.memory.counters.length

theorem Grown.perform {counters : Nat} (grown : Grown suspects counters s) (round : Nat)
    {command : Command} (saveAs : Option String) (balanced : command.Balanced suspects counters) :
    Grown suspects counters ((performNamed round command saveAs).attempt s) :=
  have balanced := balanced.mono grown.counters
  ⟨.perform round command saveAs grown.reachable balanced, grown.counters.trans
    (grown.reachable.performs round saveAs balanced).keeps.extended.counters⟩

theorem rounds_grown {counters : Nat} {body : Nat → Session → Except Error Unit × Session}
    (kept : ∀ round s, Grown suspects counters s → Grown suspects counters (body round s).2) :
    ∀ (times done : Nat) (s : Session), Grown suspects counters s →
      Grown suspects counters (rounds body times done s).2.2 := by
  intro times
  induction times with
  | zero => exact fun _ _ grown => grown
  | succ times ih =>
    intro done s grown
    have next := kept done s grown
    rw [rounds]
    split
    · rename_i t run
      rw [run] at next
      exact ih _ t next
    · rename_i e t run
      rw [run] at next
      exact next

mutual

theorem runStep_grown {counters : Nat} (round : Nat) : ∀ (step : Step) (s : Session),
    step.Balanced suspects counters → Grown suspects counters s →
    Grown suspects counters (runStep round step s).2
  | .perform command saveAs _, _, balanced, grown => grown.perform round saveAs balanced
  | .instruction body _, s, balanced, grown => by
    rw [runStep]
    split
    · exact grown
    · have after := runBody_grown round body s balanced grown
      refine ⟨.conclude _ after.reachable, after.counters.trans ?_⟩
      exact (conclude_sound after.reachable.sound _).2.counters
  | .loop times body _, s, balanced, grown => by
    rw [runStep]
    exact rounds_grown (fun round t grown => runBody_grown round body t balanced grown) times 0 s
      grown

theorem runBody_grown {counters : Nat} (round : Nat) : ∀ (body : List Step) (s : Session),
    Step.AllBalanced suspects counters body → Grown suspects counters s →
    Grown suspects counters (runBody round body s).2.2
  | [], s, _, grown => grown
  | step :: rest, s, balanced, grown => by
    have after := runStep_grown round step s balanced.1 grown
    rw [runBody]
    generalize runStep round step s = outcome at after ⊢
    obtain ⟨report, t⟩ := outcome
    have others := runBody_grown round rest t balanced.2 after
    simp only
    split
    · exact after
    · exact others

end

theorem run_grown {counters : Nat} : ∀ (steps : List Step) (s : Session),
    Step.AllBalanced suspects counters steps → Grown suspects counters s →
    Grown suspects counters (run steps s).2
  | [], _, _, grown => grown
  | step :: rest, s, balanced, grown =>
    run_grown rest _ balanced.2 (runStep_grown 0 step s balanced.1 grown)

theorem start_grown (suspects : Prop) (limits : Limits) (supply : IdSupply) :
    Grown suspects 1 (start limits supply) := ⟨.start limits supply, le_rfl⟩

theorem started_grown {suspects : Prop} {steps : List Step}
    (balanced : Step.AllBalanced suspects 1 steps) :
    Grown suspects 1 (run steps (start {} default)).2 :=
  run_grown steps _ balanced (start_grown suspects {} default)

theorem first_lt_one : ∀ c : CounterId, some 0 = some c → c < 1 := by
  intro c same
  obtain rfl := Option.some.inj same
  exact Nat.one_pos

section Erase

variable {β : Type}

theorem getElem?_eraseAll (names : List String) (t : Std.ExtTreeMap String β) (k : String) :
    (names.foldl (fun t name => t.erase name) t)[k]? = if k ∈ names then none else t[k]? := by
  induction names generalizing t with
  | nil => rfl
  | cons name names ih =>
    rw [List.foldl_cons, ih, Std.ExtTreeMap.getElem?_erase]
    by_cases first : k = name
    · simp [first]
    · simp [first, Ne.symm first]

theorem eraseAll_keys (t : Std.ExtTreeMap String β) :
    t.keys.foldl (fun t name => t.erase name) t = {} := by
  refine Std.ExtTreeMap.ext_getElem? fun k => ?_
  rw [getElem?_eraseAll, Std.ExtTreeMap.getElem?_empty]
  split
  · rfl
  · rename_i absent
    exact Std.ExtTreeMap.getElem?_eq_none fun present => absent (Std.ExtTreeMap.mem_keys.2 present)

end Erase

theorem namedStacks_dropStack (s : Session) (name : String) :
    (s.dropStack name).namedStacks = s.namedStacks.erase name := by
  rw [dropStack]
  cases found : s.namedStacks[name]? with
  | none => exact (erase_of_none found).symm
  | some stack => rfl

theorem namedSlots_dropStack (s : Session) (name : String) :
    (s.dropStack name).namedSlots = s.namedSlots := by
  rw [dropStack]
  split <;> rfl

theorem namedSlots_dropSlot (s : Session) (name : String) :
    (s.dropSlot name).namedSlots = s.namedSlots.erase name := by
  rw [dropSlot]
  cases found : s.namedSlots[name]? with
  | none => exact (erase_of_none found).symm
  | some slot => rfl

theorem dropStacks_sound (names : List String) : ∀ {s : Session}, s.Sound strict →
    (names.foldl (fun s name => s.dropStack name) s).Sound strict ∧
      (names.foldl (fun s name => s.dropStack name) s).namedSlots = s.namedSlots ∧
      (names.foldl (fun s name => s.dropStack name) s).namedStacks =
        names.foldl (fun t name => t.erase name) s.namedStacks := by
  induction names with
  | nil => exact fun sound => ⟨sound, rfl, rfl⟩
  | cons name names ih =>
    intro s sound
    obtain ⟨kept, slots, rest⟩ := ih (dropStack_sound sound name).1
    rw [namedSlots_dropStack] at slots
    rw [namedStacks_dropStack] at rest
    exact ⟨kept, slots, rest⟩

theorem dropSlots_sound (names : List String) : ∀ {s : Session}, s.Sound strict →
    (names.foldl (fun s name => s.dropSlot name) s).Sound strict ∧
      (names.foldl (fun s name => s.dropSlot name) s).namedSlots =
        names.foldl (fun t name => t.erase name) s.namedSlots := by
  induction names with
  | nil => exact fun sound => ⟨sound, rfl⟩
  | cons name names ih =>
    intro s sound
    obtain ⟨kept, rest⟩ := ih (dropSlot_sound sound name).1
    rw [namedSlots_dropSlot] at rest
    exact ⟨kept, rest⟩

theorem close_sound (sound : s.Sound strict) : s.close.memory.Sound strict fun _ => 0 := by
  obtain ⟨kept, slots⟩ := dropSlots_sound s.namedSlots.keys sound
  obtain ⟨kept', slots', rest⟩ := dropStacks_sound
    (s.namedSlots.keys.foldl (fun s name => s.dropSlot name) s).namedStacks.keys kept
  rw [slots, eraseAll_keys] at slots'
  rw [eraseAll_keys] at rest
  have machine := kept'.machine
  have empty : ∀ {β : Type} (counter : β → CounterId) (items : β → List Item),
      namedRoots counter items {} = 0 := fun _ _ => rfl
  rw [stackRoots, slotRoots, slots', rest, empty, empty, add_zero] at machine
  exact (Machine.shutDown_sound machine).1

/-- The memory of a balanced run is sound with the roots that there are. -/
theorem Yields.sound {m : Memory} {roots : CounterId → Multiset Item}
    (yields : Yields suspects m roots) : m.Sound (¬suspects) roots := by
  cases yields with
  | during reachable => exact reachable.sound.memory
  | closed reachable => exact close_sound reachable.sound

end Session

end LiveItems
