import LiveItems.Proofs.Session.Reachable
set_option autoImplicit false

namespace LiveItems

mutual

def Step.commands : Step → List Command
  | .perform command _ _ => [command]
  | .instruction body _ => Step.allCommands body
  | .loop _ body _ => Step.allCommands body

def Step.allCommands : List Step → List Command
  | [] => []
  | step :: rest => step.commands ++ Step.allCommands rest

end

namespace Session

variable {suspects : Prop} {s t : Session} {command : Command} {e : Error} {why : Violation}

/-- The violation comes from one of the commands, which has popped from a stack without items. -/
def Popped (suspects : Prop) (commands : List Command) (why : Violation) : Prop :=
  why = .popFromEmpty ∧
    ∃ u, Reachable suspects u ∧ ∃ command ∈ commands, u.PopsEmpty command

theorem Popped.mono {commands more : List Command} (popped : Popped suspects commands why)
    (subset : commands ⊆ more) : Popped suspects more why := by
  obtain ⟨empty, u, reachable, command, among, pops⟩ := popped
  exact ⟨empty, u, reachable, command, subset among, pops⟩

/-- The error of a loop is that of one of its rounds. -/
theorem exists_round {counters : Nat} {body : Nat → Session → Except Error Unit × Session}
    (kept : ∀ round s, Grown suspects counters s → Grown suspects counters (body round s).2) :
    ∀ (times done : Nat) (s : Session), Grown suspects counters s →
      (rounds body times done s).2.1 = .error e →
      ∃ round t, Grown suspects counters t ∧ (body round t).1 = .error e := by
  intro times
  induction times with
  | zero => exact fun _ _ _ failed => absurd failed (by simp [rounds])
  | succ times ih =>
    intro done s grown failed
    have next := kept done s grown
    rcases run : body done s with ⟨e' | u, t⟩
    · rw [rounds, run] at failed
      exact ⟨done, s, grown, by rw [run]; exact failed⟩
    · rw [rounds, run] at failed
      rw [run] at next
      exact ih (done + 1) t next failed

/-- The end of an instruction adds no violation to what its body has ended with. -/
theorem instruction_violates {strict : Prop} {round : Nat} {body : List Step} {caught : Bool}
    (sound : (runBody round body s).2.2.Sound strict)
    (violates : (runStep round (.instruction body caught) s).1.outcome =
      .error (.invariantViolation why)) :
    (runBody round body s).2.1 = .error (.invariantViolation why) := by
  rw [runStep] at violates
  split at violates
  · rename_i e ended
    rw [Machine.enter] at ended
    split at ended
    · obtain rfl := Except.error.inj ended
      exact absurd (Except.error.inj violates) (by simp)
    · exact absurd ended (by simp)
  · simp only [Report.outcome] at violates
    rcases sound.machine.conclude (runBody round body s).2.1 with
      ⟨e, t, run, -, -, own⟩ | ⟨m, run, -⟩
    · rw [run] at violates
      obtain rfl := Except.error.inj violates
      rcases own with same | ⟨count, limit, exceeded⟩
      · exact same
      · exact absurd exceeded (by simp)
    · rw [run] at violates
      exact absurd violates (by simp)

mutual

theorem runStep_violates {counters : Nat} (round : Nat) : ∀ (step : Step) (s : Session),
    step.Balanced suspects counters → Grown suspects counters s →
    (runStep round step s).1.outcome = .error (.invariantViolation why) →
    Popped suspects step.commands why
  | .perform command saveAs _, s, balanced, grown, violates => by
    have balanced := Command.Balanced.mono balanced grown.counters
    rcases (grown.reachable.performs round saveAs balanced).cases with
      ⟨e, t, run, -, fails⟩ | ⟨a, t, run, -⟩
    · simp only [runStep, run, Report.outcome, Except.map] at violates
      obtain rfl := Except.error.inj violates
      obtain ⟨empty, pops, -⟩ := fails
      exact ⟨empty, s, grown.reachable, command, List.mem_singleton_self command, pops⟩
    · simp only [runStep, run, Report.outcome, Except.map] at violates
      exact absurd violates (by simp)
  | .instruction body _, s, balanced, grown, violates =>
    have after := runBody_grown round body s balanced grown
    runBody_violates round body s balanced grown
      (instruction_violates after.reachable.sound violates)
  | .loop times body _, s, balanced, grown, violates => by
    rw [runStep] at violates
    obtain ⟨round, t, grown, failed⟩ := exists_round
      (fun round t grown => runBody_grown round body t balanced grown) times 0 s grown violates
    exact runBody_violates round body t balanced grown failed

theorem runBody_violates {counters : Nat} (round : Nat) : ∀ (body : List Step) (s : Session),
    Step.AllBalanced suspects counters body → Grown suspects counters s →
    (runBody round body s).2.1 = .error (.invariantViolation why) →
    Popped suspects (Step.allCommands body) why
  | [], _, _, _, violates => absurd violates (by simp [runBody])
  | step :: rest, s, balanced, grown, violates => by
    have first := runStep_violates round step s balanced.1 grown
    have after := runStep_grown round step s balanced.1 grown
    rw [runBody] at violates
    generalize runStep round step s = outcome at first after violates
    obtain ⟨report, t⟩ := outcome
    simp only at violates
    split at violates
    · rename_i e failed _
      obtain rfl := Except.error.inj violates
      exact (first failed).mono (List.subset_append_left _ _)
    · exact (runBody_violates round rest t balanced.2 after violates).mono
        (List.subset_append_right _ _)

end

theorem storeStatic_outOfRange {slot : Slot} {index : Nat}
    (statics : s.machine.engine.statics = some slot) (outside : slot.items.length ≤ index)
    (filled : s.machine.engine.stack.items ≠ []) (round : Nat) (saveAs : Option String) :
    (performNamed round (.onEngine (.storeStatic index)) saveAs).apply s =
      (.error (.invalidOperation (.slotOutOfRange index slot.items.length)), s) := by
  obtain ⟨x, xs, items⟩ := List.exists_cons_of_ne_nil filled
  have peeked : (Machine.peek 0).apply s.machine = (.ok x, s.machine) := by
    rw [Machine.peek, Action.apply_bind, Action.apply_get]
    simp only [Stack.peek, items]
    rfl
  have absent : slot.get? index =
      .error (.invalidOperation (.slotOutOfRange index slot.items.length)) := by
    rw [Slot.get?, List.getElem?_eq_none outside]
  have refused : (Slot.set index x).apply (s.machine.memory, slot) =
      (.error (.invalidOperation (.slotOutOfRange index slot.items.length)),
        (s.machine.memory, slot)) := by
    rw [Slot.set, Action.apply_bind, Action.apply_get]
    simp only [absent]
    rfl
  have stored : (Machine.storeStatic index).apply s.machine =
      (.error (.invalidOperation (.slotOutOfRange index slot.items.length)), s.machine) := by
    rw [Machine.storeStatic, Action.apply_bind, peeked]
    simp only [Action.apply_bind, Action.apply_get, statics, Action.apply_onPart, refused]
    rw [← statics]
  simp only [performNamed, perform, performEngine, onMachine, Action.apply_bind,
    Action.apply_onPart, stored]

/-- In every state of a balanced run, the only violation of a command is that of popping from an
empty stack, and of an instruction that it passes one on from its body. Every error but that of the
limit leaves the whole session as it was, slots that are being made and copies of structs apart. An
item that cannot be stored in a static field stays on the stack. -/
theorem Reachable.errors_clean (reachable : Reachable suspects s) (round : Nat) :
    (∀ command saveAs e t, command.Balanced suspects s.memory.counters.length →
      (performNamed round command saveAs).apply s = (.error e, t) →
      (∀ why, e = .invariantViolation why → why = .popFromEmpty ∧ s.PopsEmpty command) ∧
      ((∀ count limit, e ≠ .limitExceeded count limit) → ¬command.IsAbandoned → t = s)) ∧
    (∀ body caught why, Step.AllBalanced suspects s.memory.counters.length body →
      (runStep round (.instruction body caught) s).1.outcome = .error (.invariantViolation why) →
      (runBody round body s).2.1 = .error (.invariantViolation why) ∧ why = .popFromEmpty ∧
        ∃ u, Reachable suspects u ∧ ∃ command ∈ Step.allCommands body, u.PopsEmpty command) ∧
    (∀ slot index saveAs, s.machine.engine.statics = some slot → slot.items.length ≤ index →
      s.machine.engine.stack.items ≠ [] →
      (performNamed round (.onEngine (.storeStatic index)) saveAs).apply s =
        (.error (.invalidOperation (.slotOutOfRange index slot.items.length)), s)) := by
  refine ⟨fun command saveAs e t balanced run => ?_, fun body caught why balanced violates => ?_,
    fun slot index saveAs statics outside filled =>
      storeStatic_outOfRange statics outside filled round saveAs⟩
  · have fails := ((reachable.performs round saveAs balanced).error run).2
    cases e with
    | invalidOperation why =>
      refine ⟨fun _ violation => absurd violation (by simp), fun _ whole => ?_⟩
      exact fails.resolve_left whole
    | limitExceeded count limit =>
      exact ⟨fun _ violation => absurd violation (by simp), fun other _ =>
        absurd rfl (other count limit)⟩
    | invariantViolation why =>
      obtain ⟨empty, pops, same⟩ := fails
      refine ⟨fun other violation => ?_, fun _ _ => same⟩
      obtain rfl := Error.invariantViolation.inj violation
      exact ⟨empty, pops⟩
    | invalidConfiguration why => exact fails.elim
  · have grown : Grown suspects s.memory.counters.length s := ⟨reachable, le_rfl⟩
    have after := runBody_grown round body s balanced grown
    exact ⟨instruction_violates after.reachable.sound violates,
      runStep_violates round (.instruction body caught) s balanced grown violates⟩

def stocked : List Step :=
  [.perform (.onEngine (.initStatics 1)) none true,
    .perform (.onEngine (.push (.leaf .null))) none true]

def overdrawn : List Step :=
  [.perform (.onEngine .pop) none false, .perform (.onEngine .pop) none false]

theorem errors_clean_stocked :
    (performNamed 0 (.onEngine (.loadStatic 1)) none).attempt (run stocked (start {} default)).2 =
        (run stocked (start {} default)).2 ∧
      (∃ u : Session, ∃ command ∈ Step.allCommands overdrawn, u.PopsEmpty command) ∧
      (performNamed 0 (.onEngine (.storeStatic 1)) none).attempt
        (run stocked (start {} default)).2 = (run stocked (start {} default)).2 := by
  have grown : Grown True 1 (run stocked (start {} default)).2 :=
    run_grown stocked _ ⟨trivial, trivial, trivial⟩ (start_grown True {} default)
  obtain ⟨commands, instructions, storing⟩ := Reachable.errors_clean grown.reachable 0
  refine ⟨?_, ?_, ?_⟩
  · have refused : ((performNamed 0 (.onEngine (.loadStatic 1)) none).apply
        (run stocked (start {} default)).2).1 =
          .error (.invalidOperation (.slotOutOfRange 1 1)) := by
      decide +kernel
    exact (commands (.onEngine (.loadStatic 1)) none _ _ trivial (Prod.ext refused rfl)).2
      (by simp) id
  · obtain ⟨-, -, u, -, command, among, pops⟩ := instructions overdrawn false .popFromEmpty
      ⟨trivial, trivial, trivial⟩ (by decide +kernel)
    exact ⟨u, command, among, pops⟩
  · obtain ⟨slot, statics⟩ := Option.isSome_iff_exists.1
      (show (run stocked (start {} default)).2.machine.engine.statics.isSome = true by
        decide +kernel)
    have outside : ∀ slot ∈ (run stocked (start {} default)).2.machine.engine.statics,
        slot.items.length ≤ 1 := by
      decide +kernel
    rw [Action.attempt_eq,
      storing slot 1 none statics (outside slot statics) (by decide +kernel)]

end Session

end LiveItems
