import LiveItems.Proofs.Session.Stays
set_option autoImplicit false

namespace LiveItems

namespace Session

/-- A change of a session that is watched: a command, or the end of an instruction with all that has
happened in its body. -/
inductive Move where
  | performed (command : Command) (result : Except Error Answer) (before after : Session)
  | concluded (body : List Move) (result : Except Error Unit) (before after : Session)

namespace Move

def before : Move → Session
  | performed _ _ before _ => before
  | concluded _ _ before _ => before

def after : Move → Session
  | performed _ _ _ after => after
  | concluded _ _ _ after => after

def Linked : Session → List Move → Session → Prop
  | s, [], t => t = s
  | s, move :: moves, t => move.before = s ∧ Linked move.after moves t

def visited (s : Session) (moves : List Move) : List Session := s :: moves.map after

theorem Linked.append {s t u : Session} {moves more : List Move} (first : Linked s moves t)
    (second : Linked t more u) : Linked s (moves ++ more) u := by
  induction moves generalizing s with
  | nil =>
    obtain rfl := first
    exact second
  | cons move moves ih => exact ⟨first.1, ih first.2⟩

/-- What enters a set of sessions enters it by some move. -/
theorem Linked.enters {s t : Session} {moves : List Move} {p : Session → Prop}
    (linked : Linked s moves t) (outside : ¬p s) (inside : p t) :
    ∃ move ∈ moves, ¬p move.before ∧ p move.after := by
  induction moves generalizing s with
  | nil =>
    obtain rfl := linked
    exact absurd inside outside
  | cons move moves ih =>
    obtain ⟨start, rest⟩ := linked
    by_cases entered : p move.after
    · exact ⟨move, List.mem_cons_self, start ▸ outside, entered⟩
    · obtain ⟨other, among, crosses⟩ := ih rest entered
      exact ⟨other, List.mem_cons_of_mem _ among, crosses⟩

end Move

/-- What a host may do to a session: commands, and instructions with any bodies. What the host makes
of the results in a body is up to it, so a body may end with any result. -/
inductive Executes : Session → List Move → Session → Prop where
  | done (s : Session) : Executes s [] s
  | perform {s t u : Session} {result : Except Error Answer} {moves : List Move} (round : Nat)
      (command : Command) (saveAs : Option String)
      (run : (performNamed round command saveAs).apply s = (result, t)) :
      Executes t moves u → Executes s (.performed command result s t :: moves) u
  | instruction {s t u : Session} {body moves : List Move} {result : Except Error Unit}
      {machine : Machine} (given : Except Error Unit) (entered : s.machine.enter = .ok ())
      (run : Machine.conclude given t.machine = (result, machine)) :
      Executes s body t → Executes { t with machine } moves u →
      Executes s (body ++ .concluded body result t { t with machine } :: moves) u

/-- What a single move may do to the stage and to the recorded fault. -/
def Move.Lawful : Move → Prop
  | performed command result before after =>
    before.Stays after ∨
      command = .onEngine .halt ∧ before.stage ≠ .faulted ∧ result = .ok .done ∧
        after.stage = .halted ∧ after.fault = before.fault
  | concluded body result before after =>
    (∃ s, s.stage.isFinal = false ∧ Move.Linked s body before) ∧
      match result with
      | .ok () => before.Stays after
      | .error e => after.stage = .faulted ∧ after.fault = some e

def FaultRecorded (s : Session) : Prop := s.fault.isSome ↔ s.stage = .faulted

variable {s t u : Session} {moves : List Move}

theorem not_final_of_enter (entered : s.machine.enter = .ok ()) : s.stage.isFinal = false := by
  rw [Machine.enter] at entered
  split at entered
  · exact absurd entered (by simp)
  · rename_i open_
    exact Bool.eq_false_iff.2 open_

theorem performed_lawful {round : Nat} {command : Command} {saveAs : Option String}
    {result : Except Error Answer}
    (run : (performNamed round command saveAs).apply s = (result, t)) :
    (Move.performed command result s t).Lawful := by
  by_cases halt : command = .onEngine .halt
  · subst halt
    rw [apply_performNamed_halt] at run
    split at run
    · obtain ⟨-, rfl⟩ := Prod.mk.inj run
      exact .inl (.refl _)
    · rename_i running
      obtain ⟨rfl, rfl⟩ := Prod.mk.inj run
      exact .inr ⟨rfl, running, rfl, rfl, rfl⟩
  · have stays := performNamed_stays round saveAs halt s
    rw [run] at stays
    exact .inl stays

theorem concluded_lawful {body : List Move} {given result : Except Error Unit} {machine : Machine}
    (entered : s.machine.enter = .ok ()) (linked : Move.Linked s body t)
    (run : Machine.conclude given t.machine = (result, machine)) :
    (Move.concluded body result t { t with machine }).Lawful := by
  refine ⟨⟨s, not_final_of_enter entered, linked⟩, ?_⟩
  rcases Machine.conclude_stage given t.machine with
    ⟨e, u, run', faulted, fault⟩ | ⟨u, run', stays⟩
  · obtain ⟨rfl, rfl⟩ := Prod.mk.inj (run.symm.trans run')
    exact ⟨faulted, fault⟩
  · obtain ⟨rfl, rfl⟩ := Prod.mk.inj (run.symm.trans run')
    exact stays

theorem Executes.append {more : List Move} (first : Executes s moves t)
    (second : Executes t more u) : Executes s (moves ++ more) u := by
  induction first with
  | done s => exact second
  | perform round command saveAs run _ ih => exact .perform round command saveAs run (ih second)
  | instruction given entered run body _ _ ih =>
    rw [List.append_assoc, List.cons_append]
    exact .instruction given entered run body (ih second)

theorem Executes.linked (execution : Executes s moves t) : Move.Linked s moves t := by
  induction execution with
  | done s => exact rfl
  | perform _ _ _ _ _ ih => exact ⟨rfl, ih⟩
  | instruction _ _ _ _ _ body rest => exact body.append ⟨rfl, rest⟩

theorem Executes.lawful (execution : Executes s moves t) : ∀ move ∈ moves, move.Lawful := by
  induction execution with
  | done s => exact fun _ none => absurd none List.not_mem_nil
  | perform round command saveAs run _ ih =>
    intro move among
    rcases List.mem_cons.1 among with rfl | among
    · exact performed_lawful run
    · exact ih move among
  | instruction given entered run first _ body rest =>
    intro move among
    rcases List.mem_append.1 among with among | among
    · exact body move among
    rcases List.mem_cons.1 among with rfl | among
    · exact concluded_lawful entered first.linked run
    · exact rest move among

theorem FaultRecorded.stays (recorded : s.FaultRecorded) (stays : s.Stays t) :
    t.FaultRecorded := by
  rw [FaultRecorded, fault, stage, stays.fault, stays.stage]
  exact recorded

theorem FaultRecorded.move {move : Move} (recorded : move.before.FaultRecorded)
    (lawful : move.Lawful) : move.after.FaultRecorded := by
  match move, lawful with
  | .performed _ _ _ _, .inl stays => exact recorded.stays stays
  | .performed _ _ before after, .inr ⟨_, running, _, halted, same⟩ =>
    have unrecorded : before.fault.isSome = false := Bool.eq_false_iff.2 (mt recorded.1 running)
    simp only [FaultRecorded, Move.after, halted, same, unrecorded]
    decide
  | .concluded _ (.ok ()) _ _, ⟨_, stays⟩ => exact recorded.stays stays
  | .concluded _ (.error e) _ after, ⟨_, faulted, fault⟩ =>
    simp only [FaultRecorded, Move.after, faulted, fault, Option.isSome_some]

theorem FaultRecorded.visited (recorded : s.FaultRecorded) (linked : Move.Linked s moves t)
    (lawful : ∀ move ∈ moves, move.Lawful) : ∀ u ∈ Move.visited s moves, u.FaultRecorded := by
  induction moves generalizing s with
  | nil =>
    intro u among
    obtain rfl := List.mem_singleton.1 among
    exact recorded
  | cons move moves ih =>
    intro u among
    obtain ⟨rfl, rest⟩ := linked
    have next := recorded.move (lawful move List.mem_cons_self)
    rcases List.mem_cons.1 among with rfl | among
    · exact recorded
    · exact ih next rest (fun other among => lawful other (.tail _ among)) u among

theorem Move.Lawful.of_faulted {move : Move} (lawful : move.Lawful)
    (faulted : move.before.stage = .faulted) : move.after.stage = .faulted := by
  match move, lawful with
  | .performed _ _ _ _, .inl stays => exact stays.stage.trans faulted
  | .performed _ _ _ _, .inr ⟨_, running, _⟩ => exact absurd faulted running
  | .concluded _ (.ok ()) _ _, ⟨_, stays⟩ => exact stays.stage.trans faulted
  | .concluded _ (.error _) _ _, ⟨_, ended, _⟩ => exact ended

/-- What halts the engine starts from a stage that is not final. -/
theorem Move.Lawful.of_halts {move : Move} (lawful : move.Lawful)
    (running : move.before.stage ≠ .halted) (halts : move.after.stage = .halted) :
    move.before.stage.isFinal = false := by
  cases stage : move.before.stage with
  | halted => exact absurd stage running
  | faulted => exact absurd ((lawful.of_faulted stage).symm.trans halts) (by decide)
  | ready => rfl
  | paused => rfl

/-- Only the error of an instruction whose body was running when the engine halted leads away from
there. -/
theorem Move.Lawful.of_halted {move : Move} (lawful : move.Lawful)
    (inner : ∀ body result before after, move = .concluded body result before after →
      ∀ other ∈ body, other.Lawful)
    (halted : move.before.stage = .halted) (leaves : move.after.stage ≠ .halted) :
    move.after.stage = .faulted ∧
      ∃ body e before after, move = .concluded body (.error e) before after ∧
        ∃ halt ∈ body, halt.before.stage.isFinal = false ∧ halt.after.stage = .halted := by
  match move, lawful, inner with
  | .performed _ _ _ _, .inl stays, _ => exact absurd (stays.stage.trans halted) leaves
  | .performed _ _ _ _, .inr ⟨_, _, _, same, _⟩, _ => exact absurd same leaves
  | .concluded _ (.ok ()) _ _, ⟨_, stays⟩, _ => exact absurd (stays.stage.trans halted) leaves
  | .concluded body (.error e) before after, ⟨⟨s, started, linked⟩, ended, _⟩, inner =>
    have outside : s.stage ≠ .halted := by
      intro same
      rw [same] at started
      exact absurd started (by decide)
    obtain ⟨halt, among, running, halts⟩ :=
      linked.enters (p := fun s => s.stage = .halted) outside halted
    exact ⟨ended, body, e, before, after, rfl, halt, among,
      (inner body _ before after rfl halt among).of_halts running halts, halts⟩

/-- The moves that stand in the body of a lawful execution are moves of the execution. -/
theorem Executes.inner (execution : Executes s moves t) {body : List Move}
    {result : Except Error Unit} {before after : Session}
    (among : .concluded body result before after ∈ moves) : body ⊆ moves := by
  induction execution with
  | done s => exact absurd among List.not_mem_nil
  | perform _ _ _ _ _ ih =>
    rcases List.mem_cons.1 among with same | among
    · exact absurd same (by simp)
    · exact List.subset_cons_of_subset _ (ih among)
  | instruction given entered run _ _ first rest =>
    rcases List.mem_append.1 among with among | among
    · exact List.subset_append_of_subset_left _ (first among)
    rcases List.mem_cons.1 among with same | among
    · obtain ⟨rfl, -⟩ := Move.concluded.inj same
      exact List.subset_append_left _ _
    · exact List.subset_append_of_subset_right _ (List.subset_cons_of_subset _ (rest among))

theorem runStep_of_final (final : s.stage.isFinal = true) (round : Nat) (body : List Step)
    (caught : Bool) :
    runStep round (.instruction body caught) s =
      (.instruction (.error (.invalidOperation (.finished s.stage))) s.readings [], s) := by
  have refused : s.machine.enter = .error (.invalidOperation (.finished s.stage)) :=
    if_pos final
  rw [runStep, refused]

/-- The stages of an engine in any execution. Its fault is recorded when it is faulted, and only
then; from there it goes nowhere, and can not be halted. Once it has halted, it can only become
faulted, by an error of an instruction whose body was running when it halted. No instruction starts
at a final stage, and the error of one that has started is recorded as the fault. -/
theorem Executes.stages {limits : Limits} {supply : IdSupply}
    (execution : Executes (start limits supply) moves t) :
    Move.Linked (start limits supply) moves t ∧
    (∀ u ∈ Move.visited (start limits supply) moves, u.fault.isSome ↔ u.stage = .faulted) ∧
    (∀ move ∈ moves, move.before.stage = .faulted → move.after.stage = .faulted) ∧
    (∀ u ∈ Move.visited (start limits supply) moves, u.stage = .faulted →
      ∀ round saveAs, (performNamed round (.onEngine .halt) saveAs).apply u =
        (.error (.invalidOperation .haltAfterFault), u)) ∧
    (∀ move ∈ moves, move.before.stage = .halted → move.after.stage ≠ .halted →
      move.after.stage = .faulted ∧
        ∃ body e before after, move = .concluded body (.error e) before after ∧
          ∃ halt ∈ body, halt.before.stage.isFinal = false ∧ halt.after.stage = .halted) ∧
    (∀ u ∈ Move.visited (start limits supply) moves, u.stage.isFinal = true →
      ∀ round body caught, runStep round (.instruction body caught) u =
        (.instruction (.error (.invalidOperation (.finished u.stage))) u.readings [], u)) ∧
    (∀ body e before after, .concluded body (.error e) before after ∈ moves →
      after.stage = .faulted ∧ after.fault = some e) := by
  have lawful := execution.lawful
  have recorded : (start limits supply).FaultRecorded :=
    (by decide : (none : Option Error).isSome ↔ Stage.ready = .faulted)
  refine ⟨execution.linked, recorded.visited execution.linked lawful,
    fun move among => (lawful move among).of_faulted, fun u _ faulted round saveAs => ?_,
    fun move among => (lawful move among).of_halted fun body result before after same => ?_,
    fun u _ final => runStep_of_final final,
    fun body e before after among => (lawful _ among).2⟩
  · rw [apply_performNamed_halt, if_pos faulted]
  · rw [same] at among
    exact fun other inside => lawful other (execution.inner among inside)

def traceRounds {σ : Type} (body : Nat → σ → List Move × Except Error Unit × σ) :
    Nat → Nat → σ → List Move
  | 0, _, _ => []
  | times + 1, done, s =>
    match body done s with
    | (moves, .ok (), s) => moves ++ traceRounds body times (done + 1) s
    | (moves, .error _, _) => moves

mutual

def traceStep (round : Nat) : Step → Session → List Move
  | .perform command saveAs _, s =>
    let (result, t) := (performNamed round command saveAs).apply s
    [.performed command result s t]
  | .instruction body _, s =>
    match s.machine.enter with
    | .error _ => []
    | .ok () =>
      let (_, given, t) := runBody round body s
      let (result, machine) := Machine.conclude given t.machine
      traceBody round body s ++
        [.concluded (traceBody round body s) result t { t with machine }]
  | .loop times body _, s =>
    traceRounds (fun round s => (traceBody round body s, (runBody round body s).2)) times 0 s

def traceBody (round : Nat) : List Step → Session → List Move
  | [], _ => []
  | step :: rest, s =>
    let (report, t) := runStep round step s
    traceStep round step s ++
      match report.outcome, step.isCaught with
      | .error _, false => []
      | _, _ => traceBody round rest t

end

def trace : List Step → Session → List Move
  | [], _ => []
  | step :: rest, s => traceStep 0 step s ++ trace rest (runStep 0 step s).2

theorem rounds_executes (body : Nat → Session → List Move × Except Error Unit × Session)
    (each : ∀ round s, Executes s (body round s).1 (body round s).2.2) :
    ∀ (times done : Nat) (s : Session),
      Executes s (traceRounds body times done s)
        (rounds (fun round s => (body round s).2) times done s).2.2 := by
  intro times
  induction times with
  | zero => exact fun _ s => .done s
  | succ times ih =>
    intro done s
    have next := each done s
    rw [rounds, traceRounds]
    generalize body done s = outcome at next ⊢
    obtain ⟨moves, result, t⟩ := outcome
    cases result with
    | error e => exact next
    | ok u => exact next.append (ih (done + 1) t)

mutual

theorem runStep_executes (round : Nat) : ∀ (step : Step) (s : Session),
    Executes s (traceStep round step s) (runStep round step s).2
  | .perform command saveAs _, s => by
    rw [runStep, traceStep]
    exact .perform round command saveAs rfl (.done _)
  | .instruction body _, s => by
    rw [runStep, traceStep]
    rcases entered : s.machine.enter with e | u
    · exact .done s
    · exact .instruction _ entered rfl (runBody_executes round body s) (.done _)
  | .loop times body _, s => by
    rw [runStep, traceStep]
    exact rounds_executes (fun round s => (traceBody round body s, (runBody round body s).2))
      (fun round s => runBody_executes round body s) times 0 s

theorem runBody_executes (round : Nat) : ∀ (body : List Step) (s : Session),
    Executes s (traceBody round body s) (runBody round body s).2.2
  | [], s => by
    rw [runBody, traceBody]
    exact .done s
  | step :: rest, s => by
    have first := runStep_executes round step s
    rw [runBody, traceBody]
    generalize runStep round step s = outcome at first ⊢
    obtain ⟨report, t⟩ := outcome
    have others := first.append (runBody_executes round rest t)
    simp only
    match report.outcome, step.isCaught with
    | .error e, false =>
      simp only [List.append_nil]
      exact first
    | .error e, true => exact others
    | .ok u, caught => exact others

end

/-- What the steps of a run do is an execution. -/
theorem run_executes (steps : List Step) (s : Session) :
    Executes s (trace steps s) (run steps s).2 := by
  induction steps generalizing s with
  | nil => exact .done s
  | cons step steps ih => exact (runStep_executes 0 step s).append (ih _)

/-- The engine halts inside an instruction, which refuses to start another one, and then fails. -/
def haltedInside : List Step :=
  [.instruction
    [.perform (.onEngine .halt) none false, .instruction [] true,
      .perform (.onEngine .pop) none false] false]

theorem stages_haltedInside :
    Executes (start {} default) (trace haltedInside (start {} default))
        (run haltedInside (start {} default)).2 ∧
      (∀ move ∈ trace haltedInside (start {} default), move.before.stage = .halted →
        move.after.stage ≠ .halted → move.after.stage = .faulted) ∧
      (run haltedInside (start {} default)).2.fault = some (.invariantViolation .popFromEmpty) := by
  have execution := run_executes haltedInside (start {} default)
  have ended : ∃ body before, .concluded body (.error (.invariantViolation .popFromEmpty)) before
      (run haltedInside (start {} default)).2 ∈ trace haltedInside (start {} default) :=
    ⟨_, _, List.mem_of_getLast? rfl⟩
  obtain ⟨body, before, among⟩ := ended
  have stages := execution.stages
  exact ⟨execution, fun move among halted leaves => (stages.2.2.2.2.1 move among halted leaves).1,
    (stages.2.2.2.2.2.2 body _ before _ among).2⟩

end Session

end LiveItems
