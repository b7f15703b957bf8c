import LiveItems.Proofs.Engine
import LiveItems.Proofs.Session.Peak
set_option autoImplicit false

namespace LiveItems

namespace Machine

variable {s t : Machine} {e : Error}

structure Restarts (s t : Machine) : Prop where
  limits : t.engine.limits = s.engine.limits
  counter : t.engine.counter = s.engine.counter
  highest : t.counter.highest = t.counter.count
  count : t.counter.count ≤ s.counter.count
  sums : t.counter.sums = s.counter.sums

theorem restarts_resetPeak (s : Machine) :
    s.Restarts ((onMemory (Memory.resetPeak s.engine.counter)).apply s).2 := by
  have reset : ((onMemory (Memory.resetPeak s.engine.counter)).apply s).2.counter =
      s.counter.resetPeak := Memory.counter_resetPeak s.engine.counter s.memory
  refine ⟨rfl, rfl, ?_, ?_, ?_⟩
  · rw [reset]
    rfl
  · rw [reset]
    exact le_rfl
  · rw [reset]
    rfl

theorem settle_cases (d : CounterId) (s : Machine) :
    (∃ e t, settle.apply s = (.error e, t) ∧ s.Steps Counter.Sinks d t) ∨
      ∃ t, settle.apply s = (.ok (), t) ∧ s.Restarts t ∧
        (s.engine.counter ≠ d → s.Steps Counter.Sinks d t) := by
  have reset : ∀ t : Machine, s.engine.counter ≠ d →
      t.Steps Counter.Sinks d ((onMemory (Memory.resetPeak s.engine.counter)).apply t).2 :=
    fun t other => onMemory_follows d (Memory.resetPeak_follows d other) t
  by_cases due : s.engine.executed % s.engine.limits.collectionInterval = 0
  · have unfolded : settle.apply s =
        (collect >>= fun _ => onMemory (Memory.resetPeak s.engine.counter)).apply s := by
      rw [settle, Action.apply_bind, Action.apply_get]
      simp only [if_pos due]
    rw [unfolded, Action.apply_bind]
    have moves := collect_follows (fun sinks => sinks) d s
    have sinks : s.counter.Sinks (collect.apply s).2.counter :=
      Memory.sinks_collect s.engine.counter s.engine.counter s.memory
    have engine : (collect.apply s).2.engine = s.engine := rfl
    generalize collect.apply s = outcome at moves sinks engine ⊢
    obtain ⟨result, u⟩ := outcome
    cases result with
    | error e => exact .inl ⟨e, u, rfl, moves⟩
    | ok n =>
      obtain ⟨limits', counter', highest, count, sums⟩ := restarts_resetPeak u
      rw [engine] at limits' counter' highest count sums
      refine .inr ⟨_, rfl, ⟨limits', counter', highest, count.trans sinks.count,
        sums.trans sinks.sums⟩, fun other => ?_⟩
      exact trans_of (Steps Counter.Sinks d) moves (reset u other)
  · have unfolded : settle.apply s =
        (onMemory (Memory.resetPeak s.engine.counter)).apply s := by
      rw [settle, Action.apply_bind, Action.apply_get]
      simp only [if_neg due]
    rw [unfolded]
    exact .inr ⟨_, rfl, restarts_resetPeak s, reset s⟩

theorem checkpoint_cases (d : CounterId) (s : Machine) :
    (∃ e t, checkpoint.apply s = (.error e, t) ∧ s.Steps Counter.Sinks d t) ∨
      ∃ t, checkpoint.apply s = (.ok (), t) ∧ s.Restarts t ∧
        (s.engine.counter ≠ d → s.Steps Counter.Sinks d t) ∧
        s.counter.peak ≤ s.engine.limits.maxLiveItems := by
  have same : s.Steps Counter.Sinks d s.counted :=
    ⟨rfl, rfl, refl_of (Memory.Steps Counter.Sinks d) s.memory⟩
  rw [apply_checkpoint]
  by_cases exceeded : s.counter.peak > s.engine.limits.maxLiveItems
  · rw [if_pos exceeded]
    exact .inl ⟨_, s.counted, rfl, same⟩
  · rw [if_neg exceeded]
    rcases settle_cases d s.counted with ⟨e, t, run, moves⟩ | ⟨t, run, restarts, others⟩
    · exact .inl ⟨e, t, run, trans_of (Steps Counter.Sinks d) same moves⟩
    · obtain ⟨limits, counter, highest, count, sums⟩ := restarts
      exact .inr ⟨t, run, ⟨limits, counter, highest, count, sums⟩,
        fun other => trans_of (Steps Counter.Sinks d) same (others other), Nat.not_lt.1 exceeded⟩

/-- An instruction ends with a fault, and the highest count stays, or it ends well, its peak has not
been above the limit, and the peak starts again, that of the engine's counter only. -/
theorem conclude_cases (d : CounterId) (result : Except Error Unit) (s : Machine) :
    (∃ e t, conclude result s = (.error e, t) ∧ t.engine.stage = .faulted ∧
      s.Steps Counter.Sinks d t) ∨
      ∃ t, conclude result s = (.ok (), t) ∧ s.Restarts t ∧
        (s.engine.counter ≠ d → s.Steps Counter.Sinks d t) ∧
        s.counter.peak ≤ s.engine.limits.maxLiveItems := by
  have raised : ∀ (e : Error) (t : Machine), s.Steps Counter.Sinks d t →
      s.Steps Counter.Sinks d (t.raise e) :=
    fun e t moves => ⟨moves.limits, moves.counter, moves.memory⟩
  cases result with
  | error e => exact .inl ⟨e, s.raise e, rfl, rfl, raised e s (refl_of (Steps Counter.Sinks d) s)⟩
  | ok u =>
    rcases checkpoint_cases d s with ⟨e, t, run, moves⟩ | ⟨t, run, restarts, others, peak⟩
    · refine .inl ⟨e, t.raise e, ?_, rfl, raised e t moves⟩
      simp only [conclude, run]
    · refine .inr ⟨t, ?_, restarts, others, peak⟩
      simp only [conclude, run]

end Machine

/-- What is seen of the engine's counter after an operation. The peak starts again with it at the
end of an instruction that has succeeded, and by a direct reset. -/
structure Moment where
  count : Nat
  restart : Bool
  deriving DecidableEq

/-- Some count was above `max`, and the peak has not started again since. -/
def Overflowed (max : Nat) (seen : List Moment) : Prop :=
  ∃ before m after, seen = before ++ m :: after ∧ max < m.count ∧ ∀ n ∈ after, n.restart = false

theorem not_overflowed_nil (max : Nat) : ¬Overflowed max [] := by
  rintro ⟨before, m, after, seen, -⟩
  exact absurd seen.symm (by simp)

theorem overflowed_concat {max : Nat} {seen : List Moment} {m : Moment} :
    Overflowed max (seen ++ [m]) ↔ max < m.count ∨ m.restart = false ∧ Overflowed max seen := by
  constructor
  · rintro ⟨before, n, after, whole, above, none⟩
    rcases List.eq_nil_or_concat after with rfl | ⟨after, last, rfl⟩
    · obtain ⟨-, same⟩ := List.append_inj' whole rfl
      obtain rfl := List.singleton_inj.1 same
      exact .inl above
    · rw [List.concat_eq_append, ← List.cons_append, ← List.append_assoc] at whole
      obtain ⟨same, rest⟩ := List.append_inj' whole rfl
      obtain rfl := List.singleton_inj.1 rest
      rw [List.concat_eq_append] at none
      refine .inr ⟨none m (by simp), before, n, after, same, above, fun k hk => none k ?_⟩
      exact List.mem_append_left _ hk
  · rintro (above | ⟨kept, before, n, after, rfl, above, none⟩)
    · exact ⟨seen, m, [], rfl, above, by simp⟩
    · refine ⟨before, n, after ++ [m], by simp, above, fun k hk => ?_⟩
      rcases List.mem_append.1 hk with hk | hk
      · exact none k hk
      · obtain rfl := List.mem_singleton.1 hk
        exact kept

namespace Session

def moment (restart : Bool) (s : Session) : Moment := ⟨s.machine.counter.count, restart⟩

/-- The sessions of an engine on a new counter, each with all that has been seen on the way there:
any sequence of commands, failing ones included, and of ends of instructions with any result. -/
inductive History (limits : Limits) : Session → List Moment → Prop where
  | start (supply : IdSupply) : History limits (start limits supply) []
  | perform {s : Session} {seen : List Moment} (round : Nat) (command : Command)
      (saveAs : Option String) : History limits s seen →
      History limits ((performNamed round command saveAs).attempt s)
        (seen ++ [((performNamed round command saveAs).attempt s).moment command.resetsPeak])
  | conclude {s : Session} {seen : List Moment} (result : Except Error Unit) :
      History limits s seen →
      History limits { s with machine := (Machine.conclude result s.machine).2 }
        (seen ++ [{ s with machine := (Machine.conclude result s.machine).2 }.moment
          (Machine.conclude result s.machine).1.isOk])

structure Watches (limits : Limits) (s : Session) (seen : List Moment) : Prop where
  limits : s.machine.engine.limits = limits
  counter : s.machine.engine.counter = 0
  count : s.machine.counter.count ≤ s.machine.counter.highest
  highest : ∀ max, Overflowed max seen → max < s.machine.counter.highest

variable {limits : Limits} {s t : Session} {seen : List Moment}

theorem Watches.rises (watches : s.Watches limits seen) (rises : s.Rises t) :
    t.Watches limits (seen ++ [t.moment false]) := by
  have counter : t.machine.engine.counter = 0 := rises.counter.trans watches.counter
  have before := watches.count
  have highest := watches.highest
  have moved : s.machine.counter.Rises t.machine.counter := by
    rw [Machine.counter, Machine.counter, counter, watches.counter]
    exact rises.memory
  have after := moved.count before
  refine ⟨rises.limits.trans watches.limits, counter, after, fun max overflowed => ?_⟩
  rcases overflowed_concat.1 overflowed with above | ⟨-, overflowed⟩
  · exact above.trans_le after
  · exact (highest max overflowed).trans_le moved.highest

theorem Watches.restarts (watches : s.Watches limits seen)
    (restarts : s.machine.Restarts t.machine) :
    t.Watches limits (seen ++ [t.moment true]) := by
  have counter : t.machine.engine.counter = 0 := restarts.counter.trans watches.counter
  refine ⟨restarts.limits.trans watches.limits, counter, restarts.highest.ge,
    fun max overflowed => ?_⟩
  rcases overflowed_concat.1 overflowed with above | ⟨kept, -⟩
  · rw [restarts.highest]
    exact above
  · exact absurd kept (by simp [moment])

theorem start_watches (limits : Limits) (supply : IdSupply) :
    (start limits supply).Watches limits [] :=
  ⟨rfl, rfl, le_rfl, fun max overflowed => absurd overflowed (not_overflowed_nil max)⟩

theorem performNamed_watches (watches : s.Watches limits seen) (round : Nat) (command : Command)
    (saveAs : Option String) :
    ((performNamed round command saveAs).attempt s).Watches limits
      (seen ++ [((performNamed round command saveAs).attempt s).moment command.resetsPeak]) := by
  cases reset : command.resetsPeak with
  | false =>
    have kept : command ≠ .onCounter 0 .resetPeak := by
      rintro rfl
      exact absurd reset (by decide)
    have moves := performNamed_follows 0 round command saveAs (fun _ _ _ grows => grows.toRises)
      (fun _ _ _ swells => swells.toRises)
      (fun _ _ _ sinks => sinks.rises) kept s
    exact watches.rises moves.rises
  | true =>
    -- no other command lets the peak start again
    have direct : command = .onCounter 0 .resetPeak := by
      unfold Command.resetsPeak at reset
      split at reset
      · rfl
      · exact absurd reset (by simp)
    subst direct
    have restarts := Machine.restarts_resetPeak s.machine
    rw [watches.counter] at restarts
    refine watches.restarts ?_
    cases saveAs with
    | none => exact restarts
    | some name => exact restarts

theorem conclude_watches (watches : s.Watches limits seen) (result : Except Error Unit) :
    Watches limits { s with machine := (Machine.conclude result s.machine).2 }
      (seen ++ [{ s with machine := (Machine.conclude result s.machine).2 }.moment
        (Machine.conclude result s.machine).1.isOk]) := by
  rcases Machine.conclude_cases 0 result s.machine with
    ⟨e, t, run, -, moves⟩ | ⟨t, run, restarts, -⟩
  · rw [run]
    exact watches.rises (moves.mono fun sinks => sinks.rises).rises
  · rw [run]
    exact watches.restarts restarts

theorem History.watches (history : History limits s seen) : s.Watches limits seen := by
  induction history with
  | start supply => exact start_watches limits supply
  | perform round command saveAs _ ih => exact performNamed_watches ih round command saveAs
  | conclude result _ ih => exact conclude_watches ih result

def observeRounds {σ : Type} (body : Nat → σ → List Moment × Except Error Unit × σ) :
    Nat → Nat → σ → List Moment
  | 0, _, _ => []
  | times + 1, done, s =>
    match body done s with
    | (seen, .ok (), s) => seen ++ observeRounds body times (done + 1) s
    | (seen, .error _, _) => seen

mutual

def observeStep (round : Nat) : Step → Session → List Moment
  | .perform command saveAs _, s =>
    [((performNamed round command saveAs).attempt s).moment command.resetsPeak]
  | .instruction body _, s =>
    match s.machine.enter with
    | .error _ => []
    | .ok () =>
      let (_, result, t) := runBody round body s
      let (result, machine) := Machine.conclude result t.machine
      observeBody round body s ++ [{ t with machine }.moment result.isOk]
  | .loop times body _, s =>
    observeRounds (fun round s => (observeBody round body s, (runBody round body s).2)) times 0 s

def observeBody (round : Nat) : List Step → Session → List Moment
  | [], _ => []
  | step :: rest, s =>
    let (report, t) := runStep round step s
    observeStep round step s ++
      match report.outcome, step.isCaught with
      | .error _, false => []
      | _, _ => observeBody round rest t

end

theorem rounds_history (body : Nat → Session → List Moment × Except Error Unit × Session)
    (kept : ∀ round s seen, History limits s seen →
      History limits (body round s).2.2 (seen ++ (body round s).1)) :
    ∀ (times done : Nat) (s : Session) (seen : List Moment), History limits s seen →
      History limits (rounds (fun round s => (body round s).2) times done s).2.2
        (seen ++ observeRounds body times done s) := by
  intro times
  induction times with
  | zero =>
    intro done s seen history
    rw [observeRounds, List.append_nil]
    exact history
  | succ times ih =>
    intro done s seen history
    have next := kept done s seen history
    rw [rounds, observeRounds]
    generalize body done s = outcome at next ⊢
    obtain ⟨new, result, t⟩ := outcome
    cases result with
    | error e => exact next
    | ok u =>
      simp only
      rw [← List.append_assoc]
      exact ih (done + 1) t _ next

mutual

theorem runStep_history (round : Nat) : ∀ (step : Step) (s : Session) (seen : List Moment),
    History limits s seen →
    History limits (runStep round step s).2 (seen ++ observeStep round step s)
  | .perform command saveAs _, s, seen, history => .perform round command saveAs history
  | .instruction body _, s, seen, history => by
    rw [runStep, observeStep]
    cases s.machine.enter with
    | error e =>
      simp only [List.append_nil]
      exact history
    | ok u =>
      have after := runBody_history round body s seen history
      simp only [← List.append_assoc]
      exact .conclude _ after
  | .loop times body _, s, seen, history => by
    rw [runStep, observeStep]
    exact rounds_history
      (fun round s => (observeBody round body s, (runBody round body s).2))
      (fun round t seen history => runBody_history round body t seen history) times 0 s seen history

theorem runBody_history (round : Nat) : ∀ (body : List Step) (s : Session) (seen : List Moment),
    History limits s seen →
    History limits (runBody round body s).2.2 (seen ++ observeBody round body s)
  | [], s, seen, history => by
    rw [observeBody, List.append_nil]
    exact history
  | step :: rest, s, seen, history => by
    have after := runStep_history round step s seen history
    rw [runBody, observeBody]
    generalize runStep round step s = outcome at after ⊢
    obtain ⟨report, t⟩ := outcome
    have others := runBody_history round rest t _ after
    rw [List.append_assoc] at others
    simp only
    match report.outcome, step.isCaught with
    | .error e, false =>
      simp only [List.append_nil]
      exact after
    | .error e, true => exact others
    | .ok u, caught => exact others

end

/-- An instruction that an engine on a new counter starts, after any history, misses no overflow
since an instruction last succeeded, also not one inside its own body: it fails, and the engine is
faulted. When it succeeds, the peak is the count, and that is not above the limit. -/
theorem History.instruction_ceiling (history : History limits s seen) (round : Nat)
    (body : List Step) (caught : Bool) (entered : s.machine.enter = .ok ()) :
    (Overflowed limits.maxLiveItems (seen ++ observeBody round body s) →
      (∃ e, (runStep round (.instruction body caught) s).1.outcome = .error e) ∧
        (runStep round (.instruction body caught) s).2.machine.engine.stage = .faulted) ∧
    ((runStep round (.instruction body caught) s).1.outcome = .ok () →
      (runStep round (.instruction body caught) s).2.machine.counter.peak =
          (runStep round (.instruction body caught) s).2.machine.counter.count ∧
        (runStep round (.instruction body caught) s).2.machine.counter.count ≤
          limits.maxLiveItems) := by
  have watches := (runBody_history round body s seen history).watches
  rw [runStep, entered]
  simp only
  generalize runBody round body s = outcome at watches ⊢
  obtain ⟨reports, result, t⟩ := outcome
  -- a count above the limit is below the highest count, and with that the checkpoint fails
  have highest : t.machine.counter.highest ≤ t.machine.counter.peak := le_max_left ..
  rcases Machine.conclude_cases 0 result t.machine with
    ⟨e, u, run, faulted, -⟩ | ⟨u, run, restarts, -, peak⟩
  · simp only [run]
    exact ⟨fun _ => ⟨⟨e, rfl⟩, faulted⟩, fun done => absurd done (by simp [Report.outcome])⟩
  · rw [watches.limits] at peak
    simp only [run]
    refine ⟨fun overflowed => ?_, fun _ => ⟨?_, ?_⟩⟩
    · have above := watches.highest _ overflowed
      exact absurd (highest.trans peak) (Nat.not_le.2 above)
    · rw [Counter.peak, restarts.highest, max_self]
    · exact restarts.count.trans ((Counter.count_le_peak _).trans peak)

/-- Two items on the stack, and nothing at the end. The second push is caught. -/
def overflowing : List Step :=
  [.perform (.onEngine (.push (.leaf .null))) none true,
    .perform (.onEngine (.push (.leaf .null))) none true,
    .perform (.onEngine .pop) none true,
    .perform (.onEngine .pop) none true]

theorem instruction_ceiling_overflowing :
    Overflowed 1 (observeBody 0 overflowing (start { maxLiveItems := 1 } default)) ∧
      (∃ e, (runStep 0 (.instruction overflowing false)
        (start { maxLiveItems := 1 } default)).1.outcome = .error e) ∧
      (runStep 0 (.instruction overflowing false)
        (start { maxLiveItems := 1 } default)).2.machine.engine.stage = .faulted := by
  have seen : observeBody 0 overflowing (start { maxLiveItems := 1 } default) =
      [⟨1, false⟩, ⟨2, false⟩, ⟨1, false⟩, ⟨0, false⟩] := by
    decide +kernel
  have overflowed :
      Overflowed 1 (observeBody 0 overflowing (start { maxLiveItems := 1 } default)) := by
    rw [seen]
    exact ⟨[⟨1, false⟩], ⟨2, false⟩, [⟨1, false⟩, ⟨0, false⟩], rfl, by decide, by simp⟩
  exact ⟨overflowed,
    (History.instruction_ceiling (.start default) 0 overflowing false rfl).1 overflowed⟩

end Session

end LiveItems
