import LiveItems.Proofs.Ceiling
import LiveItems.Proofs.Memory.Agree
import LiveItems.Proofs.Session.Acts
import LiveItems.Proofs.Session.Placing
set_option autoImplicit false

/-!
# Peaks and the counts behind them

Each peak is the count at some moment since it last started again. Most of these moments are ends of
operations, but while items are placed the count may be higher than before and after. An instruction
whose body succeeds exceeds the limit only when one of these counts does.
-/

namespace LiveItems

open LiveItems.Action (Follows Prolongs)
open Counter (Grows Sinks StaysSmall Surges Swells)

namespace Machine

open LiveItems.Action (Faithful)

theorem faithful_settle : Faithful settle := by
  have reset : ∀ c : CounterId, Faithful (onMemory (Memory.resetPeak c)) := fun _ _ => trivial
  have pass : Faithful collect := fun s => .get_bind (Action.Ends.onPart
    (fun s : Machine => s.memory) (Memory.faithful_collect s.engine.counter s.memory)
    (fun _ _ failed => failed) fun _ _ _ => trivial)
  refine fun s => .get_bind ?_
  by_cases due : s.engine.executed % s.engine.limits.collectionInterval = 0
  · simp only [if_pos due]
    exact pass.bind (fun _ => reset _) s
  · simp only [if_neg due]
    exact reset _ s

/-- After a body that has succeeded, a peak within the limit is no reason to fail. -/
theorem conclude_of_within {s : Machine}
    (within : s.counter.peak ≤ s.engine.limits.maxLiveItems) (peak max : Nat) :
    (conclude (.ok ()) s).1 ≠ .error (.limitExceeded peak max) := by
  have unfolded : checkpoint.apply s = settle.apply s.counted := by
    rw [apply_checkpoint, if_neg (Nat.not_lt.2 within)]
  simp only [conclude, unfolded]
  rcases (faithful_settle s.counted).cases with ⟨e, t, run, why, rfl, -⟩ | ⟨_, t, run, -⟩
  · simp [run]
  · simp [run]

end Machine

namespace Session

def count (d : CounterId) (s : Session) : Nat := (s.memory.counter d).count

/-- The counter whose peak starts again with the act. -/
def restarted (s : Session) : Act → Option CounterId
  | .perform _ (.onCounter c .resetPeak) _ => some c
  | .conclude result =>
    if (Machine.conclude result s.machine).1.isOk then some s.machine.engine.counter else none
  | _ => none

def outcomes (s : Session) (a : Act) : List Session := [s.act a]

/-- What an act comes to is seen and, when items are placed, the moment of placing before it. -/
def moments (s : Session) : Act → List Session
  | .perform round command saveAs =>
    (placed round command s).toList ++ s.outcomes (.perform round command saveAs)
  | a => s.outcomes a

section Counts

variable (seen : Session → Act → List Session) (d : CounterId)

/-- Notes the counts of a counter that are seen with an act. The count after a restart is the first
one to be noted. -/
def note (s : Session) (counts : List Nat) (a : Act) : List Nat :=
  if s.restarted a = some d then [(s.act a).count d] else counts ++ (seen s a).map (count d)

def countsSince : Session → List Nat → List Act → List Nat
  | _, counts, [] => counts
  | s, counts, a :: acts => countsSince (s.act a) (note seen d s counts a) acts

end Counts

variable {d : CounterId} {limits : Limits} {s t p : Session} {counts : List Nat}

theorem performNamed_prolongs (step : Counter → Counter → Prop) [IsPreorder Counter step]
    (d : CounterId) (round : Nat) (command : Command) (saveAs : Option String) :
    Prolongs (Steps step d) (perform round command) (performNamed round command saveAs) := by
  refine (Prolongs.refl _).more fun answer => ?_
  split
  · exact (bind_follows d _ _).answers _
  · exact .pure _

/-- A command that places nothing leaves no count behind that is higher than at its end. -/
theorem performNamed_surges {round : Nat} {command : Command} (saveAs : Option String)
    (none : placed round command s = none) (kept : command ≠ .onCounter d .resetPeak) :
    s.Steps Surges d ((performNamed round command saveAs).attempt s) := by
  rcases cases_of_not_placed round none with adds | removes | ⟨n, rfl⟩
  · have sinks : s.Steps Sinks d ((performNamed round command saveAs).attempt s) :=
      performNamed_follows d round command saveAs
        (fun up => absurd (adds.symm.trans up) (by decide))
        (fun wide => absurd (adds.symm.trans (Command.adds_of_addsRoots wide)) (by decide))
        (fun _ _ _ sinks => sinks) kept s
    exact sinks.mono fun sinks => sinks.surges
  · have swells : s.Steps Swells d ((performNamed round command saveAs).attempt s) :=
      performNamed_follows d round command saveAs (fun _ _ _ grows => grows.toSwells)
        (fun _ _ _ swells => swells)
        (fun down => absurd (removes.symm.trans down) (by decide)) kept s
    exact swells.mono fun swells => swells.surges
  · obtain ⟨t, sinks, grows⟩ := Machine.initStatics_steps d n s.machine
    have done : Prolongs (Steps Grows d) (onMachine (Machine.initStatics n))
        (perform round (.onEngine (.initStatics n))) := (Prolongs.refl _).more fun _ => .pure _
    have named := performNamed_prolongs Grows d round (.onEngine (.initStatics n)) saveAs s
    have after := trans_of (Steps Grows d) (done s) named
    have grows := trans_of (Machine.Steps Grows d) grows after
    exact ⟨grows.limits.trans sinks.limits, grows.counter.trans sinks.counter,
      sinks.memory.surges_of_grows grows.memory⟩

theorem performNamed_placed {round : Nat} {command : Command} (saveAs : Option String)
    (placing : placed round command s = some p) :
    s.Steps Surges d p ∧ p.Steps Surges d ((performNamed round command saveAs).attempt s) := by
  obtain ⟨grows, sinks⟩ := perform_placed d round placing
  have named := performNamed_prolongs Sinks d round command saveAs s
  have sinks := trans_of (Machine.Steps Sinks d) sinks named
  exact ⟨grows.mono fun grows => grows.surges, sinks.mono fun sinks => sinks.surges⟩

/-- The engine watches the counter zero with the given limits, and the highest count of the counter
`d` is the greatest of the counts, unless a sum has left the word. -/
structure Peaks (limits : Limits) (d : CounterId) (s : Session) (counts : List Nat) : Prop where
  limits : s.machine.engine.limits = limits
  counter : s.machine.engine.counter = 0
  below : (s.memory.counter d).count ≤ (s.memory.counter d).highest
  highest : (s.memory.counter d).Unwrapped → counts.max? = some (s.memory.counter d).highest

theorem Peaks.peak (peaks : s.Peaks limits d counts) (exact : (s.memory.counter d).Unwrapped) :
    counts.max? = some (s.memory.counter d).peak := by
  rw [Counter.peak, max_eq_left peaks.below]
  exact peaks.highest exact

theorem start_peaks (limits : Limits) (supply : IdSupply) (d : CounterId) :
    (start limits supply).Peaks limits d [0] := by
  refine ⟨rfl, rfl, ?_, ?_⟩
  · rw [start_counter]
    exact le_rfl
  · rw [start_counter]
    exact fun _ => rfl

theorem max?_concat {counts : List Nat} {n k : Nat} (greatest : counts.max? = some n) :
    (counts ++ [k]).max? = some (max n k) := by
  obtain ⟨among, above⟩ := List.max?_eq_some_iff.1 greatest
  refine List.max?_eq_some_iff.2 ⟨?_, fun m hm => ?_⟩
  · rcases max_choice n k with same | same
    · rw [same]
      exact List.mem_append_left _ among
    · rw [same]
      exact List.mem_append_right _ (List.mem_singleton_self k)
  · rcases List.mem_append.1 hm with hm | hm
    · exact (above m hm).trans (le_max_left ..)
    · exact (List.mem_singleton.1 hm).symm ▸ le_max_right ..

theorem Peaks.surges (peaks : s.Peaks limits d counts) (surges : s.Steps Surges d t) :
    t.Peaks limits d (counts ++ [t.count d]) := by
  refine ⟨surges.limits.trans peaks.limits, surges.counter.trans peaks.counter,
    surges.memory.below peaks.below, fun exact => ?_⟩
  have reached : (t.memory.counter d).highest =
      max (s.memory.counter d).highest (t.memory.counter d).count :=
    surges.memory.exact exact peaks.below
  rw [reached]
  exact max?_concat (peaks.highest (surges.memory.unwrapped exact))

theorem Peaks.restarts (peaks : s.Peaks limits d counts)
    (kept : t.machine.engine.limits = s.machine.engine.limits)
    (counter : t.machine.engine.counter = s.machine.engine.counter)
    (highest : (t.memory.counter d).highest = (t.memory.counter d).count) :
    t.Peaks limits d [t.count d] :=
  ⟨kept.trans peaks.limits, counter.trans peaks.counter, highest.ge, fun _ => by rw [highest]; rfl⟩

theorem restarted_perform {round : Nat} {command : Command} {saveAs : Option String} :
    s.restarted (.perform round command saveAs) = some d ↔ command = .onCounter d .resetPeak := by
  constructor
  · intro same
    unfold restarted at same
    split at same
    · rename_i restarts
      obtain ⟨-, rfl, -⟩ := Act.perform.inj restarts
      exact Option.some.inj same ▸ rfl
    · rename_i other
      exact absurd other (by simp)
    · exact absurd same (by simp)
  · rintro rfl
    rfl

theorem machine_resetPeak (s : Session) (c : CounterId) (round : Nat) (saveAs : Option String) :
    (s.act (.perform round (.onCounter c .resetPeak) saveAs)).machine =
      (Machine.onMemory (Memory.resetPeak c)).attempt s.machine := by
  cases saveAs with
  | none => rfl
  | some name => rfl

theorem Peaks.perform (peaks : s.Peaks limits d counts) (round : Nat) (command : Command)
    (saveAs : Option String) :
    (s.act (.perform round command saveAs)).Peaks limits d
      (note moments d s counts (.perform round command saveAs)) := by
  by_cases reset : command = .onCounter d .resetPeak
  · rw [note, if_pos (restarted_perform.2 reset)]
    subst reset
    have after := machine_resetPeak s d round saveAs
    refine peaks.restarts ?_ ?_ ?_
    · rw [after]
      rfl
    · rw [after]
      rfl
    · have highest : (s.act (.perform round (.onCounter d .resetPeak) saveAs)).memory.counter d =
          (s.memory.counter d).resetPeak := by
        rw [memory, after]
        exact Memory.counter_resetPeak d s.memory
      rw [highest]
      rfl
  · rw [note, if_neg (mt restarted_perform.1 reset)]
    cases placing : placed round command s with
    | none =>
      have surges := performNamed_surges saveAs placing reset
      simp only [moments, placing]
      exact peaks.surges surges
    | some p =>
      obtain ⟨first, second⟩ := performNamed_placed (d := d) saveAs placing
      have peaks := (peaks.surges first).surges second
      rw [List.append_assoc] at peaks
      simp only [moments, placing]
      exact peaks

/-- When the instruction succeeds, the peak of the engine's counter starts again, and no other. -/
theorem Peaks.conclude (peaks : s.Peaks limits d counts) (result : Except Error Unit) :
    (s.act (.conclude result)).Peaks limits d (note moments d s counts (.conclude result)) := by
  rcases Machine.conclude_cases d result s.machine with
    ⟨e, u, run, -, sinks⟩ | ⟨u, run, restarts, others, -⟩
  · have going : s.restarted (.conclude result) ≠ some d := by
      simp [restarted, run, Except.isOk, Except.toBool]
    have after : s.Steps Sinks d (s.act (.conclude result)) := by
      rw [Session.act, Steps, run]
      exact sinks
    rw [note, if_neg going]
    exact peaks.surges (after.mono fun sinks => sinks.surges)
  · have after : (s.act (.conclude result)).machine = u := by rw [Session.act, run]
    have restarting : s.restarted (.conclude result) = some s.machine.engine.counter := by
      simp [restarted, run, Except.isOk, Except.toBool]
    by_cases own : s.machine.engine.counter = d
    · have highest := restarts.highest
      rw [Machine.counter, restarts.counter, own] at highest
      rw [note, if_pos (restarting.trans (congrArg some own))]
      refine peaks.restarts ?_ ?_ ?_
      · rw [after, restarts.limits]
      · rw [after, restarts.counter]
      · rw [memory, after]
        exact highest
    · have going : s.restarted (.conclude result) ≠ some d := fun same =>
        own (Option.some.inj (restarting.symm.trans same))
      have moved : s.Steps Sinks d (s.act (.conclude result)) := by
        rw [Steps, after]
        exact others own
      rw [note, if_neg going]
      exact peaks.surges (moved.mono fun sinks => sinks.surges)

theorem Peaks.act (peaks : s.Peaks limits d counts) (a : Act) :
    (s.act a).Peaks limits d (note moments d s counts a) := by
  cases a with
  | perform round command saveAs => exact peaks.perform round command saveAs
  | conclude result => exact peaks.conclude result
  | close =>
    have sinks : s.Steps Sinks d s.close := steps_close (fun sinks => sinks) d s
    exact peaks.surges (sinks.mono fun sinks => sinks.surges)

theorem Peaks.acts (acts : List Act) : ∀ {s : Session} {counts : List Nat},
    s.Peaks limits d counts →
    (acts.foldl Session.act s).Peaks limits d (countsSince moments d s counts acts) := by
  induction acts with
  | nil => exact fun peaks => peaks
  | cons a acts ih => exact fun peaks => ih (peaks.act a)

def Act.addsRoots : Act → Bool
  | .perform _ command _ => command.addsRoots
  | _ => false

/-- No sum of the counter leaves the word. Only direct calls that add roots make that possible. -/
def StaysInWord (d : CounterId) (s : Session) (acts : List Act) : Prop :=
  (∃ a ∈ acts, a.addsRoots = true) → ((acts.foldl act s).memory.counter d).Unwrapped

instance (d : CounterId) (s : Session) (acts : List Act) : Decidable (s.StaysInWord d acts) :=
  inferInstanceAs (Decidable (_ → _))

theorem perform_small {round : Nat} {command : Command} {saveAs : Option String}
    (none : command.addsRoots = false) :
    (s.memory.counter d).StaysSmall
      ((s.act (.perform round command saveAs)).memory.counter d) := by
  by_cases reset : command = .onCounter d .resetPeak
  · subst reset
    rw [memory, memory, machine_resetPeak]
    have highest := Memory.counter_resetPeak d s.memory
    intro small
    exact (congrArg Counter.sums highest).trans small
  · have follows : Follows (Steps StaysSmall d) (performNamed round command saveAs) :=
      performNamed_follows d round command saveAs (fun _ _ _ grows => grows.small)
        (fun wide => absurd (none.symm.trans wide) (by decide))
        (fun _ _ _ sinks => sinks.staysSmall) reset
    exact (follows s).memory

theorem conclude_small (result : Except Error Unit) :
    (s.memory.counter d).StaysSmall ((s.act (.conclude result)).memory.counter d) := by
  rcases Machine.conclude_cases d result s.machine with
    ⟨e, u, run, -, sinks⟩ | ⟨u, run, restarts, others, -⟩
  · rw [Session.act, run]
    exact sinks.memory.staysSmall
  · rw [Session.act, run]
    by_cases own : s.machine.engine.counter = d
    · have sums := restarts.sums
      rw [Machine.counter, Machine.counter, restarts.counter, own] at sums
      exact sums.trans
    · exact (others own).memory.staysSmall

theorem act_small {a : Act} (none : a.addsRoots = false) :
    (s.memory.counter d).StaysSmall ((s.act a).memory.counter d) := by
  cases a with
  | perform round command saveAs => exact perform_small none
  | conclude result => exact conclude_small result
  | close =>
    have sinks : s.Steps Sinks d s.close := steps_close (fun sinks => sinks) d s
    exact sinks.memory.staysSmall

theorem acts_small {acts : List Act} (none : ∀ a ∈ acts, a.addsRoots = false) :
    (s.memory.counter d).StaysSmall ((acts.foldl act s).memory.counter d) := by
  induction acts generalizing s with
  | nil => exact fun small => small
  | cons a acts ih =>
    intro small
    refine ih (fun b hb => none b (List.mem_cons_of_mem a hb)) ?_
    exact act_small (none a (List.mem_cons_self ..)) small

theorem StaysInWord.unwrapped {acts : List Act} (word : s.StaysInWord d acts)
    (small : (s.memory.counter d).sums = .small) :
    ((acts.foldl act s).memory.counter d).Unwrapped := by
  by_cases adds : ∃ a ∈ acts, a.addsRoots = true
  · exact word adds
  · have none : ∀ a ∈ acts, a.addsRoots = false := by simpa using adds
    exact Counter.unwrapped_of_small (acts_small none small)

/-- Whatever has been done with a new engine, the peak of each counter is the greatest of the counts
since it last started again: right after that, after each operation, and when items have been placed
and nothing has been released yet. So an instruction whose body succeeds does not exceed the limit
unless one of these counts has. -/
theorem peak_eq_greatest (limits : Limits) (supply : IdSupply) (acts : List Act) :
    (∀ d, (start limits supply).StaysInWord d acts →
      (countsSince moments d (start limits supply) [0] acts).max? =
        some ((acts.foldl act (start limits supply)).memory.counter d).peak) ∧
    ∀ (round : Nat) (body : List Step) (caught : Bool),
      (start limits supply).StaysInWord 0
        (acts ++ actsOfBody round body (acts.foldl act (start limits supply))) →
      (acts.foldl act (start limits supply)).machine.enter = .ok () →
      (runBody round body (acts.foldl act (start limits supply))).2.1 = .ok () →
      (∀ n ∈ countsSince moments 0 (start limits supply) [0]
        (acts ++ actsOfBody round body (acts.foldl act (start limits supply))),
        n ≤ limits.maxLiveItems) →
      ∀ peak max, (runStep round (.instruction body caught)
        (acts.foldl act (start limits supply))).1.outcome ≠ .error (.limitExceeded peak max) := by
  have small : ∀ d, ((start limits supply).memory.counter d).sums = .small := fun d => by
    rw [start_counter]
    rfl
  refine ⟨fun d word => ((start_peaks limits supply d).acts acts).peak (word.unwrapped (small d)),
    fun round body caught word entered succeeded within peak max => ?_⟩
  have exact := word.unwrapped (small 0)
  have peaks := (start_peaks limits supply 0).acts
    (acts ++ actsOfBody round body (acts.foldl act (start limits supply)))
  have below := within _ (List.max?_eq_some_iff.1 (peaks.peak exact)).1
  rw [List.foldl_append, ← runBody_acts] at peaks below
  rw [runStep, entered]
  simp only
  generalize runBody round body (acts.foldl act (start limits supply)) = outcome
    at peaks below succeeded ⊢
  obtain ⟨reports, result, t⟩ := outcome
  obtain rfl : result = .ok () := succeeded
  refine Machine.conclude_of_within ?_ peak max
  rw [Machine.counter, peaks.counter, peaks.limits]
  exact below

/-- An array holds an item, and another one takes its place. -/
def replacing : List Step :=
  [.perform (.create "a" (.list .array [.leaf (.integer 1)] (some 0))) none false,
    .perform (.onEngine (.push (.named "a"))) none false,
    .perform (.onList "a" (.set 0 (.leaf (.integer 2)))) none false]

/-- Three items count while the second one takes the place of the first. -/
theorem peak_eq_greatest_replacing :
    (countsSince moments 0 (start { maxLiveItems := 3 } default) [0]
        (actsOfBody 0 replacing (start { maxLiveItems := 3 } default)) = [0, 0, 2, 3, 2]) ∧
      ((runBody 0 replacing (start { maxLiveItems := 3 } default)).2.2.memory.counter 0).peak = 3 ∧
      ∀ peak max, (runStep 0 (.instruction replacing false)
        (start { maxLiveItems := 3 } default)).1.outcome ≠ .error (.limitExceeded peak max) := by
  have counts : countsSince moments 0 (start { maxLiveItems := 3 } default) [0]
      (actsOfBody 0 replacing (start { maxLiveItems := 3 } default)) = [0, 0, 2, 3, 2] := by
    decide +kernel
  have greatest := (peak_eq_greatest { maxLiveItems := 3 } default
    (actsOfBody 0 replacing (start { maxLiveItems := 3 } default))).1 0 (by decide +kernel)
  rw [counts, ← runBody_acts] at greatest
  refine ⟨counts, (Option.some.inj greatest).symm, fun peak max => ?_⟩
  refine (peak_eq_greatest { maxLiveItems := 3 } default []).2 0 replacing false
    (by decide +kernel) rfl rfl ?_ peak max
  rw [List.nil_append, List.foldl_nil, counts]
  decide

/-- After none of these operations the count is above two, but the peak is three, and that is too
much where two are allowed. -/
theorem peak_above_outcomes :
    (runBody 0 replacing (start { maxLiveItems := 2 } default)).2.1 = .ok () ∧
      countsSince outcomes 0 (start { maxLiveItems := 2 } default) [0]
        (actsOfBody 0 replacing (start { maxLiveItems := 2 } default)) = [0, 0, 2, 2] ∧
      ((runBody 0 replacing (start { maxLiveItems := 2 } default)).2.2.memory.counter 0).peak = 3 ∧
      (runStep 0 (.instruction replacing false)
        (start { maxLiveItems := 2 } default)).1.outcome = .error (.limitExceeded 3 2) :=
  ⟨rfl, by decide +kernel, by decide +kernel, rfl⟩

end Session

end LiveItems
