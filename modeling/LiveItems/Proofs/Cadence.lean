import LiveItems.Proofs.Reachability
set_option autoImplicit false

namespace LiveItems

open Relation (TransGen)

/-- The counter tracks what its roots reach, counts that, and has nothing left to look at. -/
structure Counter.Settled (c : Counter) (h : Heap) (held : Multiset Item) : Prop where
  tracked : ∀ a, c.isTracked a = true ↔ h.Reaches held a
  count : c.count = h.weigh held c.tracked.keys.toFinset
  candidates : c.candidates.isEmpty = true

/-- No counter has dropped what lies on a cycle in the end. -/
def Memory.KeepsCycles (m m' : Memory) : Prop :=
  ∀ d a, (m.counter d).isTracked a = true → TransGen m'.heap.Stores a a →
    (m'.counter d).isTracked a = true

namespace Memory

variable {strict : Prop} {m m' : Memory} {roots : CounterId → Multiset Item} {c : CounterId}

theorem Advances.keepsCycles (advances : m.Advances m') : m.KeepsCycles m' := by
  intro d a tracked cycle
  refine Counter.mem_ids.1 (advances.spares d a (Counter.mem_ids.2 tracked) ?_)
  exact TransGen.mono (fun p b stores => Heap.stores_iff.1 stores) _ _ cycle

theorem KeepsCycles.refl (m : Memory) : m.KeepsCycles m := fun _ _ tracked _ => tracked

theorem Collected.tracked_iff {ids : List ItemId} (collected : Collected c ids m m')
    (sound : m.Sound strict roots) (hc : c < m.counters.length) (a : ItemId) :
    (m'.counter c).isTracked a = true ↔ m'.heap.Reaches (roots c) a := by
  have acc := sound.accounts c hc
  rw [← Counter.mem_ids, collected.swept.ids, collected.reaches_iff sound hc, ← acc.live_iff]
  exact ⟨fun tracked => tracked.2, fun live => ⟨acc.mem_of_reaches (acc.live_iff.1 live), live⟩⟩

structure Rests (c : CounterId) (m m' : Memory) : Prop where
  heap : m'.heap = m.heap
  own : m'.counter c = (m.counter c).resetPeak
  others : ∀ d, d ≠ c → m'.counter d = m.counter d

theorem rests_resetPeak (hc : c < m.counters.length) :
    m.Rests c (m.setCounter c (m.counter c).resetPeak) := by
  refine ⟨rfl, ?_, fun d ne => ?_⟩
  · rw [counter_setCounter hc, if_pos rfl]
  · rw [counter_setCounter hc, if_neg ne]

theorem Rests.keepsCycles (rests : m.Rests c m') : m.KeepsCycles m' := by
  intro d a tracked _
  by_cases same : d = c
  · rw [same] at tracked ⊢
    rw [rests.own]
    exact tracked
  · rw [rests.others d same]
    exact tracked

end Memory

namespace Machine

variable {strict : Prop} {roots : CounterId → Multiset Item} {s : Machine} {m : Memory}

theorem Settles.rests (settles : Settles strict roots s m) (held : s.Held strict roots)
    (early : ¬s.engine.limits.collectionInterval ∣ s.engine.executed) :
    s.memory.Rests s.engine.counter m := by
  rw [settles.rested early]
  exact Memory.rests_resetPeak held.counter

theorem Settles.settled (settles : Settles strict roots s m) (held : s.Held strict roots)
    (due : s.engine.limits.collectionInterval ∣ s.engine.executed) :
    (m.counter s.engine.counter).Settled m.heap ((s.engine.roots + roots) s.engine.counter) := by
  have acc := settles.held.sound.accounts s.engine.counter settles.held.counter
  obtain ⟨m', ids, collected, rfl⟩ := settles.swept due
  -- the peak starts again after the pass, which nothing else in the counter depends on
  have rests := Memory.rests_resetPeak (m := m') (collected.counters ▸ held.counter)
  refine ⟨fun a => ?_, acc.count_eq, ?_⟩
  · rw [rests.own, rests.heap]
    exact collected.tracked_iff held.sound held.counter a
  · rw [rests.own]
    exact collected.swept.candidates

end Machine

namespace Session

variable {suspects strict : Prop} {s : Session} {round : Nat} {body : List Step} {caught : Bool}

theorem instruction_settles (sound : (runBody round body s).2.2.Sound strict)
    (ended : (runStep round (.instruction body caught) s).1.outcome = .ok ()) :
    ∃ m, (runStep round (.instruction body caught) s).2 =
        { (runBody round body s).2.2 with
          machine := { (runBody round body s).2.2.machine.counted with memory := m } } ∧
      Machine.Settles strict
        ((runBody round body s).2.2.stackRoots + (runBody round body s).2.2.slotRoots)
        (runBody round body s).2.2.machine.counted m := by
  rw [runStep] at ended ⊢
  split at ended
  · exact absurd ended (by simp [Report.outcome])
  · rcases sound.machine.conclude (runBody round body s).2.1 with
      ⟨e, t, run, -⟩ | ⟨m, run, -, settles⟩
    · simp only [run, Report.outcome] at ended
      exact absurd ended (by simp)
    · refine ⟨m, ?_, settles⟩
      simp only [run]

/-- After an instruction that has ended well in a balanced run, the counter of the engine is exact
if a pass was due; otherwise the end of the instruction has made its peak start again and has done
nothing else, so that what lies on cycles is tracked, counted and stored as it was. No balanced
command that runs no pass drops what lies on a cycle in the end, and neither does the end of an
instruction without one: an instruction that has failed, that has taken the peak above the limit, or
after which no pass is due. -/
theorem Reachable.cadence (reachable : Reachable suspects s) (round : Nat) :
    (∀ body caught u t, u = (runBody round body s).2.2 →
      t = (runStep round (.instruction body caught) s).2 →
      Step.AllBalanced suspects s.memory.counters.length body →
      (runStep round (.instruction body caught) s).1.outcome = .ok () →
      (t.machine.engine.limits.collectionInterval ∣ t.machine.engine.executed →
        t.machine.counter.Settled t.memory.heap (t.roots t.machine.engine.counter)) ∧
      (¬t.machine.engine.limits.collectionInterval ∣ t.machine.engine.executed →
        u.memory.Rests t.machine.engine.counter t.memory ∧
        t.machine.counter.count = u.machine.counter.count ∧
        ∀ a, u.machine.counter.isTracked a = true → TransGen u.memory.heap.Stores a a →
          t.machine.counter.isTracked a = true ∧
            t.memory.heap.object? a = u.memory.heap.object? a)) ∧
    (∀ command saveAs, command.Balanced suspects s.memory.counters.length →
      ¬command.Collects →
      s.memory.KeepsCycles ((performNamed round command saveAs).attempt s).memory) ∧
    (∀ result, (result ≠ .ok () ∨
        s.machine.counter.peak > s.machine.engine.limits.maxLiveItems ∨
        ¬s.machine.engine.limits.collectionInterval ∣ s.machine.engine.executed + 1) →
      s.memory.KeepsCycles (Machine.conclude result s.machine).2.memory) := by
  refine ⟨fun body caught u t hu ht balanced ended => ?_, fun command saveAs balanced quiet => ?_,
    fun result none => ?_⟩
  · have grown := runBody_grown round body s balanced ⟨reachable, le_rfl⟩
    have held := grown.reachable.sound.machine
    obtain ⟨m, after, settles⟩ := instruction_settles grown.reachable.sound ended
    rw [← hu] at held after settles
    rw [← ht] at after
    subst after
    refine ⟨fun due => settles.settled held.counted due, fun early => ?_⟩
    have rests := settles.rests held.counted early
    have count := congrArg Counter.count rests.own
    exact ⟨rests, count, fun a tracked _ =>
      ⟨(congrArg (Counter.isTracked · a) rests.own).trans tracked,
        congrArg (Heap.object? · a) rests.heap⟩⟩
  · exact ((reachable.performs round saveAs balanced).keeps.moved quiet).keepsCycles
  · by_cases exceeded : s.machine.counter.peak > s.machine.engine.limits.maxLiveItems
    · exact Machine.memory_conclude_of_exceeded exceeded result ▸ .refl _
    have held := reachable.sound.machine
    rcases held.conclude result with ⟨e, t, run, -, same, -⟩ | ⟨m, run, ok, settles⟩
    · rw [run]
      exact same ▸ .refl _
    · rw [run]
      have early := (none.resolve_left fun failed => failed ok).resolve_left exceeded
      exact (settles.rests held.counted early).keepsCycles

/-- The array that holds itself is let go by an instruction after which no pass is due. -/
def halfway : Session :=
  (runStep 0 (.instruction abandoned false) (start { collectionInterval := 2 } default)).2

theorem halfway_reachable (suspects : Prop) : Reachable suspects halfway :=
  (runStep_grown 0 (.instruction abandoned false) _ (abandoned_balanced suspects)
    (start_grown suspects { collectionInterval := 2 } default)).reachable

theorem cadence_halfway :
    halfway.machine.counter.isTracked ((default : IdSupply).id 1) = true ∧
      (runStep 0 (.instruction [] false) halfway).2.machine.counter.isTracked
        ((default : IdSupply).id 1) = false ∧
      halfway.memory.KeepsCycles ((performNamed 0 (.onEngine .halt) none).attempt halfway).memory ∧
      halfway.memory.KeepsCycles
        (Machine.conclude (.error (.limitExceeded 2 1)) halfway.machine).2.memory := by
  have first := (Reachable.cadence (.start { collectionInterval := 2 } default) 0).1 abandoned false
    _ halfway rfl rfl (abandoned_balanced True) (by decide +kernel)
  obtain ⟨second, commands, ends⟩ := Reachable.cadence (halfway_reachable True) 0
  refine ⟨?_, ?_, commands (.onEngine .halt) none trivial id, ends _ (.inl (by simp))⟩
  · obtain ⟨-, -, kept⟩ := first.2 (by decide +kernel)
    have holds : Heap.Stores
        (runBody 0 abandoned (start { collectionInterval := 2 } default)).2.2.memory.heap
        ((default : IdSupply).id 1) ((default : IdSupply).id 1) :=
      ⟨.object .array ((default : IdSupply).id 1), by decide +kernel, rfl⟩
    exact (kept _ (by decide +kernel) (.single holds)).1
  · have settled := (second [] false _ _ rfl rfl trivial (by decide +kernel)).1 (by decide +kernel)
    refine Bool.eq_false_iff.2 fun tracked => ?_
    obtain ⟨x, hx, -⟩ := (settled.tracked _).1 tracked
    have none : (runStep 0 (.instruction [] false) halfway).2.roots
        (runStep 0 (.instruction [] false) halfway).2.machine.engine.counter = 0 := by
      decide +kernel
    rw [none] at hx
    exact absurd hx (Multiset.notMem_zero x)

end Session

end LiveItems
