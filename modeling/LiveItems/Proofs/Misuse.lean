import LiveItems.Proofs.Session.Acts
set_option autoImplicit false

namespace LiveItems

open Memory

/-- The records of a counter that has been given so many roots of leaves fit together, whatever they
have to do with what is stored. -/
structure Counter.Intact (c : Counter) (leafRoots : Nat) : Prop where
  edges : ∀ p e, c.get? p = some e → ∀ a n, e.edges.get? a = some n →
    1 ≤ n ∧ c.isTracked a = true
  references : ∀ a e, c.get? a = some e →
    e.references = ∑ p ∈ c.tracked.keys.toFinset, (c.edges p).multiplicity a
  candidates : ∀ a ∈ c.candidates.keys, c.isTracked a = true ∧ c.rootCount a = 0
  waiting : ∀ a e, c.get? a = some e → e.roots = 0 → e.references = 0 → a ∈ c.candidates.keys
  count : c.count =
    c.tracked.size + ∑ p ∈ c.tracked.keys.toFinset, c.leafCount p + leafRoots

theorem Counter.Consistent.intact {c : Counter} {n : Nat} (consistent : c.Consistent n) :
    c.Intact n := by
  have coherent := consistent.coherent
  refine ⟨fun p e he a k recorded => ?_, fun a e he => ?_, fun a ha => ?_,
    fun a e he unrooted loose => ?_, ?_⟩
  · have same : c.edges p = e.edges := by rw [edges_eq, entry_of_get? he]
    have key : a ∈ (c.edges p).keys := by
      rw [same]
      exact OrderedMap.mem_keys_iff.2 ⟨k, OrderedMap.get?_eq_some_iff.1 recorded⟩
    have positive := coherent.positive p a key
    refine ⟨?_, mem_ids.1 (coherent.closed positive)⟩
    rwa [flow, same, Edges.multiplicity, recorded, Option.getD_some] at positive
  · have references := coherent.references a
    rwa [referenceCount_eq, entry_of_get? he, Nat.add_zero] at references
  · exact ⟨mem_ids.1 (consistent.enlisted a ha), consistent.rootless a ha⟩
  · refine consistent.candidate_of_unheld (mem_ids_of_get? he) ?_ ?_
    · rwa [rootCount_eq, entry_of_get? he]
    · rwa [referenceCount_eq, entry_of_get? he]
  · have count := consistent.count
    rw [weight, Finset.sum_add_distrib, ← Finset.card_eq_sum_ones, card_ids] at count
    exact count

namespace Session

/-- A session that any acts lead to, with a log of the calls of counters that they have made.
Counters change by calls only. -/
inductive Logged : Session → List Call → Prop where
  | start (limits : Limits) (supply : IdSupply) : Logged (start limits supply) []
  | act {s : Session} {log calls : List Call} (a : Act) : Logged s log →
      a.InRange s.memory.counters.length → Path Set.univ s.memory calls (s.act a).memory →
      Logged (s.act a) (log ++ calls)

variable {s : Session} {m : Memory} {log calls : List Call}

theorem Logged.arises (logged : Logged s log) : Arises s := by
  induction logged with
  | start limits supply => exact .start limits supply
  | act a _ inRange _ ih => exact .act a ih inRange

theorem Arises.logged (arises : Arises s) : ∃ log, Logged s log := by
  induction arises with
  | start limits supply => exact ⟨[], .start limits supply⟩
  | act a arises inRange ih =>
    obtain ⟨log, logged⟩ := ih
    obtain ⟨calls, path⟩ := (act_leads arises.proper a inRange).walks
    exact ⟨log ++ calls, .act a logged inRange (path.mono (Set.subset_univ _))⟩

/-- How many roots of leaves have been given to a counter and not been taken away. -/
def outstanding (c : CounterId) (log : List Call) : Nat := leavesAdded c log - leavesRemoved c log

theorem Logged.consistent (logged : Logged s log) (spared : Spared log) {c : CounterId}
    (exact : (s.memory.counter c).Unwrapped) :
    (s.memory.counter c).Consistent (outstanding c log) := by
  induction logged with
  | start limits supply =>
    rw [start_counter]
    exact .fresh
  | act a logged _ path ih =>
    exact path.consistent logged.arises.proper.apart spared exact
      (ih spared.of_append (path.unwrapped c exact))

/-- A direct call makes this call only. -/
theorem Logged.call {c : CounterId} (logged : Logged s log) (hc : c < s.memory.counters.length)
    (command : CounterCommand) (method : Method)
    (known : ∀ x, method.added? = some x → s.memory.heap.Knows x)
    (same : (s.act (.perform 0 (.onCounter c command) none)).memory =
      (method.call c).attempt s.memory) :
    Logged (s.act (.perform 0 (.onCounter c command) none))
      (log ++ [⟨c, method, ((method.call c).apply s.memory).1⟩]) := by
  refine .act _ logged hc ?_
  rw [same]
  exact .call method trivial hc known (.done _)

/-- A direct call that adds roots finds the counter adding in words. -/
theorem Logged.give {c : CounterId} (logged : Logged s log) (hc : c < s.memory.counters.length)
    (operand : Operand) {x : Item} (n : Nat) (known : s.memory.heap.Knows x)
    (same : (s.act (.perform 0 (.onCounter c (.addRoots operand n)) none)).memory =
      (addRoots c x n).attempt (s.memory.setCounter c (s.memory.counter c).inWords)) :
    Logged (s.act (.perform 0 (.onCounter c (.addRoots operand n)) none))
      (log ++ [⟨c, .addRoots x n, ((addRoots c x n).apply
        (s.memory.setCounter c (s.memory.counter c).inWords)).1⟩]) := by
  refine .act _ logged hc ?_
  rw [same]
  have still : c < (s.memory.setCounter c (s.memory.counter c).inWords).counters.length := by
    rwa [length_setCounter]
  exact .words trivial hc (.call (.addRoots x n) trivial still
    (fun _ added => Option.some.inj added ▸ known) (.done _))

theorem logged_buffer (name : String) :
    Logged ((start {} default).act (.perform 0 (.create name (.buffer [])) none)) [] := by
  refine .act _ (.start {} default) trivial ?_
  exact Path.allocate (o := { storage := .bytes [] }) (start_proper {} default).apart
    (fun x hx => absurd hx List.not_mem_nil) (fun x hx => absurd hx List.not_mem_nil)
    fun d hd => absurd hd (by simp)

theorem knows_buffer {id : ItemId} (stored : m.heap.storage? id = some (.bytes [])) :
    ∀ x, some (.object .buffer id) = some x → m.heap.Knows x := by
  rintro x same kind a named
  obtain ⟨rfl, rfl⟩ := Item.object.inj ((Option.some.inj same).trans named)
  exact ⟨_, stored, trivial⟩

/-- A buffer that is recorded as a part of itself, and leaves of which only some are released. -/
def misused : List Act :=
  [.create "buffer" (.buffer []), .onCounter 0 (.addRoots (.leaf .null) 2),
    .onCounter 0 (.suspect (.named "buffer")),
    .onCounter 0 (.addOccurrence (.named "buffer") (.operand (.named "buffer"))),
    .onCounter 0 (.removeRoot (.leaf .null))].map (.perform 0 · none)

def misusedLog : List Call :=
  [⟨0, .addRoots (.leaf .null) 2, .ok ()⟩, ⟨0, .suspect (.object .buffer 1), .ok ()⟩,
    ⟨0, .addOccurrence (.object .buffer 1) 1, .ok ()⟩, ⟨0, .removeRoot (.leaf .null), .ok ()⟩]

theorem logged_misused : Logged (misused.foldl act (start {} default)) misusedLog := by
  have given := (logged_buffer "buffer").give (c := 0) (by decide) (.leaf .null) 2
    (.leaf _ .null) rfl
  have tracked := given.call (c := 0) (by decide) (.suspect (.named "buffer"))
    (.suspect (.object .buffer 1)) (knows_buffer rfl) rfl
  have looped := tracked.call (c := 0) (by decide)
    (.addOccurrence (.named "buffer") (.operand (.named "buffer")))
    (.addOccurrence (.object .buffer 1) 1) (knows_buffer rfl) rfl
  exact looped.call (c := 0) (by decide) (.removeRoot (.leaf .null)) (.removeRoot (.leaf .null))
    (fun x same => absurd same (by simp [Method.added?])) rfl

theorem spared_misused : Spared misusedLog := by
  intro done before c
  by_cases same : c = 0
  · subst same
    simp only [misusedLog, List.prefix_cons_iff, List.prefix_nil] at before
    rcases before with rfl | ⟨_, rfl, rfl | ⟨_, rfl, rfl | ⟨_, rfl, rfl | ⟨_, rfl, rfl⟩⟩⟩⟩ <;>
      decide
  · -- nothing has been asked of another counter
    have one : ∀ call ∈ misusedLog, call.counter = 0 := by decide
    have none : callsOf c done = [] :=
      List.filter_eq_nil_iff.2 fun call among own => same
        ((of_decide_eq_true own).symm.trans (one call (before.subset among)))
    rw [leavesRemoved, none]
    exact Nat.zero_le _

end Session

end LiveItems
