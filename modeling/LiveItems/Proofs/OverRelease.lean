import LiveItems.Proofs.Misuse
set_option autoImplicit false

namespace LiveItems

open LiveItems.Action (Ends)

namespace Memory

def Call.rootsAdded (id : ItemId) (call : Call) : Nat :=
  match call.method, call.result with
  | .addRoots (.object _ a) n, .ok () => if a = id then n else 0
  | _, _ => 0

def Call.rootsRemoved (id : ItemId) (call : Call) : Nat :=
  match call.method, call.result with
  | .removeRoot (.object _ a), .ok () => if a = id then 1 else 0
  | _, _ => 0

def rootsAdded (c : CounterId) (id : ItemId) (log : List Call) : Nat :=
  ((callsOf c log).map (Call.rootsAdded id)).sum

def rootsRemoved (c : CounterId) (id : ItemId) (log : List Call) : Nat :=
  ((callsOf c log).map (Call.rootsRemoved id)).sum

/-- After the log, so many roots of the object may be left. -/
def MayHave (c : CounterId) (log : List Call) (id : ItemId) (k : Nat) : Prop :=
  k + rootsRemoved c id log ≤ rootsAdded c id log

structure Covers (c : CounterId) (log : List Call) (m : Memory) : Prop where
  released : ∀ id, MayHave c log id 0
  rooted : (m.counter c).Obeys (MayHave c log)

variable {c d : CounterId} {log calls : List Call} {m t : Memory} {Q Q' : ItemId → Nat → Prop}

theorem mayHave_concat {call : Call} {id : ItemId} {k : Nat} :
    MayHave d (log ++ [call]) id k ↔
      k + (rootsRemoved d id log + if call.counter = d then call.rootsRemoved id else 0) ≤
        rootsAdded d id log + if call.counter = d then call.rootsAdded id else 0 := by
  rw [MayHave, rootsRemoved, rootsAdded, sum_callsOf_concat, sum_callsOf_concat]
  rfl

theorem Call.roots_error (c : CounterId) (method : Method) (e : Error) (id : ItemId) :
    Call.rootsAdded id ⟨c, method, .error e⟩ = 0 ∧
      Call.rootsRemoved id ⟨c, method, .error e⟩ = 0 := by
  constructor
  · rw [Call.rootsAdded]
    split
    · rename_i same
      exact absurd same (by simp)
    · rfl
  · rw [Call.rootsRemoved]
    split
    · rename_i same
      exact absurd same (by simp)
    · rfl

theorem mayHave_of_idle {call : Call}
    (idle : call.counter = d → ∀ id, call.rootsAdded id = 0 ∧ call.rootsRemoved id = 0) :
    MayHave d (log ++ [call]) = MayHave d log := by
  funext id k
  refine propext (mayHave_concat.trans ?_)
  by_cases same : call.counter = d
  · rw [if_pos same, if_pos same, (idle same id).1, (idle same id).2]
    rfl
  · rw [if_neg same, if_neg same]
    rfl

theorem onCounter_obeys {x : Action Counter Unit} (bound : c < m.counters.length)
    (ends : Ends (fun _ e => e.Obeys Q) (fun _ e => e.Obeys Q') x (m.counter c)) :
    Ends (fun _ t => (t.counter c).Obeys Q) (fun _ t => (t.counter c).Obeys Q')
      (onCounter c x) m := by
  have replaced : ∀ (e : Counter) (Q : ItemId → Nat → Prop), e.Obeys Q →
      ((m.setCounter c e).counter c).Obeys Q := by
    intro e Q obeys
    rwa [counter_setCounter bound, if_pos rfl]
  exact ends.onPart (fun m : Memory => m.counter c) (fun _ e => replaced e Q)
    fun _ e => replaced e Q'

theorem checked_obeys {x : Item} {f : Heap → Counter → Counter} (bound : c < m.counters.length)
    (before : (m.counter c).Obeys Q) (after : (f m.heap (m.counter c)).Obeys Q') :
    Ends (fun _ t => (t.counter c).Obeys Q) (fun _ t => (t.counter c).Obeys Q')
      (mustBelong c x >>= fun _ => updateCounter c f) m := by
  rcases mustBelong_cases m c x with ⟨why, refused⟩ | owned
  · refine .of_error (e := .invalidOperation why) (t := m) ?_ before
    rw [Action.apply_bind, refused]
  · refine .after (mustBelong_ok owned) ?_
    change ((m.setCounter c (f m.heap (m.counter c))).counter c).Obeys Q'
    rwa [counter_setCounter bound, if_pos rfl]

theorem Method.ends (method : Method) (bound : c < m.counters.length) (covers : m.Covers c log) :
    Ends (fun _ t => (t.counter c).Obeys (MayHave c log))
      (fun _ t => (t.counter c).Obeys (MayHave c (log ++ [⟨c, method, .ok ()⟩])))
      (method.call c) m := by
  obtain ⟨released, rooted⟩ := covers
  have encloses : m.heap.Encloses {a | MayHave c log a 0} := fun _ _ _ _ id _ => released id
  -- only two methods are about roots
  have idle : (∀ id, Call.rootsAdded id ⟨c, method, .ok ()⟩ = 0 ∧
      Call.rootsRemoved id ⟨c, method, .ok ()⟩ = 0) →
      MayHave c (log ++ [⟨c, method, .ok ()⟩]) = MayHave c log := fun none =>
    mayHave_of_idle fun _ => none
  cases method with
  | addRoots x n =>
    have more : ∀ a k, MayHave c (log ++ [⟨c, .addRoots x n, .ok ()⟩]) a k ↔
        k + rootsRemoved c a log ≤
          rootsAdded c a log + Call.rootsAdded a ⟨c, .addRoots x n, .ok ()⟩ := by
      intro a k
      rw [mayHave_concat, if_pos rfl, if_pos rfl]
      rfl
    have weaker : ∀ a k, MayHave c log a k →
        MayHave c (log ++ [⟨c, .addRoots x n, .ok ()⟩]) a k := by
      intro a k allowed
      rw [more]
      exact Nat.le_add_right_of_le allowed
    simp only [call, Memory.addRoots]
    split
    · exact rooted.mono weaker
    · refine checked_obeys bound rooted
        (rooted.addRoots encloses (fun id _ => released id) weaker ?_)
      intro a k j same sum allowed
      cases x with
      | leaf l => exact absurd same (by simp [Item.id?])
      | object kind id =>
        have all : Call.rootsAdded a ⟨c, .addRoots (.object kind id) n, .ok ()⟩ = n :=
          if_pos (Option.some.inj same)
        rw [MayHave] at allowed
        rw [more, all]
        omega
  | removeRoot x =>
    cases x with
    | leaf l =>
      rw [idle fun _ => ⟨rfl, rfl⟩]
      exact onCounter_obeys bound (Counter.removeRoot_ends rooted (.leaf l) (fun _ _ => id)
        (fun _ _ _ => id) fun _ _ none => absurd none (by simp [Item.id?]))
    | object kind id =>
      have fewer : ∀ a k, MayHave c (log ++ [⟨c, .removeRoot (.object kind id), .ok ()⟩]) a k ↔
          k + (rootsRemoved c a log + if id = a then 1 else 0) ≤ rootsAdded c a log := by
        intro a k
        rw [mayHave_concat, if_pos rfl, if_pos rfl]
        rfl
      refine onCounter_obeys bound (Counter.removeRoot_ends rooted (.object kind id) ?_ ?_ ?_)
      · intro a k allowed
        have := (fewer a k).1 allowed
        rw [MayHave]
        omega
      · intro a k other allowed
        rw [fewer, if_neg fun same => other (congrArg some same)]
        exact allowed
      · intro a k same allowed
        rw [fewer, if_pos (Option.some.inj same)]
        rw [MayHave] at allowed
        omega
  | addOccurrence x parent =>
    rw [idle fun _ => ⟨rfl, rfl⟩]
    exact checked_obeys bound rooted
      (rooted.addOccurrence encloses (fun id _ => released id) parent)
  | removeOccurrence x parent =>
    rw [idle fun _ => ⟨rfl, rfl⟩]
    exact onCounter_obeys bound (Counter.removeOccurrence_keeps rooted x parent)
  | suspect x =>
    rw [idle fun _ => ⟨rfl, rfl⟩]
    exact checked_obeys bound rooted (rooted.suspect encloses fun id _ => released id)
  | collect =>
    rw [idle fun _ => ⟨rfl, rfl⟩]
    have start : Pass.Obeys (MayHave c log) { counter := m.counter c } :=
      ⟨rooted, fun a ha => absurd ha List.not_mem_nil⟩
    have replaced : ∀ (e : Counter) (h : Heap), e.Obeys (MayHave c log) →
        Counter.Obeys (MayHave c log) (counter { m.setCounter c e with heap := h } c) := by
      intro e h obeys
      change ((m.setCounter c e).counter c).Obeys (MayHave c log)
      rwa [counter_setCounter bound, if_pos rfl]
    rw [Ends, call, Action.apply_map, Memory.collect, Action.apply_of]
    rcases (Pass.sweep_keeps start).cases with ⟨e, p, run, kept⟩ | ⟨u, p, run, kept⟩
    · rw [run]
      exact replaced p.counter _ kept.counter
    · rw [run]
      exact replaced p.counter _ kept.counter
  | resetPeak =>
    rw [idle fun _ => ⟨rfl, rfl⟩]
    change ((m.setCounter c (m.counter c).resetPeak).counter c).Obeys (MayHave c log)
    rw [counter_setCounter bound, if_pos rfl]
    exact rooted

theorem Covers.unrooted (covers : m.Covers c log) {id : ItemId}
    (settled : rootsAdded c id log ≤ rootsRemoved c id log) : (m.counter c).rootCount id = 0 := by
  rw [Counter.rootCount]
  cases he : (m.counter c).get? id with
  | none => rfl
  | some e =>
    have allowed := covers.rooted id e he
    rw [MayHave] at allowed
    rw [Option.elim_some]
    omega

theorem Covers.refused (covers : m.Covers c log) {id : ItemId}
    (settled : rootsAdded c id log ≤ rootsRemoved c id log) (kind : ObjectKind) :
    ∃ why, (removeRoot c (.object kind id)).apply m = (.error (.invariantViolation why), m) := by
  obtain ⟨why, run⟩ := Counter.removeRoot_refused (covers.unrooted settled) kind
  refine ⟨why, ?_⟩
  rw [removeRoot, onCounter, Action.apply_onPart, run, setCounter_self]

theorem removeRoot_leaf (c : CounterId) (l : Leaf) (m : Memory) :
    (removeRoot c (.leaf l)).apply m =
      if (m.counter c).count = 0 then (.error (.invariantViolation .negativeCount), m)
      else (.ok (), m.setCounter c { m.counter c with count := (m.counter c).count - 1 }) := by
  have run : (Counter.removeRoot (.leaf l)).apply (m.counter c) = _ :=
    Counter.apply_decrease (m.counter c) 1
  rw [removeRoot, onCounter, Action.apply_onPart, run]
  by_cases none : (m.counter c).count = 0
  · rw [if_pos none, if_pos (Nat.lt_one_iff.2 none), setCounter_self]
  · rw [if_neg none, if_neg fun less => none (Nat.lt_one_iff.1 less)]

theorem Covers.call (covers : m.Covers c log) (method : Method) (bound : c < m.counters.length) :
    ((method.call c).attempt m).Covers c
      (log ++ [⟨c, method, ((method.call c).apply m).1⟩]) := by
  rw [Action.attempt_eq]
  rcases (method.ends bound covers).cases with ⟨e, t, run, kept⟩ | ⟨u, t, run, kept⟩
  · rw [run]
    have same : MayHave c (log ++ [⟨c, method, .error e⟩]) = MayHave c log :=
      mayHave_of_idle fun _ => Call.roots_error c method e
    refine ⟨?_, ?_⟩
    · rw [same]
      exact covers.released
    · rw [same]
      exact kept
  · rw [run]
    refine ⟨fun id => ?_, kept⟩
    have before := covers.released id
    by_cases one : Call.rootsRemoved id ⟨c, method, .ok ()⟩ = 0
    · rw [mayHave_concat, if_pos rfl, one]
      exact Nat.le_add_right_of_le before
    · -- only what was held can have been taken away
      cases method with
      | removeRoot x =>
        cases x with
        | leaf l => exact absurd rfl one
        | object kind a =>
          have own : a = id := by
            by_contra other
            exact one (if_neg other)
          subst own
          have held : rootsRemoved c a log < rootsAdded c a log := by
            by_contra settled
            obtain ⟨why, refused⟩ := covers.refused (Nat.le_of_not_lt settled) kind
            exact absurd (Prod.mk.inj (run.symm.trans refused)).1 (by simp)
          have taken : Call.rootsRemoved a ⟨c, .removeRoot (.object kind a), .ok u⟩ = 1 :=
            if_pos rfl
          rw [mayHave_concat, if_pos rfl, if_pos rfl, taken]
          omega
      | addRoots | addOccurrence | removeOccurrence | suspect | collect | resetPeak =>
        exact absurd rfl one

/-- Calls of other counters, the way a counter adds, changes of the heap and new counters give and
take no roots. -/
theorem Covers.path {A : Set CounterId} (path : Path A m calls t) (apart : m.Apart)
    (covers : ∀ d, m.Covers d log) : ∀ d, t.Covers d (log ++ calls) := by
  induction path generalizing log with
  | done m =>
    rw [List.append_nil]
    exact covers
  | @call m t calls c method among bound known _ ih =>
    have affects : m.Affects c ((method.call c).attempt m) := method.affects apart known
    rw [← List.singleton_append, ← List.append_assoc]
    refine ih (affects.apart apart bound) fun d => ?_
    by_cases own : c = d
    · subst own
      exact (covers c).call method bound
    · have frames := affects.frames bound (Set.mem_singleton c)
      have same := frames.counters d fun h => own (Set.mem_singleton_iff.1 h).symm
      have idle : MayHave d (log ++ [⟨c, method, ((method.call c).apply m).1⟩]) = MayHave d log :=
        mayHave_of_idle fun h => absurd h own
      constructor
      · rw [idle]
        exact (covers d).released
      · rw [idle, same]
        exact (covers d).rooted
  | @words m t calls c among bound _ ih =>
    refine ih ((apart.inWords c).apart apart bound) fun d => ⟨(covers d).released, ?_⟩
    rw [counter_setCounter bound]
    split
    · rename_i own
      exact own ▸ (covers d).rooted
    · exact (covers d).rooted
  | write extended wellFormed others _ ih =>
    exact ih (apart.write extended wellFormed) fun d => ⟨(covers d).released, (covers d).rooted⟩
  | newCounter _ ih =>
    refine ih apart.newCounter fun d => ⟨(covers d).released, ?_⟩
    rw [counter_append]
    exact (covers d).rooted

end Memory

namespace Session

open Memory

variable {s : Session} {log : List Call}

theorem Logged.covers (logged : Logged s log) (c : CounterId) : s.memory.Covers c log := by
  induction logged generalizing c with
  | start limits supply =>
    refine ⟨fun id => Nat.le_refl 0, ?_⟩
    rw [start_counter]
    exact Counter.obeys_fresh _
  | act a logged _ path ih => exact Covers.path path logged.arises.proper.apart ih c

/-- Whatever has been asked of a counter, a root of an object is refused to be taken away, and
nothing changes, when no more roots of it were added than removed. For a leaf no such thing is
checked: the call succeeds unless the count is zero, and lowers the count. Only while no counter has
lost more roots of leaves than it was given, and no sum of the counter has left the word, the count
is that of the tracked objects, the leaves in them, and the roots of leaves that are left. -/
theorem Logged.overRelease (logged : Logged s log) (c : CounterId) :
    (∀ kind id, rootsAdded c id log ≤ rootsRemoved c id log →
      ∃ why, (removeRoot c (.object kind id)).apply s.memory =
        (.error (.invariantViolation why), s.memory)) ∧
      (∀ l, (removeRoot c (.leaf l)).apply s.memory =
        if (s.memory.counter c).count = 0 then
          (.error (.invariantViolation .negativeCount), s.memory)
        else
          (.ok (), s.memory.setCounter c
            { s.memory.counter c with count := (s.memory.counter c).count - 1 })) ∧
      (Spared log → (s.memory.counter c).Unwrapped → (s.memory.counter c).count =
        (s.memory.counter c).tracked.size +
          ∑ p ∈ (s.memory.counter c).tracked.keys.toFinset, (s.memory.counter c).leafCount p +
            outstanding c log) := by
  refine ⟨fun kind id settled => (logged.covers c).refused settled kind,
    fun l => removeRoot_leaf c l s.memory, fun spared exact => ?_⟩
  exact (logged.consistent spared exact).intact.count

/-- The buffer has never been a root. -/
theorem overRelease_misused :
    ∃ s log, Logged s log ∧ Spared log ∧ (s.memory.counter 0).Unwrapped ∧
      (∃ why, (removeRoot 0 (.object .buffer 1)).apply s.memory =
        (.error (.invariantViolation why), s.memory)) ∧
      (s.memory.counter 0).count = (s.memory.counter 0).tracked.size +
        ∑ p ∈ (s.memory.counter 0).tracked.keys.toFinset, (s.memory.counter 0).leafCount p + 1 := by
  have exact : ((misused.foldl act (start {} default)).memory.counter 0).Unwrapped := by
    decide +kernel
  obtain ⟨objects, -, count⟩ := logged_misused.overRelease 0
  exact ⟨_, _, logged_misused, spared_misused, exact, objects .buffer 1 (by decide),
    count spared_misused exact⟩

/-- A buffer has a root, and then a root of a leaf is taken away although none was ever given. So
the release need not match anything, and a tracked object need not be counted. -/
theorem not_refused_of_unmatched :
    (¬∀ (s : Session) (log : List Call), Logged s log → ∀ (c : CounterId) (l : Leaf) (t : Memory),
      (removeRoot c (.leaf l)).apply s.memory = (.ok (), t) →
        leavesRemoved c log < leavesAdded c log) ∧
      ¬∀ (s : Session) (log : List Call), Logged s log → ∀ c : CounterId,
        (s.memory.counter c).tracked.size +
          ∑ p ∈ (s.memory.counter c).tracked.keys.toFinset, (s.memory.counter c).leafCount p ≤
            (s.memory.counter c).count := by
  have rooted := (logged_buffer "b").give (c := 0) (by decide) (.named "b") 1
    (knows_buffer rfl _ rfl) rfl
  have taken := rooted.call (c := 0) (by decide) (.removeRoot (.leaf .null))
    (.removeRoot (.leaf .null)) (fun x same => absurd same (by simp [Method.added?])) rfl
  constructor
  · intro matched
    exact absurd (matched _ _ rooted 0 .null _ rfl) (by decide)
  · intro counted
    exact absurd (Nat.le_of_add_right_le (counted _ _ taken 0)) (by decide +kernel)

end Session

end LiveItems
