import LiveItems.Proofs.LeastCascade
set_option autoImplicit false

namespace LiveItems

namespace Counter

variable {c d : Counter} {ids : List ItemId} {a : ItemId} {seeds : Set ItemId}
  {gone : Finset ItemId}

theorem Coherent.unreachable_iff (hc : Coherent (fun _ => 0) c) :
    c.Unreachable ids ↔ (∀ a ∈ ids, c.isTracked a = true) ∧ (∀ a ∈ ids, c.rootCount a = 0) ∧
      ∀ p e, c.get? p = some e → p ∉ ids → ∀ a ∈ ids, a ∉ e.edges.keys := by
  constructor
  · intro garbage
    refine ⟨fun a ha => mem_ids.1 (garbage.tracked a ha), garbage.rootless,
      fun p e found outside a ha key => outside ?_⟩
    exact garbage.closed a ha p (hc.mem_keys_iff.1 ((mem_edges_of_get? found).2 key))
  · rintro ⟨tracked, rootless, outside⟩
    refine ⟨fun a ha => mem_ids.2 (tracked a ha), rootless, fun a ha p edge => ?_⟩
    by_contra out
    have found := get?_of_mem (mem_ids_of_flow edge)
    exact outside p _ found out a ha ((mem_edges_of_get? found).1 (mem_keys_of_flow edge))

/-- Held by one of `ids`, directly or by way of objects in `gone`. -/
def HeldThrough (c : Counter) (ids gone : List ItemId) (a : ItemId) : Prop :=
  ∃ r ∈ ids, ∃ p, Relation.ReflTransGen
    (fun q b => b ∈ gone ∧ 0 < (c.edges q).multiplicity b) r p ∧ 0 < (c.edges p).multiplicity a

/-- The objects in `ids` have been freed together, and what has gone with them is the least set that
absorbs what each of them has held. Nothing has changed that was not held by what has gone. -/
structure Cleared (ids gone : List ItemId) (c d : Counter) : Prop where
  members : ∀ a ∈ ids, a ∈ gone
  distinct : gone.Nodup
  tracked : ∀ a ∈ gone, c.isTracked a = true
  least : IsLeast {S | ∀ id ∈ ids, c.Absorbs id S} {a | a ∈ gone}
  freed : Freed gone c d
  confined : ∀ a, a ∉ ids → d.get? a ≠ c.get? a → c.HeldThrough ids gone a

/-- Edges lead from the first objects to all that has gone, by way of what has gone. -/
theorem Sheds.traced (sheds : Sheds seeds ∅ gone c d) (ha : a ∈ gone) :
    ∃ r ∈ seeds, Relation.ReflTransGen (fun q b => b ∈ gone ∧ 0 < c.flow q b) r a := by
  refine sheds.least {b | b ∈ gone → ∃ r ∈ seeds,
    Relation.ReflTransGen (fun q b => b ∈ gone ∧ 0 < c.flow q b) r b}
    (fun r hr _ => ⟨r, hr, .refl⟩) (fun b _ _ lost preds hb => ?_) a ha ha
  obtain ⟨p, edge⟩ := lost.resolve_left (Set.notMem_empty b)
  obtain ⟨r, hr, path⟩ := preds p edge (sheds.closed b hb p edge)
  exact ⟨r, hr, path.tail ⟨hb, edge⟩⟩

/-- An object that stays and has lost no reference has the entry that it has had. -/
theorem Freed.unchanged {order : List ItemId} (freed : Freed order c d) (stays : a ∉ order)
    (unheld : ∀ p ∈ order, (c.edges p).multiplicity a = 0) : d.get? a = c.get? a := by
  cases found : c.get? a with
  | none => exact freed.untracked a found
  | some e =>
    obtain ⟨left, kept, lost⟩ := freed.kept a e stays found
    have none : (order.map fun p => (c.edges p).multiplicity a).sum = 0 :=
      List.sum_eq_zero fun n hn => by
        obtain ⟨p, hp, rfl⟩ := List.mem_map.1 hn
        exact unheld p hp
    have same : left = e.references := by omega
    rw [kept, same]

theorem Sheds.cleared {order : List ItemId} (before : Coherent (fun _ => 0) c)
    (after : Coherent (fun _ => 0) d) (sheds : Sheds {a | a ∈ ids} ∅ order.toFinset c d)
    (distinct : order.Nodup) (members : ∀ a ∈ ids, a ∈ order) : Cleared ids order c d := by
  have among : {a | a ∈ order} = {a | a ∈ order.toFinset} := by
    ext a
    exact List.mem_toFinset.symm
  have freed := sheds.freed_of_subset before after distinct fun a none =>
    absurd none (Set.notMem_empty a)
  -- a way from a member to what has gone
  have traced : ∀ p ∈ order, ∃ r ∈ ids, Relation.ReflTransGen
      (fun q b => b ∈ order ∧ 0 < (c.edges q).multiplicity b) r p := by
    intro p hp
    obtain ⟨r, hr, path⟩ := sheds.traced (List.mem_toFinset.2 hp)
    exact ⟨r, hr, Relation.ReflTransGen.mono
      (fun q b edge => edge.imp_left List.mem_toFinset.1) _ _ path⟩
  refine ⟨members, distinct, fun a ha => Counter.mem_ids.1 (sheds.tracked (List.mem_toFinset.2 ha)),
    ⟨fun id hid => ?_, fun S absorbs a ha => ?_⟩, freed, fun a out changed => ?_⟩
  · rw [among]
    exact sheds.absorbs before after (List.mem_toFinset.2 (members id hid))
  · obtain ⟨r, hr, -⟩ := traced a ha
    refine sheds.least S (fun b hb => (absorbs b hb).first)
      (fun b tracked unrooted lost preds => ?_) a (List.mem_toFinset.2 ha)
    exact (absorbs r hr).next b (Counter.mem_ids.1 tracked) unrooted
      (lost.resolve_left (Set.notMem_empty b)) preds
  · by_cases ha : a ∈ order
    · obtain ⟨r, hr, path⟩ := traced a ha
      rcases Relation.ReflTransGen.cases_tail path with rfl | ⟨p, before, -, edge⟩
      · exact absurd hr out
      · exact ⟨r, hr, p, before, edge⟩
    · by_contra apart
      refine changed (freed.unchanged ha fun p hp => Nat.eq_zero_of_not_pos fun edge => apart ?_)
      obtain ⟨r, hr, path⟩ := traced p hp
      exact ⟨r, hr, p, path, edge⟩

/-- The test by counting says of a list of distinct objects whether all of them are tracked, without
roots, and held by none but each other. If so, freeing them succeeds and leaves sums that fit
together. -/
theorem isUnreachable_exact (tallied : c.Tallied) (distinct : ids.Nodup) :
    (c.isUnreachable ids = true ↔ (∀ a ∈ ids, c.isTracked a = true) ∧
      (∀ a ∈ ids, c.rootCount a = 0) ∧
      ∀ p e, c.get? p = some e → p ∉ ids → ∀ a ∈ ids, a ∉ e.edges.keys) ∧
    (c.isUnreachable ids = true → ∀ collected, ∃ gone d,
      (Pass.freeComponent ids).apply { counter := c, collected } =
        (.ok (), { counter := d, collected := ids ++ collected }) ∧
      d.Tallied ∧ Cleared ids gone c d) := by
  have coherent := tallied.coherent
  refine ⟨(isUnreachable_iff coherent distinct).trans coherent.unreachable_iff,
    fun unreachable collected => ?_⟩
  obtain ⟨gone, d, run, after, sheds, members⟩ := Pass.freeComponent_sheds
    (p := { counter := c, collected }) coherent distinct
    ((isUnreachable_iff coherent distinct).1 unreachable)
  rw [← gone.toList_toFinset] at sheds
  exact ⟨gone.toList, d, run, after.tallied, sheds.cleared coherent after gone.nodup_toList
    fun a ha => Finset.mem_toList.2 (members a ha)⟩

end Counter

namespace Session

/-- Two arrays that hold each other, one of them twice, and that a stack has let go. One holds a
leaf, an array that nothing else holds, one that a stack holds and one that holds itself. -/
def ringed : List Step :=
  [.perform (.create "tail" (.list .array [.leaf .null] (some 0))) none true,
    .perform (.create "kept" (.list .array [] (some 0))) none true,
    .perform (.onEngine (.push (.named "kept"))) none true,
    .perform (.create "loop" (.list .array [] (some 0))) none true,
    .perform (.onList "loop" (.push (.named "loop"))) none true,
    .perform (.create "left" (.list .array
      [.named "tail", .named "kept", .named "loop", .leaf .null] (some 0))) none true,
    .perform (.create "right" (.list .array [.named "left", .named "left"] (some 0))) none true,
    .perform (.onList "left" (.push (.named "right"))) none true,
    .perform (.onEngine (.push (.named "left"))) none true,
    .perform (.onEngine .pop) none true]

theorem ringed_grown : Grown True 1 (run ringed (start {} default)).2 :=
  started_grown ⟨first_lt_one, first_lt_one, trivial, first_lt_one, trivial, first_lt_one,
    first_lt_one, trivial, trivial, trivial, trivial⟩

/-- The two arrays are garbage together, but neither is alone. The array that only they hold goes
with them, and the one that holds itself waits for a pass. -/
theorem isUnreachable_exact_ringed :
    let c := (run ringed (start {} default)).2.memory.counter 0
    ([4, 5] : List ItemId).Nodup ∧ c.isUnreachable [4, 5] = true ∧ c.isUnreachable [4] = false ∧
      ∃ gone d, (Pass.freeComponent [4, 5]).apply { counter := c } =
          (.ok (), { counter := d, collected := [4, 5] }) ∧
        d.Tallied ∧ Counter.Cleared [4, 5] gone c d ∧ c.tracked.keys = [1, 2, 3, 4, 5] ∧
        d.tracked.keys = [2, 3] ∧ d.candidates.keys = [3] ∧ c.count = 7 ∧ d.count = 2 := by
  have accounts := ringed_grown.reachable.sound.memory.accounts 0 ringed_grown.counters
  have distinct : ([4, 5] : List ItemId).Nodup := by decide
  have unreachable :
      ((run ringed (start {} default)).2.memory.counter 0).isUnreachable [4, 5] = true := by
    decide +kernel
  obtain ⟨gone, d, freed, tallied, cleared⟩ :=
    (Counter.isUnreachable_exact accounts.coherent.tallied distinct).2 unreachable []
  have left : ((Pass.freeComponent [4, 5]).apply _).2.counter = d :=
    congrArg (fun outcome => outcome.2.counter) freed
  refine ⟨distinct, unreachable, by decide +kernel, gone, d, freed, tallied, cleared,
    by decide +kernel, ?_, ?_, by decide +kernel, ?_⟩ <;> subst left <;> decide +kernel

end Session

end LiveItems
