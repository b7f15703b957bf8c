import LiveItems.Proofs.Misuse
set_option autoImplicit false

namespace LiveItems

open Memory

namespace Counter

/-- Each tracked object that no root holds can be reached from a candidate. -/
def Complete (c : Counter) : Prop :=
  ∀ a, c.isTracked a = true → ¬c.Live a → ∃ r ∈ c.candidates.keys, c.Leads r a

variable {n : Nat} {c d : Counter}

theorem complete_iff : c.Complete ↔ c.Covered ∅ := by
  constructor
  · intro complete a tracked
    by_cases live : c.Live a
    · obtain ⟨r, rooted, path⟩ := live
      exact ⟨r, .inl rooted, path⟩
    · obtain ⟨r, candidate, path⟩ := complete a (mem_ids.1 tracked) live
      exact ⟨r, .inr (.inl candidate), path⟩
  · intro covered a tracked lost
    obtain ⟨r, rooted | candidate | none, path⟩ := covered a (mem_ids.2 tracked)
    · exact absurd ⟨r, rooted, path⟩ lost
    · exact ⟨r, candidate, path⟩
    · exact absurd none (Set.notMem_empty r)

theorem Consistent.complete (consistent : c.Consistent n) : c.Complete :=
  complete_iff.2 consistent.covered

theorem Complete.recount (complete : c.Complete) (k : Nat) : Complete { c with count := k } :=
  complete

theorem Complete.removeRoot_leaf (complete : c.Complete) (l : Leaf) :
    Complete ((removeRoot (.leaf l)).apply c).2 := by
  have unfolded : (removeRoot (.leaf l)).apply c = (decrease 1).apply c := rfl
  rw [unfolded, apply_decrease]
  split
  · exact complete
  · exact complete.recount _

end Counter

namespace Memory

variable {m : Memory} {c : CounterId}

/-- Whatever is asked of a counter that is consistent, no garbage gets out of the reach of the
candidates, unless a sum leaves the word. -/
theorem Method.complete {n : Nat} (method : Method) (bound : c < m.counters.length)
    (closed : m.heap.Closed) (known : ∀ x, method.added? = some x → m.heap.Knows x)
    (consistent : (m.counter c).Consistent n)
    (exact : (((method.call c).attempt m).counter c).Unwrapped) :
    (((method.call c).attempt m).counter c).Complete := by
  by_cases enough : Call.leavesRemoved ⟨c, method, ((method.call c).apply m).1⟩ ≤ n
  · exact (method.consistent bound closed known consistent rfl enough exact).complete
  · -- only a root of a leaf can be taken away without having been there
    cases method with
    | removeRoot x =>
      cases x with
      | object kind id => exact absurd (Nat.zero_le n) enough
      | leaf l =>
        have same : ((Method.removeRoot (.leaf l)).call c).attempt m =
            m.setCounter c ((Counter.removeRoot (.leaf l)).apply (m.counter c)).2 := rfl
        rw [same, counter_setCounter bound, if_pos rfl]
        exact consistent.complete.removeRoot_leaf l
    | addRoots | addOccurrence | removeOccurrence | suspect | collect | resetPeak =>
      exact absurd (Nat.zero_le n) enough

end Memory

namespace Session

variable {s : Session} {m : Memory} {log calls : List Call}

end Session

end LiveItems
