import LiveItems.Proofs.Graph.Components
set_option autoImplicit false

namespace LiveItems.Graph

variable {α : Type} [Ord α] [Std.TransOrd α] [DecidableEq α] {successors : α → List α}

namespace Walk

inductive Ends (successors : α → List α) : Walk α → Walk α → Prop
  | stop {w : Walk α} : w.step successors = none → Ends successors w w
  | step {w w' last : Walk α} :
    w.step successors = some w' → Ends successors w' last → Ends successors w last

inductive Explores (successors : α → List α) : Walk α → List α → Walk α → Prop
  | done {w : Walk α} : Explores successors w [] w
  | visited {w last : Walk α} {r : α} {roots : List α} :
    r ∈ w.marks → Explores successors w roots last → Explores successors w (r :: roots) last
  | search {w w' last : Walk α} {r : α} {roots : List α} :
    r ∉ w.marks → Ends successors (w.discover r (successors r)) w' →
      Explores successors w' roots last → Explores successors w (r :: roots) last

theorem Ends.of_run {fuel : Nat} :
    ∀ {w : Walk α}, (w.run successors fuel).frames = [] →
      Ends successors w (w.run successors fuel) := by
  induction fuel with
  | zero =>
    intro w done
    change w.frames = [] at done
    refine .stop ?_
    rw [Walk.step, done]
  | succ fuel ih =>
    intro w done
    cases next : w.step successors with
    | none =>
      rw [run, next]
      exact .stop next
    | some w' =>
      rw [run, next] at done ⊢
      exact .step next (ih done)

theorem Ends.unique {w last last' : Walk α} (ends : Ends successors w last)
    (ends' : Ends successors w last') : last = last' := by
  induction ends with
  | stop stopped =>
    cases ends' with
    | stop => rfl
    | step next => rw [stopped] at next; cases next
  | step next _ ih =>
    cases ends' with
    | stop stopped => rw [stopped] at next; cases next
    | step next' rest => exact ih (Option.some.inj (next.symm.trans next') ▸ rest)

theorem Explores.unique {w last last' : Walk α} {rs : List α}
    (explores : Explores successors w rs last) (explores' : Explores successors w rs last') :
    last = last' := by
  induction explores with
  | done =>
    cases explores'
    rfl
  | visited old _ ih =>
    cases explores' with
    | visited _ rest => exact ih rest
    | search new => exact absurd old new
  | search new ends _ ih =>
    cases explores' with
    | visited old => exact absurd old new
    | search _ ends' rest => exact ih (ends.unique ends' ▸ rest)

variable [Std.LawfulEqOrd α] {before roots : Set α}

/-- With enough fuel, exploring the roots never stops short. -/
theorem Explores.of_foldl {U : Finset α} (hr : ∀ r ∈ roots, r ∈ U)
    (closed : ∀ x ∈ U, ∀ y ∈ successors x, y ∈ U) {fuel : Nat}
    (enough : ∑ x ∈ U, (1 + (successors x).length) ≤ fuel) (rs : List α) :
    ∀ w : Walk α, (∀ r ∈ rs, r ∈ roots) → Shape successors before roots w → w.frames = [] →
      w.stack = [] → Explores successors w rs (rs.foldl (explore successors fuel) w) := by
  induction rs with
  | nil => exact fun _ _ _ _ _ => .done
  | cons r rs ih =>
    intro w sub h hf hs
    obtain ⟨h', hf', hs', -, -⟩ :=
      explore_shape hr closed enough (sub r List.mem_cons_self) h hf hs
    have rest := ih _ (fun r hr => sub r (List.mem_cons_of_mem _ hr)) h' hf' hs'
    rw [List.foldl_cons]
    by_cases old : r ∈ w.marks
    · rw [explore, if_pos (Std.ExtTreeMap.contains_iff_mem.2 old)] at rest ⊢
      exact .visited old rest
    · have new : ¬w.marks.contains r = true := fun h => old (Std.ExtTreeMap.contains_iff_mem.1 h)
      rw [explore, if_neg new] at rest hf' ⊢
      exact .search old (.of_run hf') rest

end Walk

omit [Ord α] [Std.TransOrd α] [DecidableEq α] in
theorem Layers.append {before before' : Set α} {cs ds : List (List α)}
    (first : Layers successors before cs) (second : Layers successors before' ds)
    (known : ∀ x ∈ before, x ∈ ds.flatten ∨ x ∈ before') :
    Layers successors before' (cs ++ ds) := by
  induction cs with
  | nil => exact second
  | cons c cs ih =>
    obtain ⟨some, connected, out, rest⟩ := first
    refine ⟨some, connected, fun u hu v hv => ?_, ih rest⟩
    change v ∈ c ∨ v ∈ (cs ++ ds).flatten ∨ v ∈ before'
    rw [List.flatten_append, List.mem_append]
    rcases out u hu v hv with inside | behind | earlier
    · exact .inl inside
    · exact .inr (.inl (.inl behind))
    · exact .inr ((known v earlier).imp_left .inr)

namespace Search

def Answers (successors : α → List α) (s : Search α) (roots : List α) (found : List (List α))
    (s' : Search α) : Prop :=
  ∃ last : Walk α, Walk.Explores successors { s with } roots last ∧
    found = last.found.reverse ∧ s' = last.toSearch

/-- Calls on a new search, one after the other, with the components of all of them. -/
inductive Calls (successors : α → List α) : List (List α) → List (List α) → Search α → Prop
  | start : Calls successors [] [] {}
  | call {given emitted found : List (List α)} {roots : List α} {s s' : Search α} :
    Calls successors given emitted s → Answers successors s roots found s' →
      Calls successors (given ++ [roots]) (emitted ++ found) s'

omit [DecidableEq α] in
structure Settled (successors : α → List α) (given : List α) (emitted : List (List α))
    (s : Search α) : Prop where
  layers : Layers successors ∅ emitted.reverse
  nodup : emitted.flatten.Nodup
  mem : ∀ x, x ∈ emitted.flatten ↔ ∃ r ∈ given, Reaches successors r x
  marks : ∀ x, x ∈ s.marks ↔ x ∈ emitted.flatten
  idle : s.Idle successors

section Settled

variable {given roots : List α} {emitted found : List (List α)} {s s' : Search α}

omit [DecidableEq α] in
theorem settled_empty (successors : α → List α) : Settled successors [] [] ({} : Search α) where
  layers := trivial
  nodup := List.nodup_nil
  mem x := by simp
  marks x := by simp
  idle := idle_empty successors

omit [DecidableEq α] in
theorem Settled.call (h : Settled successors given emitted s)
    (finds : Finds successors roots s found s') :
    Settled successors (given ++ roots) (emitted ++ found) s' := by
  have visited : ∀ x, x ∈ s.marks ↔ x ∈ emitted.reverse.flatten := fun x =>
    (h.marks x).trans (List.reverse_perm emitted).flatten.mem_iff.symm
  constructor
  · rw [List.reverse_append]
    exact finds.layers.append h.layers fun x hx => .inl ((visited x).1 hx)
  · rw [List.flatten_append, List.nodup_append]
    refine ⟨h.nodup, finds.nodup, ?_⟩
    rintro x old _ new rfl
    exact ((finds.mem x).1 new).1 ((h.marks x).2 old)
  · intro x
    rw [List.flatten_append, List.mem_append, h.mem, finds.mem, h.marks, h.mem]
    simp only [List.mem_append, or_and_right, exists_or]
    by_cases known : ∃ r ∈ given, Reaches successors r x
    · simp only [known, true_or]
    · simp only [known, false_or, not_false_eq_true, true_and]
  · intro x
    rw [finds.marks, h.marks, List.flatten_append, List.mem_append]
  · exact finds.idle

omit [DecidableEq α] in
theorem Settled.eq_component (h : Settled successors given emitted s) {k : List α}
    (among : k ∈ emitted) {u : α} (hu : u ∈ k) : {v | v ∈ k} = component successors u :=
  h.layers.eq_component ((List.reverse_perm emitted).flatten.nodup_iff.2 h.nodup)
    (List.mem_reverse.2 among) hu

omit [DecidableEq α] in
theorem Settled.inhabited (h : Settled successors given emitted s) {k : List α}
    (among : k ∈ emitted) : ∃ u, u ∈ k := by
  obtain ⟨done, rest, split⟩ := List.append_of_mem (List.mem_reverse.2 among)
  have layers := h.layers
  rw [split] at layers
  exact List.exists_mem_of_ne_nil k layers.drop.1

omit [DecidableEq α] in
/-- Edges out of a component lead to those emitted before it. -/
theorem Settled.earlier (h : Settled successors given emitted s) {first later : List (List α)}
    {k : List α} (split : emitted = first ++ k :: later) {u v : α} (hu : u ∈ k)
    (edge : v ∈ successors u) (other : v ∉ k) : v ∈ first.flatten := by
  have layers := h.layers
  rw [split, List.reverse_append, List.reverse_cons, List.append_assoc, List.singleton_append]
    at layers
  rcases layers.drop.2.2.1 u hu v edge with inside | before | none
  · exact absurd inside other
  · exact (List.reverse_perm first).flatten.mem_iff.1 before
  · exact absurd none id

omit [DecidableEq α] in
theorem Settled.visited_eq (h : Settled successors given emitted s) [Std.LawfulEqOrd α] :
    s.visited = emitted.flatten.length := by
  have same : s.marks.keys.Perm emitted.flatten := by
    rw [List.perm_ext_iff_of_nodup Std.ExtTreeMap.nodup_keys h.nodup]
    exact fun x => Std.ExtTreeMap.mem_keys.trans (h.marks x)
  rw [visited, ← Std.ExtTreeMap.length_keys, same.length_eq]

end Settled

variable [Std.LawfulEqOrd α] {given emitted found : List (List α)} {roots : List α}
  {s s' : Search α} {U : Finset α} {fuel : Nat}

theorem Idle.answers (h : s.Idle successors) (hr : ∀ r ∈ roots, r ∈ U)
    (closed : ∀ x ∈ U, ∀ y ∈ successors x, y ∈ U)
    (enough : ∑ x ∈ U, (1 + (successors x).length) ≤ fuel) :
    Answers successors s roots (s.components successors fuel roots).1
      (s.components successors fuel roots).2 :=
  ⟨_, .of_foldl hr closed enough roots _ (fun _ among => among) (h.shape _) rfl h.stack, rfl, rfl⟩

/-- With enough fuel, a call returns the only answer there is. -/
theorem Answers.components_eq (answers : Answers successors s roots found s')
    (h : s.Idle successors) (hr : ∀ r ∈ roots, r ∈ U)
    (closed : ∀ x ∈ U, ∀ y ∈ successors x, y ∈ U)
    (enough : ∑ x ∈ U, (1 + (successors x).length) ≤ fuel) :
    s.components successors fuel roots = (found, s') := by
  obtain ⟨last, explores, rfl, rfl⟩ := answers
  obtain ⟨last', explores', same, same'⟩ := h.answers hr closed enough
  obtain rfl := explores.unique explores'
  exact Prod.ext same same'

theorem Calls.settled (calls : Calls successors given emitted s)
    (closed : ∀ x ∈ U, ∀ y ∈ successors x, y ∈ U) (inside : ∀ r ∈ given.flatten, r ∈ U) :
    Settled successors given.flatten emitted s := by
  induction calls with
  | start => exact settled_empty successors
  | @call given emitted found roots s s' calls answers ih =>
    rw [List.flatten_concat] at inside ⊢
    rw [List.forall_mem_append] at inside
    have settled := ih inside.1
    have finds := components_spec settled.idle inside.2 closed Nat.le.refl
    rw [answers.components_eq settled.idle inside.2 closed Nat.le.refl] at finds
    exact settled.call finds

omit [Ord α] [Std.TransOrd α] [DecidableEq α] [Std.LawfulEqOrd α] in
theorem reaches_closed {given : List α}
    (finite : {v | ∃ r ∈ given, Reaches successors r v}.Finite) :
    ∀ x ∈ finite.toFinset, ∀ y ∈ successors x, y ∈ finite.toFinset := by
  intro x hx y edge
  rw [Set.Finite.mem_toFinset] at hx ⊢
  obtain ⟨r, hr, path⟩ := hx
  exact ⟨r, hr, path.tail edge⟩

/-- A search is asked again and again, where finitely many vertices can be reached. Each call comes
to an end; it returns the components that can be reached from its roots and from no earlier ones.
The calls together emit each vertex that can be reached once, in its component, and a component
after those its edges lead to. -/
theorem Calls.next (earlier : Calls successors given emitted s)
    (finite : {v | ∃ r ∈ given.flatten ++ roots, Reaches successors r v}.Finite) :
    ∃ found s', Answers successors s roots found s' ∧
      (∀ fuel, ∑ v ∈ finite.toFinset, (1 + (successors v).length) ≤ fuel →
        s.components successors fuel roots = (found, s')) ∧
      (emitted ++ found).flatten.Nodup ∧
      (∀ v, v ∈ (emitted ++ found).flatten ↔
        ∃ r ∈ given.flatten ++ roots, Reaches successors r v) ∧
      (∀ k ∈ emitted ++ found, ∃ u ∈ k, {v | v ∈ k} = component successors u) ∧
      (∀ K : Set α, (∃ k ∈ found, {v | v ∈ k} = K) ↔
        ∃ u, K = component successors u ∧ (∃ r ∈ roots, Reaches successors r u) ∧
          ¬∃ r ∈ given.flatten, Reaches successors r u) ∧
      (∀ first k later, emitted ++ found = first ++ k :: later →
        ∀ u ∈ k, ∀ v ∈ successors u, v ∉ k → v ∈ first.flatten) ∧
      s'.visited = (emitted ++ found).flatten.length := by
  have closed := reaches_closed finite
  have inside : ∀ r ∈ given.flatten ++ roots, r ∈ finite.toFinset := fun r hr =>
    finite.mem_toFinset.2 ⟨r, hr, .refl⟩
  rw [List.forall_mem_append] at inside
  have settled := earlier.settled closed inside.1
  have answers := settled.idle.answers inside.2 closed Nat.le.refl
  have finds := components_spec settled.idle inside.2 closed Nat.le.refl
  generalize s.components successors _ roots = result at answers finds
  obtain ⟨found, s'⟩ := result
  have after := settled.call finds
  refine ⟨found, s', answers, fun fuel enough =>
    answers.components_eq settled.idle inside.2 closed enough, after.nodup, after.mem,
    fun k hk => ?_, fun K => ⟨?_, ?_⟩,
    fun first k later split u hu v edge => after.earlier split hu edge, after.visited_eq⟩
  · obtain ⟨u, hu⟩ := after.inhabited hk
    exact ⟨u, hu, after.eq_component hk hu⟩
  · rintro ⟨k, hk, rfl⟩
    have among : k ∈ emitted ++ found := List.mem_append_right _ hk
    obtain ⟨u, hu⟩ := after.inhabited among
    obtain ⟨new, reached⟩ := (finds.mem u).1 (List.mem_flatten.2 ⟨k, hk, hu⟩)
    rw [settled.marks, settled.mem] at new
    exact ⟨u, after.eq_component among hu, reached, new⟩
  · rintro ⟨u, rfl, reached, new⟩
    rw [← settled.mem, ← settled.marks] at new
    obtain ⟨k, hk, hu⟩ := List.mem_flatten.1 ((finds.mem u).2 ⟨new, reached⟩)
    exact ⟨k, hk, after.eq_component (List.mem_append_right _ hk) hu⟩

/-- A cycle, an edge out of it to a vertex that leads to itself, and an edge back into it. -/
def lasso : Fin 4 → List (Fin 4)
  | 0 => [1, 1]
  | 1 => [0, 2]
  | 2 => [2]
  | 3 => [2, 0]

/-- A second call leaves out what the first one has found. -/
theorem lasso_next : ∃ s s', Calls lasso [[0]] [[2], [1, 0]] s ∧
    Answers lasso s [2, 3, 3] [[3]] s' ∧ s'.visited = 4 := by
  have enough (given : List (Fin 4)) :
      ∑ v ∈ (Set.toFinite {v | ∃ r ∈ given, Reaches lasso r v}).toFinset,
        (1 + (lasso v).length) ≤ 11 :=
    (Finset.sum_le_sum_of_subset (Finset.subset_univ _)).trans (by decide)
  have first : Calls lasso [] [] {} := .start
  obtain ⟨found, s, answers, returns, -⟩ :=
    first.next (Set.toFinite {v | ∃ r ∈ [0], Reaches lasso r v})
  obtain ⟨rfl, rfl⟩ := Prod.mk.inj (returns 11 (enough _))
  have earlier : Calls lasso [[0]] [[2], [1, 0]] _ := .call first answers
  obtain ⟨found, s', answers, returns, -, -, -, -, -, visited⟩ := earlier.next (Set.toFinite _)
  obtain ⟨rfl, rfl⟩ := Prod.mk.inj (returns 11 (enough _))
  exact ⟨_, _, earlier, answers, visited⟩

end Search

end LiveItems.Graph
