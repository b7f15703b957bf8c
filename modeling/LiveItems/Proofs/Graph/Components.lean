import Mathlib.Algebra.BigOperators.Group.Finset.Basic
import Mathlib.Algebra.Order.BigOperators.Group.Finset
import Mathlib.Data.Set.Card
import LiveItems.Proofs.Graph.Lowlinks
set_option autoImplicit false

namespace LiveItems.Graph

variable {α : Type} [Ord α] [Std.TransOrd α]

namespace Walk

variable {successors : α → List α} {before roots : Set α}

/-- The steps that are left: one for each successor still to look at, and one for leaving. -/
def work (successors : α → List α) (U : Finset α) (w : Walk α) : Nat :=
  (w.frames.map fun f => 1 + f.unexplored.length).sum +
    ∑ x ∈ U with x ∉ w.marks, (1 + (successors x).length)

theorem work_congr {U : Finset α} {w w' : Walk α} (marks : ∀ x, x ∈ w'.marks ↔ x ∈ w.marks) :
    ∑ x ∈ U with x ∉ w'.marks, (1 + (successors x).length) =
      ∑ x ∈ U with x ∉ w.marks, (1 + (successors x).length) := by
  simp only [marks]

theorem Sound.inside {U : Finset α} {w : Walk α} (h : Sound successors before roots w)
    (hr : ∀ r ∈ roots, r ∈ U) (closed : ∀ x ∈ U, ∀ y ∈ successors x, y ∈ U) :
    ∀ f ∈ w.frames, ∀ u ∈ f.unexplored, u ∈ U := by
  intro f hf u hu
  have hs := h.mem_stack (List.mem_map_of_mem hf : f.vertex ∈ w.opened)
  obtain ⟨r, hrr, path⟩ := h.shape.reached f.vertex (List.mem_append_left _ hs)
  have mem : ∀ x, Reaches successors r x → x ∈ U := by
    intro x path
    induction path with
    | refl => exact hr r hrr
    | tail _ edge ih => exact closed _ ih _ edge
  exact closed _ (mem _ path) u (h.lowlinks.unexplored f hf u hu)

variable [DecidableEq α]

theorem frames_leave (w : Walk α) (v : α) : (w.leave v).frames = w.frames := by
  unfold leave
  split
  · rfl
  · simp only
    have lowered : ∀ i, (w.lowerParent i).frames = w.frames := by
      intro i
      unfold lowerParent
      split <;> rfl
    split
    · exact lowered _
    · exact lowered _

variable [Std.LawfulEqOrd α]

theorem mem_leave (w : Walk α) (v x : α) : x ∈ (w.leave v).marks ↔ x ∈ w.marks := by
  unfold leave
  split
  · rfl
  · simp only
    have lowered : ∀ i, x ∈ (w.lowerParent i).marks ↔ x ∈ w.marks := by
      intro i
      unfold lowerParent
      split
      · rfl
      · exact mem_lower _ _ _ _
    split
    · rw [mem_emit, lowered]
    · exact lowered _

theorem work_discover {U : Finset α} {w : Walk α} {u : α} (hu : u ∈ U) (new : u ∉ w.marks) :
    (w.discover u (successors u)).work successors U = w.work successors U := by
  have rest : (U.filter fun x => x ∉ w.marks) =
      insert u (U.filter fun x => x ∉ (w.discover u (successors u)).marks) := by
    ext x
    simp only [Finset.mem_filter, Finset.mem_insert, mem_discover, not_or]
    by_cases hx : u = x
    · subst hx
      simp [hu, new]
    · simp [hx, Ne.symm hx]
  have out : u ∉ U.filter fun x => x ∉ (w.discover u (successors u)).marks := by
    simp [mem_discover]
  rw [work, work, rest, Finset.sum_insert out]
  change ((⟨u, successors u⟩ :: w.frames : List (Frame α)).map _).sum + _ = _
  rw [List.map_cons, List.sum_cons]
  simp only
  omega

theorem work_step {U : Finset α} {w w' : Walk α}
    (inside : ∀ f ∈ w.frames, ∀ u ∈ f.unexplored, u ∈ U) (next : w.step successors = some w') :
    w'.work successors U + 1 = w.work successors U := by
  unfold step at next
  split at next
  · cases next
  · rename_i v outer hw
    obtain rfl := Option.some.inj next
    rw [work, frames_leave, work_congr (mem_leave _ v), work, hw, List.map_cons, List.sum_cons]
    simp only [List.length_nil]
    omega
  · rename_i v u rest outer hw
    have hu : u ∈ U := inside ⟨v, u :: rest⟩ (hw ▸ List.mem_cons_self ..) u (by simp)
    have advanced : ({ w with frames := ⟨v, rest⟩ :: outer } : Walk α).work successors U + 1 =
        w.work successors U := by
      rw [work, work, hw]
      simp only [List.map_cons, List.sum_cons, List.length_cons]
      omega
    simp only at next
    split at next
    · rename_i new
      obtain rfl := Option.some.inj next
      rw [work_discover hu, advanced]
      rw [Std.ExtTreeMap.mem_iff_isSome_getElem?, new]
      simp
    · obtain rfl := Option.some.inj next
      split
      · rw [← advanced, work, work_congr (mem_lower _ v _)]
        rfl
      · exact advanced

theorem marks_step {w w' : Walk α} (next : w.step successors = some w') {x : α}
    (hx : x ∈ w.marks) : x ∈ w'.marks := by
  unfold step at next
  split at next
  · cases next
  · obtain rfl := Option.some.inj next
    exact (mem_leave _ _ x).2 hx
  · simp only at next
    split at next
    · obtain rfl := Option.some.inj next
      exact (mem_discover _ _ _ x).2 (.inr hx)
    · obtain rfl := Option.some.inj next
      split
      · exact (mem_lower _ _ _ x).2 hx
      · exact hx

theorem run_sound {U : Finset α} (hr : ∀ r ∈ roots, r ∈ U)
    (closed : ∀ x ∈ U, ∀ y ∈ successors x, y ∈ U) (fuel : Nat) :
    ∀ w : Walk α, Sound successors before roots w → w.work successors U ≤ fuel →
      Sound successors before roots (w.run successors fuel) ∧ (w.run successors fuel).frames = [] ∧
        ∀ x ∈ w.marks, x ∈ (w.run successors fuel).marks := by
  induction fuel with
  | zero =>
    intro w h small
    refine ⟨h, ?_, fun _ hx => hx⟩
    change w.frames = []
    cases hw : w.frames with
    | nil => rfl
    | cons f outer =>
      rw [work, hw, List.map_cons, List.sum_cons] at small
      omega
  | succ fuel ih =>
    intro w h small
    cases next : w.step successors with
    | none =>
      have stopped : w.run successors (fuel + 1) = w := by rw [run, next]
      rw [stopped]
      refine ⟨h, ?_, fun _ hx => hx⟩
      unfold step at next
      split at next
      · assumption
      · cases next
      · simp only at next
        split at next <;> cases next
    | some w' =>
      have onward : w.run successors (fuel + 1) = w'.run successors fuel := by rw [run, next]
      have less := work_step (h.inside hr closed) next
      obtain ⟨sound, done, more⟩ := ih w' (h.step next) (by omega)
      rw [onward]
      exact ⟨sound, done, fun x hx => more x (marks_step next hx)⟩

/-- A root that has not been visited starts a search; what is visited stays visited. -/
theorem explore_shape {U : Finset α} (hr : ∀ r ∈ roots, r ∈ U)
    (closed : ∀ x ∈ U, ∀ y ∈ successors x, y ∈ U) {fuel : Nat}
    (enough : ∑ x ∈ U, (1 + (successors x).length) ≤ fuel) {w : Walk α} {r : α} (root : r ∈ roots)
    (h : Shape successors before roots w) (hf : w.frames = []) (hs : w.stack = []) :
    Shape successors before roots (w.explore successors fuel r) ∧
      (w.explore successors fuel r).frames = [] ∧ (w.explore successors fuel r).stack = [] ∧
      r ∈ (w.explore successors fuel r).marks ∧
      ∀ x ∈ w.marks, x ∈ (w.explore successors fuel r).marks := by
  unfold explore
  by_cases old : r ∈ w.marks
  · rw [if_pos (Std.ExtTreeMap.contains_iff_mem.2 old)]
    exact ⟨h, hf, hs, old, fun _ hx => hx⟩
  · rw [if_neg fun contains => old (Std.ExtTreeMap.contains_iff_mem.1 contains)]
    have small : (w.discover r (successors r)).work successors U ≤ fuel := by
      rw [work_discover (hr r root) old, work, hf]
      refine Nat.le_trans ?_ enough
      rw [List.map_nil, List.sum_nil, Nat.zero_add]
      exact Finset.sum_le_sum_of_subset (Finset.filter_subset _ _)
    obtain ⟨sound, done, more⟩ := run_sound hr closed fuel _ (.start h hf hs old root) small
    refine ⟨sound.shape, done, sound.stack_eq_nil done, more r ?_, fun x hx => more x ?_⟩
    · exact (mem_discover w r _ r).2 (.inl rfl)
    · exact (mem_discover w r _ x).2 (.inr hx)

theorem foldl_explore {U : Finset α} (hr : ∀ r ∈ roots, r ∈ U)
    (closed : ∀ x ∈ U, ∀ y ∈ successors x, y ∈ U) {fuel : Nat}
    (enough : ∑ x ∈ U, (1 + (successors x).length) ≤ fuel) (rs : List α) :
    ∀ w : Walk α, (∀ r ∈ rs, r ∈ roots) → Shape successors before roots w → w.frames = [] →
      w.stack = [] →
      Shape successors before roots (rs.foldl (explore successors fuel) w) ∧
        (rs.foldl (explore successors fuel) w).stack = [] ∧
        (∀ r ∈ rs, r ∈ (rs.foldl (explore successors fuel) w).marks) ∧
        ∀ x ∈ w.marks, x ∈ (rs.foldl (explore successors fuel) w).marks := by
  induction rs with
  | nil =>
    intro w _ h _ hs
    exact ⟨h, hs, by simp, fun _ hx => hx⟩
  | cons r rs ih =>
    intro w sub h hf hs
    obtain ⟨h', hf', hs', visited, more⟩ :=
      explore_shape hr closed enough (sub r (List.mem_cons_self ..)) h hf hs
    obtain ⟨shape, stack, all, more'⟩ := ih (w.explore successors fuel r)
      (fun r hr => sub r (List.mem_cons_of_mem _ hr)) h' hf' hs'
    refine ⟨shape, stack, fun x hx => ?_, fun x hx => more' x (more x hx)⟩
    rcases List.mem_cons.1 hx with rfl | hx
    · exact more' x visited
    · exact all x hx

end Walk

namespace Search

variable {successors : α → List α}

/-- Nothing is unfinished, and what has been visited is closed under edges. -/
structure Idle (successors : α → List α) (s : Search α) : Prop where
  stack : s.stack = []
  flag : ∀ x, s.flag x = false
  bound : ∀ x ∈ s.marks, s.index x < s.marks.size
  closed : ∀ x ∈ s.marks, ∀ y ∈ successors x, y ∈ s.marks

theorem idle_empty (successors : α → List α) : ({} : Search α).Idle successors := by
  refine ⟨rfl, fun x => ?_, fun x hx => ?_, fun x hx => ?_⟩
  · simp [flag]
  · simp at hx
  · simp at hx

/-- The call has found the components of all that can be reached from the roots and had not been
visited, a component after those it leads to. -/
structure Finds (successors : α → List α) (roots : List α) (s : Search α) (found : List (List α))
    (s' : Search α) : Prop where
  layers : Layers successors {x | x ∈ s.marks} found.reverse
  nodup : found.flatten.Nodup
  mem : ∀ x, x ∈ found.flatten ↔ x ∉ s.marks ∧ ∃ r ∈ roots, Reaches successors r x
  marks : ∀ x, x ∈ s'.marks ↔ x ∈ s.marks ∨ x ∈ found.flatten
  idle : s'.Idle successors

/-- A call starts with nothing on the stack. -/
theorem Idle.shape {s : Search α} (h : s.Idle successors) (roots : Set α) :
    Walk.Shape successors {x | x ∈ s.marks} roots ({ s with } : Walk α) := by
  refine ⟨fun x => ?_, fun x => ?_, ?_, ?_, h.bound, ?_, trivial, ?_⟩
  · change _ ↔ _ ∨ x ∈ s.stack ∨ x ∈ []
    rw [h.stack]
    simp
  · change s.flag x = true ↔ x ∈ s.stack
    rw [h.flag, h.stack]
    simp
  all_goals simp [h.stack]

theorem components_spec [Std.LawfulEqOrd α] [DecidableEq α] {s : Search α} {roots : List α}
    {U : Finset α} {fuel : Nat} (h : s.Idle successors) (hr : ∀ r ∈ roots, r ∈ U)
    (closed : ∀ x ∈ U, ∀ y ∈ successors x, y ∈ U)
    (enough : ∑ x ∈ U, (1 + (successors x).length) ≤ fuel) :
    Finds successors roots s (s.components successors fuel roots).1
      (s.components successors fuel roots).2 := by
  obtain ⟨shape, stack, visited, more⟩ := Walk.foldl_explore hr closed enough roots
    ({ s with } : Walk α) (fun _ hr => hr) (h.shape {x | x ∈ roots}) rfl h.stack
  unfold components
  simp only
  generalize roots.foldl (Walk.explore successors fuel) ({ s with } : Walk α) = w at *
  have marks : ∀ x, x ∈ w.marks ↔ x ∈ s.marks ∨ x ∈ w.found.flatten := by
    intro x
    rw [shape.visited, stack]
    simp
  have closed' : ∀ x ∈ w.marks, ∀ y ∈ successors x, y ∈ w.marks := by
    intro x hx y hy
    rcases (marks x).1 hx with hx | hx
    · exact more y (h.closed x hx y hy)
    · rw [marks]
      exact (shape.layers.closed hx hy).symm
  have perm : w.found.reverse.flatten.Perm w.found.flatten := (List.reverse_perm _).flatten
  constructor
  · rw [List.reverse_reverse]
    exact shape.layers
  · have := shape.nodup
    rw [stack, List.nil_append] at this
    exact perm.nodup_iff.2 this
  · intro x
    rw [perm.mem_iff]
    constructor
    · intro hx
      have hx : x ∈ w.stack ++ w.found.flatten := List.mem_append_right _ hx
      exact ⟨shape.apart x hx, shape.reached x hx⟩
    · rintro ⟨new, r, hr, path⟩
      have : x ∈ w.marks := by
        clear new
        induction path with
        | refl => exact visited r hr
        | tail _ edge ih => exact closed' _ ih _ edge
      exact ((marks x).1 this).resolve_left new
  · intro x
    rw [perm.mem_iff]
    exact marks x
  · refine ⟨stack, fun x => ?_, shape.bound, closed'⟩
    have := shape.flag x
    rw [stack] at this
    simpa using this

/-- A search from the start finds each component below the roots once. -/
theorem Finds.ncard_components {roots : List α} {found : List (List α)} {s : Search α}
    (finds : Finds successors roots {} found s) :
    {k | ∃ u, (∃ r ∈ roots, Reaches successors r u) ∧ k = component successors u}.ncard =
      found.length := by
  classical
  have layers : Layers successors ∅ found.reverse := by
    have layers := finds.layers
    simp only [Std.ExtTreeMap.not_mem_empty] at layers
    exact layers
  have perm : found.reverse.flatten.Perm found.flatten := (List.reverse_perm found).flatten
  have whole : ∀ k ∈ found, ∀ u ∈ k, {v | v ∈ k} = component successors u := fun k hk u hu =>
    layers.eq_component (perm.nodup_iff.2 finds.nodup) (List.mem_reverse.2 hk) hu
  have inhabited : ∀ k ∈ found, ∃ u, u ∈ k := by
    intro k hk
    obtain ⟨done, rest, split⟩ := List.append_of_mem (List.mem_reverse.2 hk)
    rw [split] at layers
    exact List.exists_mem_of_ne_nil k layers.drop.1
  have distinct : (found.map fun k => {v | v ∈ k}).Nodup := by
    rw [List.Nodup, List.pairwise_map]
    refine (List.nodup_flatten.1 finds.nodup).2.imp_of_mem fun {k l} hk _ apart same => ?_
    obtain ⟨u, hu⟩ := inhabited k hk
    exact apart hu ((Set.ext_iff.1 same u).1 hu)
  have all : {k | ∃ u, (∃ r ∈ roots, Reaches successors r u) ∧ k = component successors u} =
      ((found.map fun k => {v | v ∈ k}).toFinset : Set (Set α)) := by
    ext K
    rw [List.coe_toFinset, Set.mem_ofPred_eq, Set.mem_ofPred_eq, List.mem_map]
    constructor
    · rintro ⟨u, below, rfl⟩
      obtain ⟨k, hk, hu⟩ := List.mem_flatten.1 ((finds.mem u).2 ⟨by simp, below⟩)
      exact ⟨k, hk, whole k hk u hu⟩
    · rintro ⟨k, hk, rfl⟩
      obtain ⟨u, hu⟩ := inhabited k hk
      exact ⟨u, ((finds.mem u).1 (List.mem_flatten.2 ⟨k, hk, hu⟩)).2, whole k hk u hu⟩
  rw [all, Set.ncard_coe_finset, List.toFinset_card_of_nodup distinct, List.length_map]

end Search

end LiveItems.Graph
