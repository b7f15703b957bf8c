import LiveItems.Proofs.Graph.Walk
set_option autoImplicit false

/-!
# Lowlinks

Each vertex on the stack leads to an open vertex that is no later, and an open vertex, which is one
under exploration, leads to everything above it. Its lowlink bounds all edges from there back into
the stack. So when a vertex is left with its own index as lowlink, it and what lies above it are a
component: `Sound.emit`. Otherwise it passes its lowlink on: `Sound.pass`.
-/

namespace LiveItems.Graph

section Frames

variable {α : Type} {v u x y : α} {rest : List α} {outer : List (Frame α)}

theorem unexplored_rest
    (waits : ∃ f ∈ ⟨v, u :: rest⟩ :: outer, f.vertex = x ∧ y ∈ f.unexplored) :
    (x = v ∧ y = u) ∨ ∃ f ∈ ⟨v, rest⟩ :: outer, f.vertex = x ∧ y ∈ f.unexplored := by
  obtain ⟨f, hf, rfl, hy⟩ := waits
  rcases List.mem_cons.1 hf with rfl | hf
  · rcases List.mem_cons.1 hy with rfl | hy
    · exact .inl ⟨rfl, rfl⟩
    · exact .inr ⟨_, List.mem_cons_self .., rfl, hy⟩
  · exact .inr ⟨f, List.mem_cons_of_mem _ hf, rfl, hy⟩

theorem unexplored_outer (waits : ∃ f ∈ ⟨v, []⟩ :: outer, f.vertex = x ∧ y ∈ f.unexplored) :
    ∃ f ∈ outer, f.vertex = x ∧ y ∈ f.unexplored := by
  obtain ⟨f, hf, rfl, hy⟩ := waits
  rcases List.mem_cons.1 hf with rfl | hf
  · exact absurd hy List.not_mem_nil
  · exact ⟨f, hf, rfl, hy⟩

end Frames

namespace Walk

variable {α : Type} [Ord α]

def opened (w : Walk α) : List α := w.frames.map (·.vertex)

theorem opened_eq {w : Walk α} {f : Frame α} {outer : List (Frame α)}
    (hw : w.frames = f :: outer) : w.opened = f.vertex :: outer.map (·.vertex) := by
  rw [opened, hw, List.map_cons]

variable [Std.TransOrd α] {successors : α → List α} {before roots : Set α}

/-- The vertex `v` is the last open one that is no later than `x`. -/
def Owns (w : Walk α) (v x : α) : Prop :=
  w.index v ≤ w.index x ∧ ∀ g ∈ w.opened, w.index g ≤ w.index x → w.index g ≤ w.index v

structure Lowlinks (successors : α → List α) (w : Walk α) : Prop where
  opened : w.opened.Sublist w.stack
  unexplored : ∀ f ∈ w.frames, ∀ u ∈ f.unexplored, u ∈ successors f.vertex
  low_le : ∀ v ∈ w.opened, w.low v ≤ w.index v
  low_reached : ∀ v ∈ w.opened, ∃ u ∈ w.stack, w.index u = w.low v ∧ Reaches successors v u
  drops : ∀ x ∈ w.stack, x ∉ w.opened →
    ∃ u ∈ w.stack, w.index u < w.index x ∧ Reaches successors x u
  above : ∀ v ∈ w.opened, ∀ x ∈ w.stack, w.index v ≤ w.index x → Reaches successors v x
  explored : ∀ x ∈ w.stack, ∀ u ∈ successors x,
    (∃ f ∈ w.frames, f.vertex = x ∧ u ∈ f.unexplored) ∨
    (u ∈ w.marks ∧ (u ∈ w.stack → ∀ v ∈ w.opened, w.Owns v x → w.low v ≤ w.index u))

structure Sound (successors : α → List α) (before roots : Set α) (w : Walk α) : Prop where
  shape : Shape successors before roots w
  lowlinks : Lowlinks successors w

namespace Sound

variable {w : Walk α} {f : Frame α} {outer : List (Frame α)}

theorem mem_stack (h : Sound successors before roots w) {v : α} (hv : v ∈ w.opened) :
    v ∈ w.stack := h.lowlinks.opened.subset hv

theorem innermost (h : Sound successors before roots w) (hw : w.frames = f :: outer) {v : α}
    (hv : v ∈ outer.map (·.vertex)) : w.index v < w.index f.vertex := by
  have sub := h.lowlinks.opened
  rw [opened_eq hw] at sub
  exact (List.pairwise_cons.1 (h.shape.ordered.sublist sub)).1 v hv

theorem innermost_le (h : Sound successors before roots w) (hw : w.frames = f :: outer) {v : α}
    (hv : v ∈ w.opened) : w.index v ≤ w.index f.vertex := by
  rw [opened_eq hw] at hv
  rcases List.mem_cons.1 hv with rfl | hv
  · exact Nat.le_refl _
  · exact Nat.le_of_lt (h.innermost hw hv)

theorem reaches_opened (h : Sound successors before roots w) :
    ∀ (n : Nat) (x : α), w.index x = n → x ∈ w.stack →
      ∃ v ∈ w.opened, w.index v ≤ w.index x ∧ Reaches successors x v := by
  intro n
  induction n using Nat.strongRecOn with
  | ind n ih =>
    intro x hn hx
    by_cases hv : x ∈ w.opened
    · exact ⟨x, hv, Nat.le_refl _, .refl⟩
    · obtain ⟨u, hu, lt, path⟩ := h.lowlinks.drops x hx hv
      obtain ⟨v, hv, le, path'⟩ := ih (w.index u) (hn ▸ lt) u rfl hu
      exact ⟨v, hv, Nat.le_trans le (Nat.le_of_lt lt), path.trans path'⟩

/-- Everything on the stack leads to the innermost vertex. -/
theorem reaches_innermost (h : Sound successors before roots w) (hw : w.frames = f :: outer)
    {x : α} (hx : x ∈ w.stack) : Reaches successors x f.vertex := by
  have hf : f.vertex ∈ w.opened := opened_eq hw ▸ List.mem_cons_self ..
  obtain ⟨v, hv, -, path⟩ := h.reaches_opened _ x rfl hx
  exact path.trans (h.lowlinks.above v hv f.vertex (h.mem_stack hf) (h.innermost_le hw hv))

theorem stack_eq_nil (h : Sound successors before roots w) (hw : w.frames = []) : w.stack = [] := by
  refine List.eq_nil_iff_forall_not_mem.2 fun x hx => ?_
  obtain ⟨v, hv, -⟩ := h.reaches_opened _ x rfl hx
  rw [opened, hw] at hv
  simp at hv

/-! ## Taking off a component -/

structure Cuts (v : α) (taken : List α) (w d : Walk α) : Prop where
  stack : w.stack = taken ++ v :: d.stack
  absent : v ∉ taken
  found : d.found = (taken ++ [v]) :: w.found
  marks : ∀ x, x ∈ d.marks ↔ x ∈ w.marks
  size : d.marks.size = w.marks.size
  index : ∀ x, d.index x = w.index x
  low : ∀ x, d.low x = w.low x
  flag : ∀ x, d.flag x = true ↔ w.flag x = true ∧ x ∉ taken ++ [v]

omit [Ord α] [Std.TransOrd α] in
theorem sublist_below {v : α} {above below vs : List α} (absent : v ∉ above)
    (h : (v :: vs).Sublist (above ++ v :: below)) : vs.Sublist below := by
  induction above with
  | nil => exact List.cons_sublist_cons.1 h
  | cons a above ih =>
    rw [List.mem_cons, not_or] at absent
    exact ih absent.2 (h.of_cons_of_ne absent.1)

namespace Cuts

variable {v : α} {taken : List α} {d : Walk α} (cuts : Cuts v taken w d)
include cuts

section Order

variable (ordered : w.stack.Pairwise fun x y => w.index y < w.index x)
include ordered

theorem mem_taken {x : α} : x ∈ taken ++ [v] ↔ x ∈ w.stack ∧ w.index v ≤ w.index x := by
  rw [cuts.stack, List.pairwise_append, List.pairwise_cons] at ordered
  rw [cuts.stack, List.mem_append, List.mem_append, List.mem_singleton, List.mem_cons]
  constructor
  · rintro (hx | rfl)
    · exact ⟨.inl hx, Nat.le_of_lt (ordered.2.2 x hx v (List.mem_cons_self ..))⟩
    · exact ⟨.inr (.inl rfl), Nat.le_refl _⟩
  · rintro ⟨hx | rfl | hx, le⟩
    · exact .inl hx
    · exact .inr rfl
    · exact absurd (ordered.2.1.1 x hx) (Nat.not_lt.2 le)

theorem mem_stack {x : α} : x ∈ d.stack ↔ x ∈ w.stack ∧ w.index x < w.index v := by
  rw [cuts.stack, List.pairwise_append, List.pairwise_cons] at ordered
  rw [cuts.stack, List.mem_append, List.mem_cons]
  constructor
  · exact fun hx => ⟨.inr (.inr hx), ordered.2.1.1 x hx⟩
  · rintro ⟨hx | rfl | hx, lt⟩
    · exact absurd (ordered.2.2 x hx v (List.mem_cons_self ..)) (Nat.lt_asymm lt)
    · exact absurd lt (Nat.lt_irrefl _)
    · exact hx

end Order

theorem perm : (d.stack ++ d.found.flatten).Perm (w.stack ++ w.found.flatten) := by
  rw [cuts.found, cuts.stack, List.flatten_cons, ← List.append_assoc, ← List.append_assoc]
  refine List.Perm.append_right _ ?_
  rw [List.append_assoc]
  exact List.perm_append_comm.trans (by simp)

/-- A component that holds together and leads to earlier ones only may be taken off. -/
theorem shape (h : Shape successors before roots w)
    (connected : ∀ x ∈ taken ++ [v], ∀ y ∈ taken ++ [v], Reaches successors x y)
    (closed : ∀ x ∈ taken ++ [v], ∀ y ∈ successors x,
      y ∈ taken ++ [v] ∨ y ∈ w.found.flatten ∨ y ∈ before) :
    Shape successors before roots d := by
  have same : ∀ x, x ∈ d.stack ++ d.found.flatten ↔ x ∈ w.stack ++ w.found.flatten :=
    fun x => cuts.perm.mem_iff
  constructor
  · intro x
    rw [cuts.marks, h.visited, ← List.mem_append, ← List.mem_append, same]
  · intro x
    rw [cuts.flag, h.flag, cuts.mem_taken h.ordered, cuts.mem_stack h.ordered, not_and, Nat.not_le]
    exact ⟨fun ⟨hx, out⟩ => ⟨hx, out hx⟩, fun ⟨hx, lt⟩ => ⟨hx, fun _ => lt⟩⟩
  · exact cuts.perm.nodup_iff.2 h.nodup
  · exact fun x hx => h.apart x ((same x).1 hx)
  · intro x hx
    rw [cuts.index, cuts.size]
    exact h.bound x ((cuts.marks x).1 hx)
  · have ordered := h.ordered
    rw [cuts.stack, List.pairwise_append, List.pairwise_cons] at ordered
    simp only [cuts.index]
    exact ordered.2.1.2
  · rw [cuts.found]
    exact ⟨by simp, connected, closed, h.layers⟩
  · exact fun x hx => h.reached x ((same x).1 hx)

/-- The open vertices below `v` keep their lowlinks. -/
theorem lowlinks (h : Sound successors before roots w) (hw : w.frames = ⟨v, []⟩ :: outer)
    (frames : d.frames = outer) : Lowlinks successors d := by
  obtain ⟨sublist, unexplored, low_le, low_reached, drops, above, explored⟩ := h.lowlinks
  have opened : w.opened = v :: d.opened := by rw [opened_eq hw, Walk.opened, frames]
  have earlier : ∀ x ∈ d.opened, w.index x < w.index v := by
    intro x hx
    refine h.innermost hw ?_
    rwa [Walk.opened, frames] at hx
  have sub : ∀ x ∈ d.opened, x ∈ w.opened := fun x hx => opened ▸ List.mem_cons_of_mem v hx
  have mem : ∀ x, x ∈ d.stack ↔ x ∈ w.stack ∧ w.index x < w.index v := fun x =>
    cuts.mem_stack h.shape.ordered
  constructor
  · rw [opened, cuts.stack] at sublist
    exact sublist_below cuts.absent sublist
  · intro g hg
    rw [frames] at hg
    exact unexplored g (hw ▸ List.mem_cons_of_mem _ hg)
  · intro x hx
    rw [cuts.index, cuts.low]
    exact low_le x (sub x hx)
  · intro x hx
    obtain ⟨u, hu, eq, path⟩ := low_reached x (sub x hx)
    have le := low_le x (sub x hx)
    have lt := earlier x hx
    exact ⟨u, (mem u).2 ⟨hu, by omega⟩, by rw [cuts.index, cuts.low, eq], path⟩
  · intro x hx out
    obtain ⟨hxs, lt⟩ := (mem x).1 hx
    have left : x ∉ w.opened := by
      rw [opened, List.mem_cons, not_or]
      refine ⟨?_, out⟩
      rintro rfl
      exact Nat.lt_irrefl _ lt
    obtain ⟨u, hu, lower, path⟩ := drops x hxs left
    exact ⟨u, (mem u).2 ⟨hu, Nat.lt_trans lower lt⟩, by rwa [cuts.index, cuts.index], path⟩
  · intro x hx y hy le
    rw [cuts.index, cuts.index] at le
    exact above x (sub x hx) y ((mem y).1 hy).1 le
  · intro x hx y hy
    obtain ⟨hxs, lt⟩ := (mem x).1 hx
    rcases explored x hxs y hy with waits | ⟨hym, bound⟩
    · rw [hw] at waits
      exact .inl (frames ▸ unexplored_outer waits)
    · refine .inr ⟨(cuts.marks y).2 hym, fun hys g hg owner => ?_⟩
      simp only [Owns, cuts.index] at owner
      rw [cuts.index, cuts.low]
      refine bound ((mem y).1 hys).1 g (sub g hg) ⟨owner.1, fun k hk below => ?_⟩
      rw [opened] at hk
      rcases List.mem_cons.1 hk with rfl | hk
      · exact absurd below (Nat.not_le.2 lt)
      · exact owner.2 k hk below

end Cuts

/-! ## Looking at a successor -/

theorem advance (h : Sound successors before roots w) {v u : α} {rest : List α}
    (hw : w.frames = ⟨v, u :: rest⟩ :: outer) (hu : u ∈ w.marks) {w' : Walk α}
    (same : w.Alike w') (hw' : w'.frames = ⟨v, rest⟩ :: outer)
    (others : ∀ x, x ≠ v → w'.low x = w.low x) (lower : w'.low v ≤ w.low v)
    (bound : u ∈ w.stack → w'.low v ≤ w.index u)
    (reached : w'.low v = w.low v ∨ u ∈ w.stack ∧ w'.low v = w.index u) :
    Sound successors before roots w' := by
  obtain ⟨-, unexplored, low_le, low_reached, drops, above, explored⟩ := h.lowlinks
  have opened : w'.opened = w.opened := by rw [opened_eq hw, opened_eq hw']
  have hv : v ∈ w.opened := opened_eq hw ▸ List.mem_cons_self ..
  have edge : u ∈ successors v := unexplored ⟨v, u :: rest⟩ (hw ▸ List.mem_cons_self ..) u (by simp)
  have owns : ∀ x y, w'.Owns x y ↔ w.Owns x y := by
    intro x y
    simp only [Owns, opened, same.index]
  have low : ∀ x, w'.low x ≤ w.low x := by
    intro x
    by_cases hx : x = v
    · exact hx ▸ lower
    · exact Nat.le_of_eq (others x hx)
  refine ⟨h.shape.alike same, ?_⟩
  constructor
  · rw [opened, same.stack]
    exact h.lowlinks.opened
  · intro g hg y hy
    rw [hw'] at hg
    rcases List.mem_cons.1 hg with rfl | hg
    · exact unexplored ⟨v, u :: rest⟩ (hw ▸ List.mem_cons_self ..) y (List.mem_cons_of_mem _ hy)
    · exact unexplored g (hw ▸ List.mem_cons_of_mem _ hg) y hy
  · intro x hx
    rw [same.index]
    exact Nat.le_trans (low x) (low_le x (opened ▸ hx))
  · intro x hx
    simp only [same.stack, same.index]
    rw [opened] at hx
    by_cases hxv : x = v
    · subst hxv
      rcases reached with eq | ⟨hus, eq⟩
      · rw [eq]
        exact low_reached x hx
      · exact ⟨u, hus, eq.symm, .single edge⟩
    · rw [others x hxv]
      exact low_reached x hx
  · intro x hx hxo
    simp only [same.stack, same.index]
    exact drops x (same.stack ▸ hx) (opened ▸ hxo)
  · intro x hx y hy le
    rw [same.index, same.index] at le
    exact above x (opened ▸ hx) y (same.stack ▸ hy) le
  · intro x hx y hy
    simp only [same.marks, same.stack, same.index, owns, opened] at hx ⊢
    by_cases now : x = v ∧ y = u
    · obtain ⟨rfl, rfl⟩ := now
      refine .inr ⟨hu, fun hys g hg owner => ?_⟩
      have same_index : w.index g = w.index x :=
        Nat.le_antisymm owner.1 (owner.2 x hv (Nat.le_refl _))
      obtain rfl := h.shape.index_inj (h.mem_stack hg) hx same_index
      exact bound hys
    · rcases explored x hx y hy with waits | ⟨hym, le⟩
      · rw [hw] at waits
        rw [hw']
        exact .inl ((unexplored_rest waits).resolve_left now)
      · exact .inr ⟨hym, fun hys g hg owner => Nat.le_trans (low g) (le hys g hg owner)⟩

variable [Std.LawfulEqOrd α] [DecidableEq α]

theorem discover (h : Sound successors before roots w) {v u : α} {rest : List α}
    (hw : w.frames = ⟨v, u :: rest⟩ :: outer) (new : u ∉ w.marks) :
    Sound successors before roots
      ({ w with frames := ⟨v, rest⟩ :: outer }.discover u (successors u)) := by
  obtain ⟨-, unexplored, low_le, low_reached, drops, above, explored⟩ := h.lowlinks
  have hv : v ∈ w.opened := opened_eq hw ▸ List.mem_cons_self ..
  have edge : u ∈ successors v := unexplored ⟨v, u :: rest⟩ (hw ▸ List.mem_cons_self ..) u (by simp)
  obtain ⟨r, hr, path⟩ := h.shape.reached v (List.mem_append_left _ (h.mem_stack hv))
  have shape := h.shape.discover new ⟨r, hr, path.tail edge⟩ (⟨v, rest⟩ :: outer) (successors u)
  generalize hd : { w with frames := ⟨v, rest⟩ :: outer }.discover u (successors u) = d at shape ⊢
  have stack : d.stack = u :: w.stack := by rw [← hd]; rfl
  have opened : d.opened = u :: w.opened := by rw [← hd, opened_eq hw]; rfl
  have frames : d.frames = ⟨u, successors u⟩ :: ⟨v, rest⟩ :: outer := by rw [← hd]; rfl
  have ne : ∀ x ∈ w.stack, u ≠ x := by
    rintro x hx rfl
    exact new (h.shape.mem_marks hx)
  have index : ∀ x ∈ w.stack, d.index x = w.index x := by
    intro x hx
    rw [← hd, index_discover, if_neg (ne x hx)]
  have low : ∀ x ∈ w.stack, d.low x = w.low x := by
    intro x hx
    rw [← hd, low_discover, if_neg (ne x hx)]
  have self : d.low u = d.index u := by
    rw [← hd, low_discover, index_discover, if_pos rfl, if_pos rfl]
  have marks : ∀ x ∈ w.marks, x ∈ d.marks := by
    intro x hx
    rw [← hd]
    exact (mem_discover _ u _ x).2 (.inr hx)
  have latest : ∀ x ∈ w.stack, d.index x < d.index u := by
    have := shape.ordered
    rw [stack, List.pairwise_cons] at this
    exact this.1
  refine ⟨shape, ?_⟩
  constructor
  · rw [stack, opened]
    exact h.lowlinks.opened.cons_cons u
  · intro g hg y hy
    rw [frames] at hg
    rcases List.mem_cons.1 hg with rfl | hg
    · exact hy
    · rcases List.mem_cons.1 hg with rfl | hg
      · exact unexplored ⟨v, u :: rest⟩ (hw ▸ List.mem_cons_self ..) y (List.mem_cons_of_mem _ hy)
      · exact unexplored g (hw ▸ List.mem_cons_of_mem _ hg) y hy
  · intro x hx
    rw [opened] at hx
    rcases List.mem_cons.1 hx with rfl | hx
    · exact Nat.le_of_eq self
    · rw [index x (h.mem_stack hx), low x (h.mem_stack hx)]
      exact low_le x hx
  · intro x hx
    rw [opened] at hx
    rw [stack]
    rcases List.mem_cons.1 hx with rfl | hx
    · exact ⟨x, List.mem_cons_self .., self.symm, .refl⟩
    · obtain ⟨y, hy, eq, path⟩ := low_reached x hx
      refine ⟨y, List.mem_cons_of_mem _ hy, ?_, path⟩
      rw [index y hy, low x (h.mem_stack hx), eq]
  · intro x hx hxo
    rw [stack] at hx ⊢
    rw [opened, List.mem_cons, not_or] at hxo
    have hx := (List.mem_cons.1 hx).resolve_left hxo.1
    obtain ⟨y, hy, lt, path⟩ := drops x hx hxo.2
    refine ⟨y, List.mem_cons_of_mem _ hy, ?_, path⟩
    rwa [index y hy, index x hx]
  · intro x hx y hy le
    rw [opened] at hx
    rw [stack] at hy
    rcases List.mem_cons.1 hx with rfl | old
    · rcases List.mem_cons.1 hy with rfl | hy
      · exact .refl
      · exact absurd (latest y hy) (Nat.not_lt.2 le)
    · rcases List.mem_cons.1 hy with rfl | hy
      · refine Relation.ReflTransGen.tail (above x old v (h.mem_stack hv) ?_) edge
        exact h.innermost_le hw old
      · rw [index x (h.mem_stack old), index y hy] at le
        exact above x old y hy le
  · intro x hx y hy
    rw [stack] at hx
    rw [frames, opened, stack]
    rcases List.mem_cons.1 hx with rfl | hxs
    · exact .inl ⟨_, List.mem_cons_self .., rfl, hy⟩
    · by_cases now : x = v ∧ y = u
      · obtain ⟨rfl, rfl⟩ := now
        refine .inr ⟨?_, fun _ g hg owner => ?_⟩
        · rw [← hd]
          exact (mem_discover _ y _ y).2 (.inl rfl)
        · rcases List.mem_cons.1 hg with rfl | hg
          · exact Nat.le_of_eq self
          · rw [low g (h.mem_stack hg)]
            have := low_le g hg
            have := latest g (h.mem_stack hg)
            rw [index g (h.mem_stack hg)] at this
            omega
      · rcases explored x hxs y hy with waits | ⟨hym, le⟩
        · rw [hw] at waits
          obtain ⟨g, hg, eq, hyg⟩ := (unexplored_rest waits).resolve_left now
          exact .inl ⟨g, List.mem_cons_of_mem _ hg, eq, hyg⟩
        · refine .inr ⟨marks y hym, fun hys g hg owner => ?_⟩
          have hys : y ∈ w.stack := by
            refine (List.mem_cons.1 hys).resolve_left ?_
            rintro rfl
            exact new hym
          -- `u` is later than `x` and does not own it
          have old : g ∈ w.opened := by
            refine (List.mem_cons.1 hg).resolve_left ?_
            rintro rfl
            exact absurd (latest x hxs) (Nat.not_lt.2 owner.1)
          rw [low g (h.mem_stack old), index y hys]
          refine le hys g old ⟨?_, fun k hk hkx => ?_⟩
          · rw [← index g (h.mem_stack old), ← index x hxs]
            exact owner.1
          · have := owner.2 k (opened ▸ List.mem_cons_of_mem _ hk)
            rw [index k (h.mem_stack hk), index x hxs, index g (h.mem_stack old)] at this
            exact this hkx

theorem start (h : Shape successors before roots w) (hf : w.frames = []) (hs : w.stack = [])
    {r : α} (new : r ∉ w.marks) (hr : r ∈ roots) :
    Sound successors before roots (w.discover r (successors r)) := by
  have stack : (w.discover r (successors r)).stack = [r] := by
    change r :: w.stack = [r]
    rw [hs]
  have frames : (w.discover r (successors r)).frames = [⟨r, successors r⟩] := by
    change _ :: w.frames = _
    rw [hf]
  have self : (w.discover r (successors r)).low r = (w.discover r (successors r)).index r := by
    rw [low_discover, index_discover, if_pos rfl, if_pos rfl]
  refine ⟨h.discover new ⟨r, hr, .refl⟩ w.frames (successors r), ?_⟩
  constructor
  all_goals simp only [opened, frames, stack, List.map_cons, List.map_nil, List.mem_singleton,
    forall_eq, exists_eq_left]
  · exact List.Sublist.refl _
  · exact fun u hu => hu
  · exact Nat.le_of_eq self
  · exact ⟨self.symm, .refl⟩
  · exact fun ne => absurd trivial ne
  · exact fun _ => .refl
  · exact fun u hu => .inl ⟨trivial, hu⟩

/-! ## Leaving a vertex -/

theorem pass (h : Sound successors before roots w) {v p : α} {us : List α}
    (hw : w.frames = ⟨v, []⟩ :: ⟨p, us⟩ :: outer) (lt : w.low v < w.index v) :
    Sound successors before roots
      ({ w with frames := ⟨p, us⟩ :: outer }.lower p (w.low v)) := by
  obtain ⟨-, unexplored, low_le, low_reached, drops, above, explored⟩ := h.lowlinks
  have same := alike_lower w (⟨p, us⟩ :: outer) p (w.low v)
  have low := low_lower { w with frames := ⟨p, us⟩ :: outer } p (w.low v)
  generalize hd : { w with frames := ⟨p, us⟩ :: outer }.lower p (w.low v) = d at same low ⊢
  have opened_w : w.opened = v :: p :: outer.map (·.vertex) := by rw [opened_eq hw]; rfl
  have opened : d.opened = p :: outer.map (·.vertex) := by rw [← hd]; rfl
  have frames : d.frames = ⟨p, us⟩ :: outer := by rw [← hd]; rfl
  have hv : v ∈ w.opened := opened_w ▸ List.mem_cons_self ..
  have sub : ∀ x ∈ d.opened, x ∈ w.opened := by
    intro x hx
    rw [opened_w, ← opened]
    exact List.mem_cons_of_mem v hx
  have earlier : ∀ x ∈ d.opened, w.index x < w.index v := by
    intro x hx
    refine h.innermost hw ?_
    rwa [opened] at hx
  have hp : p ∈ d.opened := opened ▸ List.mem_cons_self ..
  have low_le_low : ∀ x, d.low x ≤ w.low x := by
    intro x
    rw [low]
    split
    · exact Nat.min_le_left ..
    · exact Nat.le_refl _
  refine ⟨h.shape.alike same, ?_⟩
  constructor
  · have := h.lowlinks.opened
    rw [opened_w, ← opened] at this
    rw [same.stack]
    exact (List.sublist_cons_self v d.opened).trans this
  · intro g hg
    rw [frames] at hg
    exact unexplored g (hw ▸ List.mem_cons_of_mem _ hg)
  · intro x hx
    rw [same.index]
    exact Nat.le_trans (low_le_low x) (low_le x (sub x hx))
  · intro x hx
    simp only [same.stack, same.index]
    by_cases passed : x = p ∧ w.low v ≤ w.low p
    · obtain ⟨rfl, le⟩ := passed
      obtain ⟨u, hu, eq, path⟩ := low_reached v hv
      refine ⟨u, hu, ?_, ?_⟩
      · rw [low, if_pos rfl, eq]
        exact (Nat.min_eq_right le).symm
      · exact (above x (sub x hx) v (h.mem_stack hv) (Nat.le_of_lt (earlier x hx))).trans path
    · have kept : d.low x = w.low x := by
        rw [low]
        split
        · subst_vars
          exact Nat.min_eq_left (Nat.le_of_not_le fun le => passed ⟨rfl, le⟩)
        · rfl
      rw [kept]
      exact low_reached x (sub x hx)
  · intro x hx hxo
    simp only [same.stack, same.index]
    rw [same.stack] at hx
    by_cases left : x = v
    · subst left
      obtain ⟨u, hu, eq, path⟩ := low_reached x hv
      exact ⟨u, hu, eq ▸ lt, path⟩
    · refine drops x hx ?_
      rw [opened_w, ← opened, List.mem_cons, not_or]
      exact ⟨left, hxo⟩
  · intro x hx y hy le
    rw [same.index, same.index] at le
    exact above x (sub x hx) y (same.stack ▸ hy) le
  · intro x hx y hy
    rw [same.stack] at hx
    rcases explored x hx y hy with waits | ⟨hym, le⟩
    · rw [hw] at waits
      exact .inl (frames ▸ unexplored_outer waits)
    · refine .inr ⟨(same.marks y).2 hym, fun hys g hg owner => ?_⟩
      rw [same.stack] at hys
      rw [same.index]
      simp only [Owns, same.index] at owner
      by_cases inside : w.index v ≤ w.index x
      · -- `x` belonged to `v` and belongs to `p` now
        have le_low := le hys v hv ⟨inside, fun k hk _ => h.innermost_le hw hk⟩
        have latest : w.index p ≤ w.index g :=
          owner.2 p hp (Nat.le_trans (Nat.le_of_lt (earlier p hp)) inside)
        have only : g = p := by
          rw [opened] at hg
          refine (List.mem_cons.1 hg).resolve_right fun hg => ?_
          have sorted := (h.shape.ordered.sublist h.lowlinks.opened)
          rw [opened_w, List.pairwise_cons, List.pairwise_cons] at sorted
          exact absurd (sorted.2.1 g hg) (Nat.not_lt.2 latest)
        subst only
        rw [low, if_pos rfl]
        exact Nat.le_trans (Nat.min_le_right ..) le_low
      · refine Nat.le_trans (low_le_low g) (le hys g (sub g hg) ⟨owner.1, fun k hk hkx => ?_⟩)
        rw [opened_w, ← opened] at hk
        rcases List.mem_cons.1 hk with rfl | hk
        · exact absurd hkx inside
        · exact owner.2 k hk hkx

omit [Ord α] [Std.TransOrd α] [Std.LawfulEqOrd α] in
theorem split_stack {v : α} {stack : List α} (h : v ∈ stack) :
    stack = stack.takeWhile (· != v) ++ v :: (stack.dropWhile (· != v)).tail ∧
      v ∉ stack.takeWhile (· != v) := by
  induction stack with
  | nil => simp at h
  | cons a stack ih =>
    by_cases ha : a = v
    · simp [ha]
    · obtain ⟨split, absent⟩ := ih ((List.mem_cons.1 h).resolve_left fun e => ha e.symm)
      rw [List.takeWhile_cons_of_pos (by simpa using ha),
        List.dropWhile_cons_of_pos (by simpa using ha), List.cons_append]
      refine ⟨congrArg (a :: ·) split, ?_⟩
      rw [List.mem_cons, not_or]
      exact ⟨fun e => ha e.symm, absent⟩

theorem emit_cuts {v : α} (hv : v ∈ w.stack) (frames : List (Frame α)) :
    ∃ taken, Cuts v taken w ({ w with frames }.emit v) := by
  obtain ⟨split, absent⟩ := split_stack hv
  refine ⟨w.stack.takeWhile (· != v), split, absent, rfl, mem_emit { w with frames } v,
    size_unflag _ _, index_emit { w with frames } v, low_emit { w with frames } v, fun x => ?_⟩
  have flag := flag_emit { w with frames } v x
  rw [flag, Bool.and_eq_true, Bool.not_eq_true', decide_eq_false_iff_not]

/-- A vertex that leads no further down is taken off the stack with what lies above it. -/
theorem emit (h : Sound successors before roots w) {v : α} (hw : w.frames = ⟨v, []⟩ :: outer)
    (eq : w.low v = w.index v) :
    Sound successors before roots ({ w with frames := outer }.emit v) := by
  have hv : v ∈ w.opened := opened_eq hw ▸ List.mem_cons_self ..
  obtain ⟨taken, cuts⟩ := emit_cuts (h.mem_stack hv) outer
  refine ⟨cuts.shape h.shape (fun x hx y hy => ?_) (fun x hx y hy => ?_), cuts.lowlinks h hw rfl⟩
  · obtain ⟨hxs, -⟩ := (cuts.mem_taken h.shape.ordered).1 hx
    obtain ⟨hys, le⟩ := (cuts.mem_taken h.shape.ordered).1 hy
    exact (h.reaches_innermost hw hxs).trans (h.lowlinks.above v hv y hys le)
  · obtain ⟨hxs, le⟩ := (cuts.mem_taken h.shape.ordered).1 hx
    rcases h.lowlinks.explored x hxs y hy with waits | ⟨hym, bound⟩
    · rw [hw] at waits
      obtain ⟨g, hg, rfl, -⟩ := unexplored_outer waits
      exact absurd (h.innermost hw (List.mem_map_of_mem hg)) (Nat.not_lt.2 le)
    · rcases (h.shape.visited y).1 hym with hyb | hys | hyf
      · exact .inr (.inr hyb)
      · -- the lowlink of `v` bounds the edges out of everything above it
        refine .inl ((cuts.mem_taken h.shape.ordered).2 ⟨hys, ?_⟩)
        rw [← eq]
        exact bound hys v hv ⟨le, fun g hg _ => h.innermost_le hw hg⟩
      · exact .inr (.inl hyf)

/-! ## A step -/

theorem leave (h : Sound successors before roots w) {v : α} (hw : w.frames = ⟨v, []⟩ :: outer) :
    Sound successors before roots ({ w with frames := outer }.leave v) := by
  have hv : v ∈ w.opened := opened_eq hw ▸ List.mem_cons_self ..
  obtain ⟨m, hm⟩ := Option.isSome_iff_exists.1 (Std.ExtTreeMap.mem_iff_isSome_getElem?.1
    (h.shape.mem_marks (h.mem_stack hv)))
  obtain ⟨index, low, -⟩ := Search.mark_eq hm
  have le := h.lowlinks.low_le v hv
  unfold Walk.leave
  simp only [hm, ← low, ← index]
  cases outer with
  | nil =>
    -- nothing lies below the first vertex, so its lowlink is its index
    obtain ⟨u, hu, eq, -⟩ := h.lowlinks.low_reached v hv
    obtain ⟨g, hg, le', -⟩ := h.reaches_opened _ u rfl hu
    rw [opened_eq hw, List.map_nil, List.mem_singleton] at hg
    subst hg
    have only : w.low g = w.index g := by omega
    rw [if_pos only]
    exact h.emit hw only
  | cons p outer =>
    by_cases only : w.low v = w.index v
    · have lt : w.index p.vertex < w.index v := h.innermost hw (by simp)
      have le_p := h.lowlinks.low_le p.vertex (by rw [opened_eq hw]; simp)
      have same : ({ w with frames := p :: outer }.lowerParent (w.low v)) =
          { w with frames := p :: outer } := by
        refine lower_of_le ?_
        change w.low p.vertex ≤ w.low v
        omega
      rw [if_pos only, same]
      exact h.emit hw only
    · rw [if_neg only]
      exact h.pass hw (by omega)

theorem step (h : Sound successors before roots w) {w' : Walk α}
    (next : w.step successors = some w') : Sound successors before roots w' := by
  unfold Walk.step at next
  split at next
  · cases next
  · rename_i v outer hw
    obtain rfl := Option.some.inj next
    exact h.leave hw
  · rename_i v u rest outer hw
    simp only at next
    split at next
    · rename_i new
      obtain rfl := Option.some.inj next
      refine h.discover hw fun hu => ?_
      rw [Std.ExtTreeMap.mem_iff_isSome_getElem?, new] at hu
      cases hu
    · rename_i m hm
      obtain rfl := Option.some.inj next
      have hu : u ∈ w.marks := by rw [Std.ExtTreeMap.mem_iff_isSome_getElem?, hm]; rfl
      obtain ⟨index, -, flag⟩ := Search.mark_eq hm
      by_cases on : u ∈ w.stack
      · rw [if_pos (by rw [← flag]; exact (h.shape.flag u).2 on)]
        have low := low_lower { w with frames := ⟨v, rest⟩ :: outer } v m.index
        refine h.advance hw hu (alike_lower w _ v m.index) rfl (fun x hx => ?_) ?_ (fun _ => ?_) ?_
        · rw [low, if_neg (Ne.symm hx)]
        · rw [low, if_pos rfl]
          exact Nat.min_le_left ..
        · rw [low, if_pos rfl, index]
          exact Nat.min_le_right ..
        · rw [low, if_pos rfl, index]
          exact (Nat.le_total (w.low v) m.index).imp Nat.min_eq_left
            fun le => ⟨on, Nat.min_eq_right le⟩
      · rw [if_neg (by rw [← flag]; exact fun e => on ((h.shape.flag u).1 e))]
        exact h.advance hw hu ⟨fun _ => .rfl, rfl, fun _ => rfl, fun _ => rfl, rfl, rfl⟩ rfl
          (fun _ _ => rfl) (Nat.le_refl _) (fun e => absurd e on) (.inl rfl)

end Sound

end Walk

end LiveItems.Graph
