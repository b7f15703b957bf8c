import LiveItems.Graph.Components
import LiveItems.Proofs.Rekey
set_option autoImplicit false

namespace LiveItems.Graph

open Std (TransOrd LawfulEqOrd)

variable {α γ : Type} [Ord α] [TransOrd α] [LawfulEqOrd α] [Ord γ] [TransOrd γ] [LawfulEqOrd γ]
  (f : α ↪ γ)

def Search.rename (s : Search α) : Search γ where
  marks := Table.rekey f id s.marks
  stack := s.stack.map f

def Frame.rename (frame : Frame α) : Frame γ := ⟨f frame.vertex, frame.unexplored.map f⟩

namespace Walk

def rename (w : Walk α) : Walk γ where
  toSearch := w.toSearch.rename f
  frames := w.frames.map (Frame.rename f)
  found := w.found.map (List.map f)

variable (w : Walk α) (v : α)

@[simp] theorem mark_rename : (w.rename f).marks[f v]? = w.marks[v]? := by
  simp only [rename, Search.rename, Table.getElem?_rekey, Option.map_id, id]

theorem discover_rename (successors : List α) :
    (w.rename f).discover (f v) (successors.map f) = (w.discover v successors).rename f := by
  simp only [discover, rename, Search.rename, Table.size_rekey, ← Table.insert_rekey, id,
    List.map_cons, Frame.rename]

theorem lower_rename (index : Nat) :
    (w.rename f).lower (f v) index = (w.lower v index).rename f := by
  simp only [lower, rename, Search.rename, Table.modify_rekey_id]

theorem lowerParent_rename (index : Nat) :
    (w.rename f).lowerParent index = (w.lowerParent index).rename f := by
  rcases w with ⟨s, _ | ⟨parent, outer⟩, found⟩
  · rfl
  · exact lower_rename f ⟨s, parent :: outer, found⟩ parent.vertex index

variable [DecidableEq α] [DecidableEq γ]

theorem emit_rename : (w.rename f).emit (f v) = (w.emit v).rename f := by
  have test : (fun a => a != f v) ∘ f = fun a => a != v :=
    funext fun a => congrArg (! ·) (decide_eq_decide.2 f.injective.eq_iff)
  have members : (w.stack.map f).takeWhile (· != f v) ++ [f v] =
      (w.stack.takeWhile (· != v) ++ [v]).map f := by
    rw [List.takeWhile_map, test, List.map_append, List.map_singleton]
  have rest : ((w.stack.map f).dropWhile (· != f v)).tail =
      ((w.stack.dropWhile (· != v)).tail).map f := by
    rw [List.dropWhile_map, test, List.map_tail]
  simp only [emit, rename, Search.rename, members, rest, Table.foldl_modify_rekey,
    List.map_cons]

theorem leave_rename : (w.rename f).leave (f v) = (w.leave v).rename f := by
  rw [leave, mark_rename, leave]
  cases w.marks[v]? with
  | none => rfl
  | some m =>
    simp only [lowerParent_rename]
    split
    · exact emit_rename f _ v
    · rfl

variable {successors : α → List α} {successors' : γ → List γ}
  (edges : ∀ v, successors' (f v) = (successors v).map f)

include edges

theorem step_rename : (w.rename f).step successors' = (w.step successors).map (rename f) := by
  rcases w with ⟨s, _ | ⟨⟨v, _ | ⟨u, rest⟩⟩, outer⟩, found⟩
  · rfl
  · exact congrArg some (leave_rename f ⟨s, outer, found⟩ v)
  · -- the next successor has the same mark under both names, or none under either
    have met := mark_rename f ⟨s, ⟨v, rest⟩ :: outer, found⟩ u
    simp only [rename, List.map_cons, Frame.rename, step] at met ⊢
    rw [met]
    cases s.marks[u]? with
    | none =>
      rw [edges]
      exact congrArg some (discover_rename f ⟨s, ⟨v, rest⟩ :: outer, found⟩ u (successors u))
    | some m =>
      refine congrArg some ?_
      split
      · exact lower_rename f ⟨s, ⟨v, rest⟩ :: outer, found⟩ v m.index
      · rfl

theorem run_rename (fuel : Nat) (w : Walk α) :
    (w.rename f).run successors' fuel = (w.run successors fuel).rename f := by
  induction fuel generalizing w with
  | zero => rfl
  | succ fuel ih =>
    rw [run, step_rename f w edges, run]
    cases w.step successors with
    | none => rfl
    | some next => exact ih next

theorem explore_rename (fuel : Nat) (root : α) :
    (w.rename f).explore successors' fuel (f root) = (w.explore successors fuel root).rename f := by
  have known : (w.rename f).marks.contains (f root) = w.marks.contains root :=
    Table.contains_rekey ..
  rw [explore, known, explore]
  split
  · rfl
  · rw [edges, discover_rename, run_rename f edges]

end Walk

/-- The components come out in the same order, each with its members in the same order. -/
theorem Search.components_rename [DecidableEq α] [DecidableEq γ] (s : Search α)
    {successors : α → List α} {successors' : γ → List γ}
    (edges : ∀ v, successors' (f v) = (successors v).map f) (fuel : Nat) (roots : List α) :
    (s.rename f).components successors' fuel (roots.map f) =
      ((s.components successors fuel roots).1.map (List.map f),
        (s.components successors fuel roots).2.rename f) := by
  have walked : ∀ w : Walk α, (roots.map f).foldl (Walk.explore successors' fuel) (w.rename f) =
      (roots.foldl (Walk.explore successors fuel) w).rename f := by
    intro w
    rw [List.foldl_map]
    exact List.foldl_hom (Walk.rename f) fun w root => Walk.explore_rename f w edges fuel root
  have whole := walked { toSearch := s }
  exact Prod.ext ((congrArg (fun w => w.found.reverse) whole).trans List.map_reverse.symm)
    (congrArg Walk.toSearch whole)

end LiveItems.Graph
