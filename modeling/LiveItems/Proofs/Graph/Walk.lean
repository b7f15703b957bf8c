import Mathlib.Algebra.GroupWithZero.Nat
import Mathlib.Data.List.Nodup
import Mathlib.Logic.Relation
import LiveItems.Graph.Components
set_option autoImplicit false

/-!
# The depth-first search step by step

What holds between the steps of the search. The stack lists the vertices of unfinished components,
and each of them leads to the innermost vertex under exploration that is no later. Such a vertex
leads to everything above it, and its lowlink bounds all edges from there back into the stack. So
when it is left with its own index as lowlink, what lies above it is a component: `Sound.emit`.
-/

namespace LiveItems.Graph

variable {α : Type}

def Reaches (successors : α → List α) : α → α → Prop :=
  Relation.ReflTransGen fun u v => v ∈ successors u

/-- Each list of vertices is not empty and connected, and edges out of it lead to itself, to the
lists behind it, or to what came before. -/
def Layers (successors : α → List α) (before : Set α) : List (List α) → Prop
  | [] => True
  | c :: cs =>
    c ≠ [] ∧ (∀ u ∈ c, ∀ v ∈ c, Reaches successors u v) ∧
    (∀ u ∈ c, ∀ v ∈ successors u, v ∈ c ∨ v ∈ cs.flatten ∨ v ∈ before) ∧
    Layers successors before cs

theorem Layers.closed {successors : α → List α} {before : Set α} {cs : List (List α)}
    (h : Layers successors before cs) {u v : α} (hu : u ∈ cs.flatten) (hv : v ∈ successors u) :
    v ∈ cs.flatten ∨ v ∈ before := by
  induction cs with
  | nil => simp at hu
  | cons c cs ih =>
    rw [List.flatten_cons, List.mem_append] at hu ⊢
    rcases hu with hu | hu
    · exact (h.2.2.1 u hu v hv).elim (fun hv => .inl (.inl hv)) (Or.imp_left .inr)
    · exact (ih h.2.2.2 hu).imp_left .inr

theorem Layers.drop {successors : α → List α} {before : Set α} {done rest : List (List α)}
    (h : Layers successors before (done ++ rest)) : Layers successors before rest := by
  induction done with
  | nil => exact h
  | cons c done ih => exact ih h.2.2.2

theorem Layers.later {successors : α → List α} {done rest : List (List α)}
    (h : Layers successors ∅ (done ++ rest)) {u v : α} (hu : u ∈ rest.flatten)
    (path : Reaches successors u v) : v ∈ rest.flatten := by
  induction path with
  | refl => exact hu
  | tail _ edge ih => exact (h.drop.closed ih edge).resolve_right fun none => none

def component (successors : α → List α) (u : α) : Set α :=
  {v | Reaches successors u v ∧ Reaches successors v u}

/-- A list that comes with all that it leads to is a component. -/
theorem Layers.eq_component {successors : α → List α} {k : List α} {cs : List (List α)}
    (h : Layers successors ∅ cs) (nodup : cs.flatten.Nodup) (hk : k ∈ cs) {u : α} (hu : u ∈ k) :
    {v | v ∈ k} = component successors u := by
  obtain ⟨done, rest, rfl⟩ := List.append_of_mem hk
  have connected := h.drop.2.1
  have apart : ∀ v ∈ k, v ∉ rest.flatten := by
    rw [List.flatten_append, List.flatten_cons, List.nodup_append, List.nodup_append] at nodup
    exact fun v hv hr => nodup.2.1.2.2 v hv v hr rfl
  ext v
  refine ⟨fun hv => ⟨connected u hu v hv, connected v hv u hu⟩, fun ⟨there, back⟩ => ?_⟩
  have here : u ∈ (k :: rest).flatten := List.mem_flatten.2 ⟨k, List.mem_cons_self, hu⟩
  have hv := h.later here there
  rw [List.flatten_cons, List.mem_append] at hv
  refine hv.resolve_right fun hr => apart u hu ?_
  have shifted : Layers successors ∅ ((done ++ [k]) ++ rest) := by
    rwa [List.append_assoc, List.singleton_append]
  exact shifted.later hr back

section Marks

variable [Ord α] [Std.TransOrd α]

namespace Search

def index (s : Search α) (v : α) : Nat := (s.marks[v]?).elim 0 (·.index)

def low (s : Search α) (v : α) : Nat := (s.marks[v]?).elim 0 (·.lowlink)

def flag (s : Search α) (v : α) : Bool := (s.marks[v]?).elim false (·.onStack)

theorem mark_eq {s : Search α} {v : α} {m : Mark} (h : s.marks[v]? = some m) :
    s.index v = m.index ∧ s.low v = m.lowlink ∧ s.flag v = m.onStack := by
  simp [index, low, flag, h]

end Search

namespace Walk

theorem mem_lower (w : Walk α) (v : α) (i : Nat) (x : α) :
    x ∈ (w.lower v i).marks ↔ x ∈ w.marks := Std.ExtTreeMap.mem_modify

theorem size_unflag (members : List α) :
    ∀ marks : Std.ExtTreeMap α Mark,
      (members.foldl (fun marks v => marks.modify v fun m => { m with onStack := false })
          marks).size = marks.size := by
  induction members with
  | nil =>
    intro marks
    rfl
  | cons v members ih =>
    intro marks
    rw [List.foldl_cons, ih, Std.ExtTreeMap.size_modify]

theorem size_discover {w : Walk α} {v : α} (new : v ∉ w.marks) (us : List α) :
    (w.discover v us).marks.size = w.marks.size + 1 := by
  rw [discover, Std.ExtTreeMap.size_insert, if_neg (by simpa using new)]

variable {successors : α → List α} {before roots : Set α}

/-- The visited vertices are those from before, those on the stack, and those of the components
found, which are components of what can be reached from the roots. -/
structure Shape (successors : α → List α) (before roots : Set α) (w : Walk α) : Prop where
  visited : ∀ x, x ∈ w.marks ↔ x ∈ before ∨ x ∈ w.stack ∨ x ∈ w.found.flatten
  flag : ∀ x, w.flag x = true ↔ x ∈ w.stack
  nodup : (w.stack ++ w.found.flatten).Nodup
  apart : ∀ x ∈ w.stack ++ w.found.flatten, x ∉ before
  bound : ∀ x ∈ w.marks, w.index x < w.marks.size
  ordered : w.stack.Pairwise fun x y => w.index y < w.index x
  layers : Layers successors before w.found
  reached : ∀ x ∈ w.stack ++ w.found.flatten, ∃ r ∈ roots, Reaches successors r x

structure Alike (w w' : Walk α) : Prop where
  marks : ∀ x, x ∈ w'.marks ↔ x ∈ w.marks
  size : w'.marks.size = w.marks.size
  index : ∀ x, w'.index x = w.index x
  flag : ∀ x, w'.flag x = w.flag x
  stack : w'.stack = w.stack
  found : w'.found = w.found

theorem Shape.alike {w w' : Walk α} (h : Shape successors before roots w) (same : w.Alike w') :
    Shape successors before roots w' := by
  constructor
  · intro x
    rw [same.marks, same.stack, same.found]
    exact h.visited x
  · intro x
    rw [same.flag, same.stack]
    exact h.flag x
  · rw [same.stack, same.found]
    exact h.nodup
  · rw [same.stack, same.found]
    exact h.apart
  · intro x hx
    rw [same.index, same.size]
    exact h.bound x ((same.marks x).1 hx)
  · simp only [same.stack, same.index]
    exact h.ordered
  · rw [same.found]
    exact h.layers
  · rw [same.stack, same.found]
    exact h.reached

theorem Shape.mem_marks {w : Walk α} (h : Shape successors before roots w) {x : α}
    (hx : x ∈ w.stack) : x ∈ w.marks := (h.visited x).2 (.inr (.inl hx))

/-- The stack tells vertices apart by their indices. -/
theorem Shape.index_inj {w : Walk α} (h : Shape successors before roots w) {x y : α}
    (hx : x ∈ w.stack) (hy : y ∈ w.stack) (same : w.index x = w.index y) : x = y := by
  have distinct : (w.stack.map w.index).Nodup :=
    List.pairwise_map.2 (h.ordered.imp fun lt => Nat.ne_of_gt lt)
  exact List.inj_on_of_nodup_map distinct hx hy same

variable [Std.LawfulEqOrd α]

theorem getElem?_discover [DecidableEq α] (w : Walk α) (v : α) (us : List α) (x : α) :
    (w.discover v us).marks[x]? =
      if v = x then some ⟨w.marks.size, w.marks.size, true⟩ else w.marks[x]? := by
  simp only [discover, Std.ExtTreeMap.getElem?_insert, Std.compare_eq_iff_eq]

theorem mem_discover (w : Walk α) (v : α) (us : List α) (x : α) :
    x ∈ (w.discover v us).marks ↔ v = x ∨ x ∈ w.marks := by
  simp only [discover, Std.ExtTreeMap.mem_insert, Std.compare_eq_iff_eq]

theorem getElem?_lower [DecidableEq α] (w : Walk α) (v : α) (i : Nat) (x : α) :
    (w.lower v i).marks[x]? =
      (w.marks[x]?).map fun m : Mark =>
        if v = x then { m with lowlink := min m.lowlink i } else m := by
  simp only [lower, Std.ExtTreeMap.getElem?_modify, Std.compare_eq_iff_eq]
  split
  · subst_vars
    rfl
  · exact Option.map_id'.symm

variable [DecidableEq α]

theorem index_discover (w : Walk α) (v : α) (us : List α) (x : α) :
    (w.discover v us).index x = if v = x then w.marks.size else w.index x := by
  unfold Search.index
  rw [getElem?_discover]
  split <;> rfl

theorem low_discover (w : Walk α) (v : α) (us : List α) (x : α) :
    (w.discover v us).low x = if v = x then w.marks.size else w.low x := by
  unfold Search.low
  rw [getElem?_discover]
  split <;> rfl

theorem flag_discover (w : Walk α) (v : α) (us : List α) (x : α) :
    (w.discover v us).flag x = if v = x then true else w.flag x := by
  unfold Search.flag
  rw [getElem?_discover]
  split <;> rfl

theorem index_lower (w : Walk α) (v : α) (i : Nat) (x : α) :
    (w.lower v i).index x = w.index x := by
  unfold Search.index
  rw [getElem?_lower]
  cases w.marks[x]? with
  | none => rfl
  | some m =>
    simp only [Option.map_some, Option.elim_some]
    split <;> rfl

theorem flag_lower (w : Walk α) (v : α) (i : Nat) (x : α) : (w.lower v i).flag x = w.flag x := by
  unfold Search.flag
  rw [getElem?_lower]
  cases w.marks[x]? with
  | none => rfl
  | some m =>
    simp only [Option.map_some, Option.elim_some]
    split <;> rfl

theorem low_lower (w : Walk α) (v : α) (i : Nat) (x : α) :
    (w.lower v i).low x = if v = x then min (w.low x) i else w.low x := by
  unfold Search.low
  rw [getElem?_lower]
  cases w.marks[x]? with
  | none => simp
  | some m =>
    simp only [Option.map_some, Option.elim_some]
    split <;> rfl

theorem lower_of_le {w : Walk α} {v : α} {i : Nat} (h : w.low v ≤ i) : w.lower v i = w := by
  have same : (w.lower v i).marks = w.marks := by
    refine Std.ExtTreeMap.ext_getElem? fun x => ?_
    rw [getElem?_lower]
    cases hm : w.marks[x]? with
    | none => rfl
    | some m =>
      rw [Option.map_some]
      split
      · subst_vars
        rw [(Search.mark_eq hm).2.1] at h
        rw [Nat.min_eq_left h]
      · rfl
  unfold lower at same ⊢
  simp only at same
  rw [same]

theorem getElem?_unflag (members : List α) :
    ∀ (marks : Std.ExtTreeMap α Mark) (x : α),
      (members.foldl (fun marks v => marks.modify v fun m => { m with onStack := false })
          marks)[x]? =
        (marks[x]?).map fun m : Mark =>
          { m with onStack := m.onStack && !decide (x ∈ members) } := by
  induction members with
  | nil =>
    intro marks x
    simp
  | cons v members ih =>
    intro marks x
    rw [List.foldl_cons, ih, Std.ExtTreeMap.getElem?_modify]
    by_cases hv : v = x
    · subst hv
      cases marks[v]? <;> simp
    · have ne : ¬compare v x = .eq := fun e => hv (Std.compare_eq_iff_eq.1 e)
      rw [if_neg ne]
      simp [Ne.symm hv]

theorem index_emit (w : Walk α) (v x : α) : (w.emit v).index x = w.index x := by
  unfold Search.index emit
  simp only [getElem?_unflag]
  cases w.marks[x]? <;> rfl

theorem low_emit (w : Walk α) (v x : α) : (w.emit v).low x = w.low x := by
  unfold Search.low emit
  simp only [getElem?_unflag]
  cases w.marks[x]? <;> rfl

theorem mem_emit (w : Walk α) (v x : α) : x ∈ (w.emit v).marks ↔ x ∈ w.marks := by
  unfold emit
  simp only [Std.ExtTreeMap.mem_iff_isSome_getElem?, getElem?_unflag, Option.isSome_map]

theorem flag_emit (w : Walk α) (v x : α) :
    (w.emit v).flag x = (w.flag x && !decide (x ∈ w.stack.takeWhile (· != v) ++ [v])) := by
  unfold Search.flag emit
  simp only [getElem?_unflag]
  cases w.marks[x]? <;> rfl

theorem alike_lower (w : Walk α) (frames : List (Frame α)) (v : α) (i : Nat) :
    w.Alike ({ w with frames }.lower v i) :=
  ⟨mem_lower _ v i, Std.ExtTreeMap.size_modify, index_lower _ v i, flag_lower _ v i, rfl, rfl⟩

theorem Shape.discover {w : Walk α} (h : Shape successors before roots w) {u : α}
    (new : u ∉ w.marks) (reached : ∃ r ∈ roots, Reaches successors r u) (frames : List (Frame α))
    (us : List α) : Shape successors before roots ({ w with frames }.discover u us) := by
  have new' : u ∉ before ∧ u ∉ w.stack ∧ u ∉ w.found.flatten := by
    rw [h.visited] at new
    tauto
  have other : ∀ x ∈ w.marks, ({ w with frames }.discover u us).index x = w.index x := by
    intro x hx
    rw [index_discover, if_neg]
    rintro rfl
    exact new hx
  have self : ({ w with frames }.discover u us).index u = w.marks.size := by
    rw [index_discover, if_pos rfl]
  have size : ({ w with frames }.discover u us).marks.size = w.marks.size + 1 :=
    size_discover (w := { w with frames }) new us
  have mem_stack : ∀ x, x ∈ ({ w with frames }.discover u us).stack ↔ x = u ∨ x ∈ w.stack :=
    fun x => List.mem_cons
  constructor
  · intro x
    rw [mem_discover, mem_stack]
    change u = x ∨ x ∈ w.marks ↔ x ∈ before ∨ (x = u ∨ x ∈ w.stack) ∨ x ∈ w.found.flatten
    rw [h.visited, eq_comm]
    tauto
  · intro x
    rw [flag_discover, mem_stack]
    by_cases hx : u = x
    · simp [hx]
    · rw [if_neg hx]
      change w.flag x = true ↔ _
      rw [h.flag]
      simp [Ne.symm hx]
  · exact List.nodup_cons.2 ⟨fun hu => (List.mem_append.1 hu).elim new'.2.1 new'.2.2, h.nodup⟩
  · intro x hx
    rcases List.mem_cons.1 hx with rfl | hx
    · exact new'.1
    · exact h.apart x hx
  · intro x hx
    rw [size]
    rcases (mem_discover _ u us x).1 hx with rfl | hx
    · rw [self]
      exact Nat.lt_succ_self _
    · rw [other x hx]
      exact Nat.lt_succ_of_lt (h.bound x hx)
  · refine List.pairwise_cons.2 ⟨fun x hx => ?_, ?_⟩
    · rw [self, other x (h.mem_marks hx)]
      exact h.bound x (h.mem_marks hx)
    · refine h.ordered.imp_of_mem fun hx hy lt => ?_
      rwa [other _ (h.mem_marks hx), other _ (h.mem_marks hy)]
  · exact h.layers
  · intro x hx
    rcases List.mem_cons.1 hx with rfl | hx
    · exact reached
    · exact h.reached x hx

end Walk

end Marks

end LiveItems.Graph
