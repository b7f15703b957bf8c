import Mathlib.Data.Set.Card
import LiveItems.Heap
set_option autoImplicit false

/-!
# Structs unfolded

What a struct looks like from inside, with every struct in it opened and everything else left
closed: a tree whose nodes are reached by paths of positions. A struct that occurs twice is opened
twice, and one that contains itself unfolds to an infinite tree. The size of the tree follows the
storage, as `spread_eq` says.
-/

namespace LiveItems

def nestedStructs : List Item → List ItemId
  | [] => []
  | .object .struct id :: xs => id :: nestedStructs xs
  | _ :: xs => nestedStructs xs

theorem nestedStructs_append (xs ys : List Item) :
    nestedStructs (xs ++ ys) = nestedStructs xs ++ nestedStructs ys := by
  fun_induction nestedStructs xs with
  | case1 => rfl
  | case2 id xs ih => simp [nestedStructs, ih]
  | case3 x xs other ih => simp [nestedStructs, ih]

theorem nestedStructs_of_not_struct {x : Item} (closed : ∀ id, x ≠ .object .struct id) :
    nestedStructs [x] = [] := by
  cases x with
  | leaf l => rfl
  | object kind id => cases kind <;> first | rfl | exact absurd rfl (closed id)

namespace Heap

/-- The item at the end of a path of positions. Only structs are entered. -/
def itemAt (h : Heap) : Item → List Nat → Option Item
  | x, [] => some x
  | .object .struct id, i :: path => (h.listItems id)[i]?.bind fun y => h.itemAt y path
  | _, _ :: _ => none

/-- How many child occurrences there are in the tree that a struct unfolds to. -/
noncomputable def spread (h : Heap) (id : ItemId) : ℕ∞ :=
  {path | path ≠ [] ∧ (h.itemAt (.object .struct id) path).isSome}.encard

variable {h : Heap} {id : ItemId} {x : Item}

@[simp] theorem itemAt_nil (h : Heap) (x : Item) : h.itemAt x [] = some x := by
  cases x with
  | leaf l => rfl
  | object kind id => cases kind <;> rfl

theorem itemAt_struct (h : Heap) (id : ItemId) (i : Nat) (path : List Nat) :
    h.itemAt (.object .struct id) (i :: path) =
      (h.listItems id)[i]?.bind fun y => h.itemAt y path := rfl

theorem itemAt_cons_of_not_struct (closed : ∀ id, x ≠ .object .struct id) (i : Nat)
    (path : List Nat) : h.itemAt x (i :: path) = none := by
  cases x with
  | leaf l => rfl
  | object kind id => cases kind <;> first | rfl | exact absurd rfl (closed id)

theorem itemAt_append (h : Heap) (x : Item) (p q : List Nat) :
    h.itemAt x (p ++ q) = (h.itemAt x p).bind fun y => h.itemAt y q := by
  fun_induction itemAt h x p with
  | case1 x => simp
  | case2 id i path ih =>
    rw [List.cons_append, itemAt_struct, Option.bind_assoc]
    exact Option.bind_congr fun y _ => ih y
  | case3 x i path closed =>
    have closed : ∀ id, x ≠ .object .struct id := fun id e => closed id e
    rw [List.cons_append, itemAt_cons_of_not_struct closed]
    rfl

theorem exists_of_itemAt_concat {p : List Nat} {i : Nat} {z : Item}
    (found : h.itemAt x (p ++ [i]) = some z) :
    ∃ b, h.itemAt x p = some (.object .struct b) ∧ (h.listItems b)[i]? = some z := by
  rw [itemAt_append] at found
  obtain ⟨y, parent, below⟩ := Option.bind_eq_some_iff.1 found
  by_cases opened : ∃ b, y = .object .struct b
  · obtain ⟨b, rfl⟩ := opened
    obtain ⟨w, at_i, same⟩ := Option.bind_eq_some_iff.1 below
    rw [itemAt_nil] at same
    exact ⟨b, parent, at_i.trans same⟩
  · have closed : ∀ b, y ≠ .object .struct b := fun b e => opened ⟨b, e⟩
    rw [itemAt_cons_of_not_struct closed] at below
    exact absurd below (by simp)

def pathsInto (h : Heap) (xs : List Item) : Set (List Nat) :=
  {path | ∃ i rest y, path = i :: rest ∧ xs[i]? = some y ∧ (h.itemAt y rest).isSome}

def deferred : List Nat → List Nat
  | [] => []
  | i :: path => (i + 1) :: path

theorem deferred_injective : Function.Injective deferred := by
  intro p q same
  cases p <;> cases q <;> simp_all [deferred]

theorem pathsInto_cons (h : Heap) (x : Item) (xs : List Item) :
    h.pathsInto (x :: xs) =
      (List.cons 0 '' {path | (h.itemAt x path).isSome}) ∪ deferred '' h.pathsInto xs := by
  ext path
  constructor
  · rintro ⟨i, rest, y, rfl, at_i, some⟩
    cases i with
    | zero =>
      obtain rfl := Option.some.inj at_i
      exact .inl ⟨rest, some, rfl⟩
    | succ i => exact .inr ⟨i :: rest, ⟨i, rest, y, rfl, at_i, some⟩, rfl⟩
  · rintro (⟨rest, some, rfl⟩ | ⟨_, ⟨i, rest, y, rfl, at_i, some⟩, rfl⟩)
    · exact ⟨0, rest, x, rfl, rfl, some⟩
    · exact ⟨i + 1, rest, y, rfl, at_i, some⟩

theorem encard_paths (h : Heap) (x : Item) :
    {path | (h.itemAt x path).isSome}.encard =
      ((nestedStructs [x]).map h.spread).sum + 1 := by
  have split : {path | (h.itemAt x path).isSome} =
      insert [] {path | path ≠ [] ∧ (h.itemAt x path).isSome} := by
    ext path
    cases path <;> simp
  rw [split, Set.encard_insert_of_notMem fun mem => mem.1 rfl]
  congr 1
  by_cases opened : ∃ id, x = .object .struct id
  · obtain ⟨id, rfl⟩ := opened
    simp [nestedStructs, spread]
  · have closed : ∀ id, x ≠ .object .struct id := fun id e => opened ⟨id, e⟩
    have empty : {path | path ≠ [] ∧ (h.itemAt x path).isSome} = ∅ := by
      refine Set.eq_empty_of_forall_notMem ?_
      rintro path ⟨proper, occurs⟩
      obtain ⟨i, rest, rfl⟩ := List.exists_cons_of_ne_nil proper
      exact absurd occurs (by simp [itemAt_cons_of_not_struct closed])
    rw [empty, Set.encard_empty, nestedStructs_of_not_struct closed]
    rfl

theorem encard_pathsInto (h : Heap) (xs : List Item) :
    (h.pathsInto xs).encard = xs.length + ((nestedStructs xs).map h.spread).sum := by
  induction xs with
  | nil =>
    have empty : h.pathsInto [] = ∅ := by
      refine Set.eq_empty_of_forall_notMem fun path => ?_
      rintro ⟨i, rest, y, -, at_i, -⟩
      exact absurd at_i (by simp)
    rw [empty, Set.encard_empty]
    rfl
  | cons x xs ih =>
    have apart : Disjoint (List.cons 0 '' {path | (h.itemAt x path).isSome})
        (deferred '' h.pathsInto xs) := by
      refine Set.disjoint_left.2 ?_
      rintro _ ⟨rest, -, rfl⟩ ⟨p, ⟨i, q, y, rfl, -⟩, same⟩
      exact absurd (List.cons.inj same).1 (Nat.succ_ne_zero i)
    rw [pathsInto_cons, Set.encard_union_eq apart, List.cons_injective.encard_image,
      deferred_injective.encard_image, ih, encard_paths,
      show nestedStructs (x :: xs) = _ from nestedStructs_append [x] xs, List.map_append,
      List.sum_append, List.length_cons, Nat.cast_add, Nat.cast_one]
    ac_rfl

/-- The items of a struct come first, and below them what the structs among them unfold to. -/
theorem spread_eq (h : Heap) (id : ItemId) :
    h.spread id =
      (h.listItems id).length + ((nestedStructs (h.listItems id)).map h.spread).sum := by
  rw [← encard_pathsInto, spread]
  congr 1
  ext path
  constructor
  · rintro ⟨proper, occurs⟩
    obtain ⟨i, rest, rfl⟩ := List.exists_cons_of_ne_nil proper
    obtain ⟨z, found⟩ := Option.isSome_iff_exists.1 occurs
    obtain ⟨y, at_i, below⟩ := Option.bind_eq_some_iff.1 found
    exact ⟨i, rest, y, rfl, at_i, Option.isSome_iff_exists.2 ⟨z, below⟩⟩
  · rintro ⟨i, rest, y, rfl, at_i, occurs⟩
    refine ⟨List.cons_ne_nil i rest, ?_⟩
    rwa [itemAt_struct, at_i, Option.bind_some]

/-- A struct with a struct in it that contains itself unfolds to an infinite tree. -/
theorem spread_eq_top {s : ItemId} {p q : List Nat} (proper : q ≠ [])
    (inside : h.itemAt (.object .struct id) p = some (.object .struct s))
    (again : h.itemAt (.object .struct s) q = some (.object .struct s)) : h.spread id = ⊤ := by
  have around : ∀ n, h.itemAt (.object .struct s) ((List.replicate n q).flatten) =
      some (.object .struct s) := by
    intro n
    induction n with
    | zero => exact itemAt_nil h _
    | succ n ih => rw [List.replicate_succ, List.flatten_cons, itemAt_append, again,
        Option.bind_some, ih]
  have longer : Function.Injective fun n => p ++ (List.replicate (n + 1) q).flatten := by
    intro i j same
    have lengths := congrArg List.length (List.append_cancel_left same)
    simp only [List.length_flatten, List.map_replicate, List.sum_replicate_nat] at lengths
    have := Nat.eq_of_mul_eq_mul_right (List.length_pos_of_ne_nil proper) lengths
    omega
  refine Set.encard_eq_top_iff.2 ((Set.infinite_range_of_injective longer).mono ?_)
  rintro _ ⟨n, rfl⟩
  refine ⟨?_, ?_⟩
  · simp [List.replicate_succ, proper]
  · rw [itemAt_append, inside, Option.bind_some, around]
    rfl

end Heap

end LiveItems
