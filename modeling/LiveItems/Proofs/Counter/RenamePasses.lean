import Mathlib.Algebra.BigOperators.Group.Finset.Basic
import LiveItems.Proofs.Counter.Collection
import LiveItems.Proofs.Counter.Rename
import LiveItems.Proofs.Graph.Rename
set_option autoImplicit false

namespace LiveItems

open LiveItems.Action (Echoes)

variable (f : ItemId ↪ ItemId)

namespace Counter

variable (c : Counter) (a : ItemId)

theorem successors_rename : (c.rename f).successors (f a) = (c.successors a).map f := by
  rw [successors, edges_rename, OrderedMap.keys_rekey, successors]

theorem ids_rename : (c.rename f).ids = c.ids.map f := by
  refine Finset.ext fun b => ?_
  rw [Finset.mem_map, mem_ids, isTracked_iff]
  constructor
  · rintro ⟨e, found⟩
    obtain ⟨a, old, known, rfl, -⟩ := (Table.getElem?_rekey_eq_some_iff f _ _).1 found
    exact ⟨a, mem_ids.2 ((isTracked_iff c a).2 ⟨old, known⟩), rfl⟩
  · rintro ⟨a, tracked, rfl⟩
    obtain ⟨e, found⟩ := (isTracked_iff c a).1 (mem_ids.1 tracked)
    exact ⟨e.rename f, by rw [get?_rename, found, Option.map_some]⟩

theorem edgeCount_rename : (c.rename f).edgeCount = c.edgeCount := by
  rw [edgeCount_eq, ids_rename, Finset.sum_map, edgeCount_eq]
  refine Finset.sum_congr rfl fun a _ => ?_
  rw [successors_rename, List.length_map]

theorem internalReferences_rename (ids : List ItemId) :
    (c.rename f).internalReferences (ids.map f) = Table.rekey f id (c.internalReferences ids) := by
  have counted : ∀ (es : List (ItemId × Nat)) (refs : Std.ExtTreeMap ItemId Nat),
      (renameChildren f es).foldl (fun refs e => refs.modify e.1 (· + e.2))
          (Table.rekey f id refs) =
        Table.rekey f id (es.foldl (fun refs e => refs.modify e.1 (· + e.2)) refs) := by
    intro es refs
    rw [renameChildren, List.foldl_map]
    exact List.foldl_hom (Table.rekey f id) fun refs e => Table.modify_rekey_id f refs e.1 _
  have zeros := Table.foldl_insert_rekey f 0 ids {}
  rw [Table.rekey_empty] at zeros
  rw [internalReferences, internalReferences, zeros, List.foldl_map]
  refine List.foldl_hom (Table.rekey f id) fun refs a => ?_
  rw [edges_rename, OrderedMap.toList_rekey]
  exact counted _ refs

theorem isUnreachable_rename (ids : List ItemId) :
    (c.rename f).isUnreachable (ids.map f) = c.isUnreachable ids := by
  rw [isUnreachable, isUnreachable, internalReferences_rename, List.all_map]
  congr 1
  refine funext fun a => ?_
  have total := Table.getD_rekey f id (c.internalReferences ids) a 0
  simp only [Function.comp_apply, get?_rename]
  cases c.get? a with
  | none => rfl
  | some e => exact congrArg (fun n => e.roots == 0 && e.references == n) total

/-- The candidates, the edges and with them the components of a pass keep their orders. -/
theorem candidateComponents_rename :
    (c.rename f).candidateComponents =
      (c.candidateComponents.1.map (List.map f), c.candidateComponents.2.rename f) := by
  have starts : (c.rename f).candidates.keys.filter (c.rename f).isTracked =
      (c.candidates.keys.filter c.isTracked).map f := by
    rw [rename, OrderedMap.keys_rekey, List.filter_map]
    congr 2
    exact funext fun a => isTracked_rename f c a
  rw [candidateComponents, starts, size_tracked_rename, edgeCount_rename, candidateComponents]
  exact Graph.Search.components_rename f {} (successors_rename f c) _ _

end Counter

namespace Pass

def rename (p : Pass) : Pass where
  counter := p.counter.rename f
  collected := p.collected.map f

variable {f}

theorem onCounter_echoes {α β : Type} {g : α → β} {x : Action Counter α} {y : Action Counter β}
    (echoes : Echoes f g (Counter.rename f) y x) :
    Echoes f g (rename f) (onCounter y) (onCounter x) :=
  echoes.onPart (fun _ => rfl) fun _ _ => rfl

theorem releaseOutside_echoes (members : Std.ExtTreeMap ItemId Unit)
    (children : List (ItemId × Nat)) :
    Echoes f id (rename f)
      (releaseOutside (Table.rekey f id members) (Counter.renameChildren f children))
      (releaseOutside members children) := by
  induction children with
  | nil => exact .pure _
  | cons e children ih =>
    obtain ⟨child, n⟩ := e
    refine .ite (by rw [Table.contains_rekey]) ?_ ih
    exact (onCounter_echoes (Counter.release_echoes child n)).bind fun _ => ih

theorem freeComponent_echoes (ids : List ItemId) :
    Echoes f id (rename f) (freeComponent (ids.map f)) (freeComponent ids) := by
  refine .get_bind fun p => ?_
  have members := Table.foldl_insert_rekey f () ids {}
  rw [Table.rekey_empty] at members
  have entries : (ids.map f).filterMap (p.counter.rename f).get? =
      (ids.filterMap p.counter.get?).map (Entry.rename f) := by
    rw [List.filterMap_map, List.map_filterMap]
    congr 1
    exact funext fun a => Counter.get?_rename f p.counter a
  have erased : ∀ c : Counter,
      (ids.map f).foldl (fun c id => (c.eraseEntry id).dropCandidate id) (c.rename f) =
        (ids.foldl (fun c id => (c.eraseEntry id).dropCandidate id) c).rename f := by
    intro c
    rw [List.foldl_map]
    exact List.foldl_hom (Counter.rename f) fun c a => by
      rw [Counter.eraseEntry_rename, Counter.dropCandidate_rename]
  have weight : ∀ (es : List Entry),
      (es.map (Entry.rename f)).foldl (fun n e => n + e.weight) 0 =
        es.foldl (fun n e => n + e.weight) 0 := fun es => List.foldl_map ..
  simp only [rename, members, entries, weight]
  refine (Echoes.modify fun p => ?_).bind fun _ => ?_
  · exact congrArg (fun c => ({ counter := c, collected := p.collected.map f } : Pass))
      (erased p.counter)
  refine (onCounter_echoes (Counter.decrease_echoes _)).bind fun _ => ?_
  refine (Echoes.modify fun p => ?_).bind fun _ => ?_
  · simp only [rename, List.map_append]
  refine .forM (fun e => ?_) _
  have children : (e.rename f).edges.toList = Counter.renameChildren f e.edges.toList :=
    OrderedMap.toList_rekey f id e.edges
  rw [children]
  exact releaseOutside_echoes _ e.edges.toList

theorem judge_echoes (components : List (List ItemId)) :
    Echoes f id (rename f) (judge (components.map (List.map f))) (judge components) := by
  induction components with
  | nil => exact .pure _
  | cons ids components ih =>
    refine .get_bind fun p => ?_
    refine .ite ?_ ((freeComponent_echoes ids).bind fun _ => ih) ih
    exact iff_of_eq (congrArg (· = true) (Counter.isUnreachable_rename f p.counter ids))

theorem sweep_echoes : Echoes f id (rename f) sweep sweep := by
  refine .get_bind fun p => .ite ?_ (.pure _) ?_
  · exact iff_of_eq (congrArg (· = true) (OrderedMap.isEmpty_rekey f id p.counter.candidates))
  have found := Counter.candidateComponents_rename f p.counter
  simp only [rename, found]
  rcases p.counter.candidateComponents with ⟨components, search⟩
  refine (Echoes.modify fun p => ?_).bind fun _ => ?_
  · simp only [rename, Counter.rename, OrderedMap.rekey_empty]
  rw [← List.map_reverse]
  refine (judge_echoes _).bind fun _ => .modify fun p => ?_
  -- which candidates stay depends on the marks of the search, which are renamed as well
  have unvisited := OrderedMap.filterKeys_rekey f id p.counter.candidates
    (p := fun a => !search.marks.contains a)
    (q := fun a => !(search.rename f).marks.contains a)
    fun a => congrArg (! ·) (Table.contains_rekey f id search.marks a)
  simp only [rename, Counter.rename, unvisited, List.length_map]

end Pass

end LiveItems
