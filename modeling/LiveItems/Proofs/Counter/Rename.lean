import LiveItems.Counter.Registration
import LiveItems.Counter.Release
import LiveItems.Proofs.Heap.Rename
set_option autoImplicit false

namespace LiveItems

open LiveItems.Action (Echoes)

variable (f : ItemId ↪ ItemId)

namespace Edges

variable (es : Edges) (child : ItemId)

@[simp] theorem multiplicity_rekey :
    multiplicity (es.rekey f id) (f child) = es.multiplicity child := by
  rw [multiplicity, OrderedMap.get?_rekey, Option.map_id, multiplicity]
  rfl

theorem add_rekey : add (es.rekey f id) (f child) = OrderedMap.rekey f id (es.add child) := by
  rw [add, multiplicity_rekey]
  exact OrderedMap.insert_rekey f id es child _

theorem remove_rekey :
    remove (es.rekey f id) (f child) = OrderedMap.rekey f id (es.remove child) := by
  rw [remove, multiplicity_rekey, remove]
  split
  · exact OrderedMap.swapErase_rekey f id es child
  · exact OrderedMap.swapErase_rekey f id es child
  · exact OrderedMap.insert_rekey f id es child _

end Edges

def Entry.rename (e : Entry) : Entry := { e with edges := e.edges.rekey f id }

namespace Counter

def rename (c : Counter) : Counter :=
  { c with
    tracked := Table.rekey f (Entry.rename f) c.tracked
    candidates := c.candidates.rekey f id }

variable (c : Counter) (a : ItemId)

@[simp] theorem rename_fresh : fresh.rename f = fresh := by
  simp only [rename, fresh, Table.rekey_empty, OrderedMap.rekey_empty]

@[simp] theorem get?_rename : (c.rename f).get? (f a) = (c.get? a).map (Entry.rename f) :=
  Table.getElem?_rekey ..

@[simp] theorem isTracked_rename : (c.rename f).isTracked (f a) = c.isTracked a :=
  Table.contains_rekey ..

@[simp] theorem size_tracked_rename : (c.rename f).tracked.size = c.tracked.size :=
  Table.size_rekey ..

@[simp] theorem edges_rename : (c.rename f).edges (f a) = (c.edges a).rekey f id := by
  rw [edges, get?_rename, edges]
  cases c.get? a with
  | none => exact (OrderedMap.rekey_empty _ _).symm
  | some e => rfl

@[simp] theorem rootCount_rename : (c.rename f).rootCount (f a) = c.rootCount a := by
  rw [rootCount, get?_rename, rootCount]
  cases c.get? a <;> rfl

@[simp] theorem referenceCount_rename : (c.rename f).referenceCount (f a) = c.referenceCount a := by
  rw [referenceCount, get?_rename, referenceCount]
  cases c.get? a <;> rfl

theorem resetPeak_rename : (c.rename f).resetPeak = c.resetPeak.rename f := rfl

theorem increase_rename (n : Nat) : (c.rename f).increase n = (c.increase n).rename f := rfl

theorem setEntry_rename (e : Entry) :
    (c.rename f).setEntry (f a) (e.rename f) = (c.setEntry a e).rename f := by
  simp only [setEntry, rename, Table.insert_rekey]

theorem modifyEntry_rename {u u' : Entry → Entry} (same : ∀ e, u' (e.rename f) = (u e).rename f) :
    (c.rename f).modifyEntry (f a) u' = (c.modifyEntry a u).rename f := by
  simp only [modifyEntry, rename, Table.modify_rekey f _ _ a same]

theorem eraseEntry_rename : (c.rename f).eraseEntry (f a) = (c.eraseEntry a).rename f := by
  simp only [eraseEntry, rename, Table.erase_rekey]

theorem addCandidate_rename : (c.rename f).addCandidate (f a) = (c.addCandidate a).rename f := by
  simp only [addCandidate, rename, ← OrderedMap.insert_rekey, id]

theorem dropCandidate_rename : (c.rename f).dropCandidate (f a) = (c.dropCandidate a).rename f := by
  simp only [dropCandidate, rename, OrderedMap.swapErase_rekey]

theorem insertEntry_rename : (c.rename f).insertEntry (f a) = (c.insertEntry a).rename f := by
  have blank : ({} : Entry) = Entry.rename f {} := by
    simp only [Entry.rename, OrderedMap.rekey_empty]
  rw [insertEntry, blank, setEntry_rename, increase_rename, insertEntry]

theorem gainReference_rename :
    (c.rename f).gainReference (f a) = (c.gainReference a).rename f := by
  rw [gainReference, get?_rename, gainReference]
  cases c.get? a with
  | none => rfl
  | some e =>
    have counted := setEntry_rename f c a { e with references := e.references + 1 }
    simp only [Option.map_some, Entry.rename] at counted ⊢
    rw [counted]
    split
    · exact addCandidate_rename f _ a
    · rfl

def renameWork (s : Counter × List ItemId) : Counter × List ItemId :=
  (s.1.rename f, s.2.map f)

theorem link_rename (parent : ItemId) (child : Item) (s : Counter × List ItemId) :
    link (f parent) (child.rename f) (renameWork f s) = renameWork f (link parent child s) := by
  obtain ⟨c, pending⟩ := s
  cases child with
  | leaf l =>
    refine Prod.ext ?_ rfl
    exact modifyEntry_rename f (c.increase 1) parent fun _ => rfl
  | object kind a =>
    simp only [link, renameWork, Item.rename, Item.id?, isTracked_rename]
    have recorded : ∀ c : Counter,
        ((c.rename f).modifyEntry (f parent) fun e => { e with edges := e.edges.add (f a) }) =
          (c.modifyEntry parent fun e => { e with edges := e.edges.add a }).rename f :=
      fun c => modifyEntry_rename f c parent fun e => by simp only [Entry.rename, Edges.add_rekey]
    split
    · simp only [recorded, gainReference_rename]
    · simp only [insertEntry_rename, recorded, gainReference_rename, List.map_cons]

theorem scan_rename (h : Heap) (parent : ItemId) (s : Counter × List ItemId) :
    scan (h.rename f) (f parent) (renameWork f s) = renameWork f (scan h parent s) := by
  rw [scan, Heap.children_rename, scan, List.foldl_map]
  exact List.foldl_hom (renameWork f) fun s child => link_rename f parent child s

theorem expand_rename (h : Heap) (fuel : Nat) (s : Counter × List ItemId) :
    expand (h.rename f) fuel (renameWork f s) = (expand h fuel s).rename f := by
  induction fuel generalizing s with
  | zero => rfl
  | succ fuel ih =>
    obtain ⟨c, pending⟩ := s
    cases pending with
    | nil => rfl
    | cons a pending =>
      change expand (h.rename f) fuel (scan (h.rename f) (f a) (renameWork f (c, pending))) = _
      rw [scan_rename, ih]
      rfl

theorem track_rename (h : Heap) :
    (c.rename f).track (h.rename f) (f a) = (c.track h a).rename f := by
  rw [track, isTracked_rename, track]
  split
  · rfl
  · rw [Heap.size_objects_rename, insertEntry_rename]
    exact expand_rename f h _ (c.insertEntry a, [a])

theorem addOccurrence_rename (h : Heap) (child : Item) (parent : ItemId) :
    (c.rename f).addOccurrence (h.rename f) (child.rename f) (f parent) =
      (c.addOccurrence h child parent).rename f := by
  rw [addOccurrence, isTracked_rename, addOccurrence]
  split
  · rw [Heap.size_objects_rename, ← expand_rename f h, ← link_rename]
    rfl
  · rfl

theorem gainRoots_rename (n : Nat) :
    (c.rename f).gainRoots (f a) n = (c.gainRoots a n).rename f := by
  have counted : (c.rename f).modifyEntry (f a)
      (fun e => { e with roots := c.sums.sum e.roots n }) =
        (c.modifyEntry a fun e => { e with roots := c.sums.sum e.roots n }).rename f :=
    modifyEntry_rename f c a fun _ => rfl
  have same : (c.rename f).sums = c.sums := rfl
  rw [gainRoots, same, counted, rootCount_rename]
  rfl

theorem addRoots_rename (h : Heap) (x : Item) (n : Nat) :
    (c.rename f).addRoots (h.rename f) (x.rename f) n = (c.addRoots h x n).rename f := by
  cases x with
  | leaf l => rfl
  | object kind a =>
    simp only [addRoots, Item.rename, Item.id?, track_rename, gainRoots_rename,
      dropCandidate_rename]

theorem suspect_rename (h : Heap) (x : Item) :
    (c.rename f).suspect (h.rename f) (x.rename f) = (c.suspect h x).rename f := by
  cases x with
  | leaf l => rfl
  | object kind a =>
    simp only [suspect, Item.rename, Item.id?, track_rename, rootCount_rename]
    split
    · exact addCandidate_rename f _ a
    · rfl

variable {f}

theorem decrease_echoes (n : Nat) : Echoes f id (rename f) (decrease n) (decrease n) := by
  intro c
  have same : (c.rename f).count = c.count := rfl
  rw [apply_decrease, apply_decrease, same]
  split <;> rfl

theorem setEntry_echoes (e : Entry) :
    Echoes f id (rename f) (modify (·.setEntry (f a) (e.rename f))) (modify (·.setEntry a e)) :=
  .modify fun c => setEntry_rename f c a e

theorem addCandidate_echoes :
    Echoes f id (rename f) (modify (·.addCandidate (f a))) (modify (·.addCandidate a)) :=
  .modify fun c => addCandidate_rename f c a

def renameChildren (f : ItemId ↪ ItemId) (children : List (ItemId × Nat)) : List (ItemId × Nat) :=
  children.map fun e => (f e.1, e.2)

theorem releaseChildren_echoes (parent : ItemId) (children : List (ItemId × Nat)) :
    ∀ unheld : List ItemId, Echoes f (List.map f) (rename f)
      (releaseChildren (f parent) (renameChildren f children) (unheld.map f))
      (releaseChildren parent children unheld) := by
  induction children with
  | nil => exact fun unheld => .pure unheld
  | cons e children ih =>
    obtain ⟨child, n⟩ := e
    intro unheld
    refine .get_bind fun c => ?_
    simp only [get?_rename]
    cases c.get? child with
    | none => exact .violate (.danglingEdge parent child)
    | some e =>
      refine .ite Iff.rfl (.violate (.negativeReferences child)) ?_
      refine (setEntry_echoes child { e with references := e.references - n }).bind fun _ => ?_
      refine .ite Iff.rfl (ih unheld) (.ite Iff.rfl (ih (child :: unheld)) ?_)
      exact (addCandidate_echoes child).bind fun _ => ih unheld

theorem freeOne_echoes : Echoes f (List.map f) (rename f) (freeOne (f a)) (freeOne a) := by
  refine .get_bind fun c => ?_
  simp only [get?_rename]
  cases c.get? a with
  | none => exact .pure []
  | some e =>
    refine (Echoes.modify fun c => eraseEntry_rename f c a).bind fun _ => ?_
    refine .ite Iff.rfl (.violate (.freedWhileReferenced a)) ?_
    refine (Echoes.modify fun c => dropCandidate_rename f c a).bind fun _ => ?_
    refine (decrease_echoes e.weight).bind fun _ => ?_
    have children : (e.rename f).edges.toList = renameChildren f e.edges.toList :=
      OrderedMap.toList_rekey f id e.edges
    rw [children]
    exact releaseChildren_echoes a e.edges.toList []

theorem cascade_echoes (fuel : Nat) : ∀ unheld : List ItemId,
    Echoes f id (rename f) (cascade fuel (unheld.map f)) (cascade fuel unheld) := by
  induction fuel with
  | zero => exact fun _ => .pure _
  | succ fuel ih =>
    intro unheld
    refine .get_bind fun c => ?_
    -- what has been freed already is skipped on both sides
    have waiting : (unheld.map f).dropWhile (fun id => !(c.rename f).isTracked id) =
        (unheld.dropWhile fun id => !c.isTracked id).map f := by
      rw [List.dropWhile_map]
      congr 2
      exact funext fun a => congrArg (! ·) (isTracked_rename f c a)
    simp only [waiting]
    cases unheld.dropWhile fun id => !c.isTracked id with
    | nil => exact .pure _
    | cons a rest =>
      refine (freeOne_echoes a).bind fun more => ?_
      rw [← List.map_append]
      exact ih (more ++ rest)

theorem free_echoes : Echoes f id (rename f) (free (f a)) (free a) := by
  refine .get_bind fun c => ?_
  rw [size_tracked_rename]
  exact cascade_echoes c.tracked.size [a]

theorem release_echoes (n : Nat) : Echoes f id (rename f) (release (f a) n) (release a n) := by
  refine .get_bind fun c => ?_
  simp only [get?_rename]
  cases c.get? a with
  | none => exact .violate (.releaseOfUntracked a)
  | some e =>
    refine .ite Iff.rfl (.violate (.negativeReferences a)) ?_
    refine (setEntry_echoes a { e with references := e.references - n }).bind fun _ => ?_
    exact .ite Iff.rfl (.pure _) (.ite Iff.rfl (free_echoes a) (addCandidate_echoes a))

theorem removeRoot_echoes (x : Item) :
    Echoes f id (rename f) (removeRoot (x.rename f)) (removeRoot x) := by
  cases x with
  | leaf l => exact decrease_echoes 1
  | object kind a =>
    refine .get_bind fun c => ?_
    simp only [get?_rename]
    cases c.get? a with
    | none => exact .violate (.rootOfUntracked a)
    | some e =>
      refine .ite Iff.rfl (.violate (.negativeRoots a)) ?_
      refine (setEntry_echoes a { e with roots := e.roots - 1 }).bind fun _ => ?_
      exact .ite Iff.rfl (.pure _) (.ite Iff.rfl (free_echoes a) (addCandidate_echoes a))

theorem removeOccurrence_echoes (child : Item) (parent : ItemId) :
    Echoes f id (rename f) (removeOccurrence (child.rename f) (f parent))
      (removeOccurrence child parent) := by
  refine .get_bind fun c => ?_
  simp only [get?_rename]
  cases c.get? parent with
  | none => exact .pure _
  | some e =>
    cases child with
    | leaf l =>
      refine .ite Iff.rfl (.violate (.valueNotHeld parent)) ?_
      refine (setEntry_echoes parent { e with leaves := e.leaves - 1 }).bind fun _ => ?_
      exact decrease_echoes 1
    | object kind a =>
      have count : (e.rename f).edges.multiplicity (f a) = e.edges.multiplicity a :=
        Edges.multiplicity_rekey f e.edges a
      have less := setEntry_echoes (f := f) parent { e with edges := e.edges.remove a }
      simp only [Entry.rename, ← Edges.remove_rekey] at less
      refine .ite (by rw [count]) (.violate (.negativeEdge parent a)) ?_
      exact less.bind fun _ => release_echoes a 1

end Counter

end LiveItems
