import LiveItems.Container.Buffer
import LiveItems.Container.Copy
import LiveItems.Container.Map
import LiveItems.Proofs.Container.List
import LiveItems.Proofs.Memory.Rename
set_option autoImplicit false

namespace LiveItems

open LiveItems.Action (Echoes)

variable {f : ItemId ↪ ItemId}

namespace Memory

theorem mustShareOwner_echoes (owner : Option CounterId) (x : Item) :
    Echoes f id (rename f) (mustShareOwner owner (x.rename f)) (mustShareOwner owner x) := by
  cases owner with
  | none => exact .pure _
  | some c =>
    refine .get_bind fun m => ?_
    simp only [rename, Heap.ownerOf_rename, Item.isCompound_rename, Item.type_rename]
    exact .ite Iff.rfl (.refuse _) (.pure _)

theorem mustAccept_echoes (a : ItemId) (x : Item) :
    Echoes f id (rename f) (mustAccept (f a) (x.rename f)) (mustAccept a x) := by
  refine .get_bind fun m => ?_
  simp only [rename, Heap.owner_rename]
  exact mustShareOwner_echoes _ x

theorem mustBeWritable_echoes (a : ItemId) :
    Echoes f id (rename f) (mustBeWritable (f a)) (mustBeWritable a) := by
  refine .get_bind fun m => ?_
  simp only [rename, Heap.isReadOnly_rename]
  exact .ite Iff.rfl (.refuse _) (.pure _)

theorem setReadOnly_echoes (a : ItemId) (value : Bool) :
    Echoes f id (rename f) (setReadOnly (f a) value) (setReadOnly a value) := by
  refine .modify fun m => congrArg (fun h => { m.rename f with heap := h }) ?_
  exact Heap.modify_rename f m.heap a fun _ => rfl

theorem reportAdded_echoes (a : ItemId) (x : Item) :
    Echoes f id (rename f) (reportAdded (f a) (x.rename f)) (reportAdded a x) := by
  refine .get_bind fun m => ?_
  simp only [rename, Heap.owner_rename]
  cases m.heap.owner a with
  | none => exact .pure _
  | some c => exact addOccurrence_echoes c x a

theorem reportRemoved_echoes (a : ItemId) (x : Item) :
    Echoes f id (rename f) (reportRemoved (f a) (x.rename f)) (reportRemoved a x) := by
  refine .get_bind fun m => ?_
  simp only [rename, Heap.owner_rename]
  cases m.heap.owner a with
  | none => exact .pure _
  | some c => exact removeOccurrence_echoes c x a

end Memory

open Memory

namespace ListObject

theorem store_echoes (a : ItemId) (xs : List Item) :
    Echoes f id (rename f) (store (f a) (.list (xs.map (Item.rename f)))) (store a (.list xs)) :=
  Memory.store_echoes a (.list xs)

theorem create_echoes (owner : Option CounterId) (xs : List Item) :
    Echoes f f (rename f) (create owner (xs.map (Item.rename f))) (create owner xs) :=
  (Echoes.forM (mustShareOwner_echoes owner) xs).bind fun _ =>
    newObject_echoes { storage := .list xs, owner }

theorem items_echoes (a : ItemId) :
    Echoes f (List.map (Item.rename f)) (rename f) (items (f a)) (items a) := by
  refine .get_bind fun m => ?_
  simp only [rename, Heap.listItems_rename]
  exact .pure _

variable (a : ItemId) (index : Nat) (x : Item)

theorem push_echoes : Echoes f id (rename f) (push (f a) (x.rename f)) (push a x) := by
  refine (mustAccept_echoes a x).bind fun _ => (mustBeWritable_echoes a).bind fun _ =>
    (items_echoes a).bind fun xs => ?_
  rw [← List.map_singleton, ← List.map_append]
  exact (store_echoes a _).bind fun _ => reportAdded_echoes a x

theorem set_echoes : Echoes f id (rename f) (set (f a) index (x.rename f)) (set a index x) := by
  refine (mustAccept_echoes a x).bind fun _ => (mustBeWritable_echoes a).bind fun _ =>
    (items_echoes a).bind fun xs => ?_
  rw [List.getElem?_map]
  cases xs[index]? with
  | none => exact .refuse _
  | some old =>
    rw [← List.map_set]
    exact (store_echoes a _).bind fun _ => (reportAdded_echoes a x).bind fun _ =>
      reportRemoved_echoes a old

theorem insert_echoes :
    Echoes f id (rename f) (insert (f a) index (x.rename f)) (insert a index x) := by
  refine (mustAccept_echoes a x).bind fun _ => (mustBeWritable_echoes a).bind fun _ =>
    (items_echoes a).bind fun xs => .ite (by rw [List.length_map]) (.refuse _) ?_
  rw [← List.map_insertIdx]
  exact (store_echoes a _).bind fun _ => reportAdded_echoes a x

theorem remove_echoes :
    Echoes f (Item.rename f) (rename f) (remove (f a) index) (remove a index) := by
  refine (mustBeWritable_echoes a).bind fun _ => (items_echoes a).bind fun xs => ?_
  rw [List.getElem?_map]
  cases xs[index]? with
  | none => exact .refuse _
  | some old =>
    rw [List.eraseIdx_map]
    exact (store_echoes a _).bind fun _ => (reportRemoved_echoes a old).bind fun _ => .pure old

theorem pop_echoes : Echoes f (Item.rename f) (rename f) (pop (f a)) (pop a) := by
  refine (mustBeWritable_echoes a).bind fun _ => (items_echoes a).bind fun xs => ?_
  rw [List.getLast?_map]
  cases xs.getLast? with
  | none => exact .refuse _
  | some old =>
    rw [← List.map_dropLast]
    exact (store_echoes a _).bind fun _ => (reportRemoved_echoes a old).bind fun _ => .pure old

theorem clear_echoes : Echoes f id (rename f) (clear (f a)) (clear a) :=
  (mustBeWritable_echoes a).bind fun _ => (items_echoes a).bind fun xs =>
    (store_echoes a []).bind fun _ => .forM (reportRemoved_echoes a) xs

theorem reverse_echoes : Echoes f id (rename f) (reverse (f a)) (reverse a) := by
  refine (mustBeWritable_echoes a).bind fun _ => (items_echoes a).bind fun xs => ?_
  rw [← List.map_reverse]
  exact store_echoes a xs.reverse

def renameQueue (f : ItemId ↪ ItemId) (queue : List (ItemId × ItemId)) : List (ItemId × ItemId) :=
  queue.map fun e => (f e.1, f e.2)

theorem copyItems_echoes (owner : Option CounterId) (target : ItemId) (xs : List Item)
    (room : Nat) (queue : List (ItemId × ItemId)) :
    Echoes f (fun left => (left.1, renameQueue f left.2)) (rename f)
      (copyItems owner (f target) (xs.map (Item.rename f)) room (renameQueue f queue))
      (copyItems owner target xs room queue) := by
  fun_induction copyItems owner target xs room queue with
  | case1 room queue => exact .pure (room, queue)
  | case2 => exact .refuse _
  | case3 source xs room queue ih =>
    refine (create_echoes owner []).bind fun copy => ?_
    refine (push_echoes target (.object .struct copy)).bind fun _ => ?_
    have waiting : renameQueue f queue ++ [(f copy, f source)] =
        renameQueue f (queue ++ [(copy, source)]) := by
      rw [renameQueue, renameQueue, List.map_append, List.map_singleton]
    rw [waiting]
    exact ih copy
  | case4 x xs room queue shared ih =>
    -- nothing else becomes a struct under its new name
    have shared' : ∀ source, x.rename f = .object .struct source → False := by
      intro source same
      cases x with
      | leaf l => cases same
      | object kind a =>
        obtain ⟨rfl, -⟩ := Item.object.inj same
        exact shared a rfl
    rw [List.map_cons, copyItems]
    · exact (push_echoes target x).bind fun _ => ih
    · exact shared'

theorem copyQueue_echoes (owner : Option CounterId) (fuel : Nat) :
    ∀ (room : Nat) (queue : List (ItemId × ItemId)),
      Echoes f id (rename f) (copyQueue owner fuel room (renameQueue f queue))
        (copyQueue owner fuel room queue) := by
  induction fuel with
  | zero => exact fun _ _ => .pure _
  | succ fuel ih =>
    intro room queue
    cases queue with
    | nil => exact .pure _
    | cons e queue =>
      obtain ⟨target, source⟩ := e
      refine (items_echoes source).bind fun xs => ?_
      exact (copyItems_echoes owner target xs room queue).bind fun left => ih left.1 left.2

theorem copyStruct_echoes (limit : Nat) :
    Echoes f f (rename f) (copyStruct (f a) limit) (copyStruct a limit) := by
  refine .get_bind fun m => ?_
  simp only [rename, Heap.owner_rename]
  refine (create_echoes (m.heap.owner a) []).bind fun copy => ?_
  exact (copyQueue_echoes _ _ _ [(copy, a)]).bind fun _ => .pure copy

end ListObject

namespace MapObject

theorem store_echoes (a : ItemId) (es : OrderedMap Item Item) :
    Echoes f id (rename f) (store (f a) (.map (renameEntries f es))) (store a (.map es)) :=
  Memory.store_echoes a (.map es)

theorem create_echoes (owner : Option CounterId) :
    Echoes f f (rename f) (create owner) (create owner) := by
  have made := newObject_echoes (f := f) { storage := .map {}, owner }
  rwa [Object.rename, Storage.rename, renameEntries_empty] at made

theorem entries_echoes (a : ItemId) :
    Echoes f (renameEntries f) (rename f) (entries (f a)) (entries a) := by
  refine .get_bind fun m => ?_
  simp only [rename, Heap.mapEntries_rename]
  exact .pure _

theorem mustBeKey_echoes (k : Item) :
    Echoes f id (rename f) (mustBeKey (k.rename f)) (mustBeKey k) := by
  rw [mustBeKey, Item.type_rename, Item.keySize_rename]
  exact .ite Iff.rfl (.refuse _) (.ite Iff.rfl (.refuse _) (.pure _))

variable (a : ItemId) (k v : Item)

theorem get?_echoes :
    Echoes f (Option.map (Item.rename f)) (rename f) (get? (f a) (k.rename f)) (get? a k) := by
  refine (mustBeKey_echoes k).bind fun _ => (entries_echoes a).bind fun es => ?_
  rw [get?_renameEntries]
  exact .pure _

theorem contains_echoes :
    Echoes f id (rename f) (contains (f a) (k.rename f)) (contains a k) := by
  refine (mustBeKey_echoes k).bind fun _ => (entries_echoes a).bind fun es => ?_
  rw [contains_renameEntries]
  exact .pure _

theorem set_echoes : Echoes f (Option.map (Item.rename f)) (rename f)
    (set (f a) (k.rename f) (v.rename f)) (set a k v) := by
  refine (mustBeKey_echoes k).bind fun _ => (mustAccept_echoes a v).bind fun _ =>
    (mustBeWritable_echoes a).bind fun _ => (entries_echoes a).bind fun es => ?_
  simp only [get?_renameEntries, insert_renameEntries]
  refine (store_echoes a _).bind fun _ => ?_
  cases es.get? k with
  | none =>
    exact (reportAdded_echoes a k).bind fun _ => (reportAdded_echoes a v).bind fun _ => .pure none
  | some old =>
    exact (reportAdded_echoes a v).bind fun _ => (reportRemoved_echoes a old).bind fun _ =>
      .pure (some old)

theorem remove_echoes : Echoes f (Option.map (Item.rename f)) (rename f)
    (remove (f a) (k.rename f)) (remove a k) := by
  refine (mustBeKey_echoes k).bind fun _ => (mustBeWritable_echoes a).bind fun _ =>
    (entries_echoes a).bind fun es => ?_
  rw [get?_renameEntries, erase_renameEntries]
  cases es.get? k with
  | none => exact .pure none
  | some old =>
    exact (store_echoes a _).bind fun _ => (reportRemoved_echoes a k).bind fun _ =>
      (reportRemoved_echoes a old).bind fun _ => .pure (some old)

theorem clear_echoes : Echoes f id (rename f) (clear (f a)) (clear a) := by
  refine (mustBeWritable_echoes a).bind fun _ => (entries_echoes a).bind fun es => ?_
  have emptied := store_echoes (f := f) a {}
  rw [renameEntries_empty] at emptied
  refine emptied.bind fun _ => ?_
  have held := Storage.children_rename f (.map es)
  rw [Storage.rename] at held
  rw [held]
  exact .forM (reportRemoved_echoes a) _

end MapObject

namespace BufferObject

theorem create_echoes (bytes : List UInt8) :
    Echoes f f (rename f) (create bytes) (create bytes) :=
  newObject_echoes { storage := .bytes bytes }

theorem set_echoes (a : ItemId) (index : Nat) (b : UInt8) :
    Echoes f id (rename f) (set (f a) index b) (set a index b) := by
  refine .get_bind fun m => ?_
  simp only [rename, Heap.bytes_rename]
  exact .ite Iff.rfl (store_echoes a (.bytes _)) (.refuse _)

end BufferObject

end LiveItems
