import LiveItems.Heap
import LiveItems.Proofs.Echoes
import LiveItems.Proofs.Rekey
set_option autoImplicit false

namespace LiveItems

variable (f : ItemId ↪ ItemId)

def renameEntries (es : OrderedMap Item Item) : OrderedMap Item Item :=
  es.rekey (Item.embedding f) (Item.rename f)

section Entries

variable (es : OrderedMap Item Item) (k v : Item)

@[simp] theorem renameEntries_empty : renameEntries f {} = {} := OrderedMap.rekey_empty ..

@[simp] theorem toList_renameEntries :
    (renameEntries f es).toList = es.toList.map fun e => (e.1.rename f, e.2.rename f) :=
  OrderedMap.toList_rekey ..

@[simp] theorem keys_renameEntries : (renameEntries f es).keys = es.keys.map (Item.rename f) :=
  OrderedMap.keys_rekey ..

@[simp] theorem values_renameEntries :
    (renameEntries f es).values = es.values.map (Item.rename f) := OrderedMap.values_rekey ..

@[simp] theorem size_renameEntries : (renameEntries f es).size = es.size := OrderedMap.size_rekey ..

@[simp] theorem contains_renameEntries :
    (renameEntries f es).contains (k.rename f) = es.contains k := OrderedMap.contains_rekey ..

@[simp] theorem get?_renameEntries :
    (renameEntries f es).get? (k.rename f) = (es.get? k).map (Item.rename f) :=
  OrderedMap.get?_rekey ..

theorem insert_renameEntries :
    (renameEntries f es).insert (k.rename f) (v.rename f) = renameEntries f (es.insert k v) :=
  OrderedMap.insert_rekey (Item.embedding f) (Item.rename f) es k v

theorem erase_renameEntries :
    (renameEntries f es).erase (k.rename f) = renameEntries f (es.erase k) :=
  OrderedMap.erase_rekey (Item.embedding f) (Item.rename f) es k

end Entries

namespace Storage

def rename : Storage → Storage
  | list items => list (items.map (Item.rename f))
  | map entries => map (renameEntries f entries)
  | bytes data => bytes data

@[simp] theorem children_rename (s : Storage) :
    (s.rename f).children = s.children.map (Item.rename f) := by
  cases s with
  | list items => rfl
  | bytes data => rfl
  | map entries =>
    simp only [rename, children, toList_renameEntries, List.flatMap_map, List.map_flatMap]
    rfl

@[simp] theorem childCount_rename (s : Storage) : (s.rename f).childCount = s.childCount := by
  cases s with
  | list items => exact List.length_map _
  | bytes data => rfl
  | map entries => exact congrArg (2 * ·) (size_renameEntries f entries)

@[simp] theorem emptied_rename (s : Storage) : (s.rename f).emptied = s.emptied.rename f := by
  cases s with
  | list items => rfl
  | bytes data => rfl
  | map entries => exact congrArg map (renameEntries_empty f).symm

end Storage

def Object.rename (o : Object) : Object := { o with storage := o.storage.rename f }

def IdSupply.rename (s : IdSupply) : IdSupply where
  id n := f (s.id n)
  injective i j same := s.injective i j (f.injective same)

namespace Heap

def rename (h : Heap) : Heap where
  objects := Table.rekey f (Object.rename f) h.objects
  allocated := h.allocated
  supply := h.supply.rename f

variable (h : Heap) (id : ItemId)

@[simp] theorem size_objects_rename : (h.rename f).objects.size = h.objects.size :=
  Table.size_rekey ..

@[simp] theorem object?_rename :
    (h.rename f).object? (f id) = (h.object? id).map (Object.rename f) :=
  Table.getElem?_rekey ..

@[simp] theorem owner_rename : (h.rename f).owner (f id) = h.owner id := by
  rw [owner, object?_rename, owner, Option.bind_map]
  rfl

@[simp] theorem ownerOf_rename (x : Item) : (h.rename f).ownerOf (x.rename f) = h.ownerOf x := by
  cases x with
  | leaf l => rfl
  | object kind id => exact owner_rename f h id

@[simp] theorem isReadOnly_rename : (h.rename f).isReadOnly (f id) = h.isReadOnly id := by
  rw [isReadOnly, object?_rename, isReadOnly, Option.any_map]
  rfl

@[simp] theorem storage?_rename :
    (h.rename f).storage? (f id) = (h.storage? id).map (Storage.rename f) := by
  rw [storage?, object?_rename, storage?, Option.map_map, Option.map_map]
  rfl

@[simp] theorem children_rename :
    (h.rename f).children (f id) = (h.children id).map (Item.rename f) := by
  rw [children, storage?_rename, children]
  cases h.storage? id with
  | none => rfl
  | some s => exact Storage.children_rename f s

@[simp] theorem childrenOf_rename (x : Item) :
    (h.rename f).childrenOf (x.rename f) = (h.childrenOf x).map (Item.rename f) := by
  cases x with
  | leaf l => rfl
  | object kind id => exact children_rename f h id

@[simp] theorem childCountOf_rename (x : Item) :
    (h.rename f).childCountOf (x.rename f) = h.childCountOf x := by
  cases x with
  | leaf l => rfl
  | object kind id =>
    rw [childCountOf, childCountOf]
    simp only [Item.rename, Item.id?, Option.bind_some, storage?_rename]
    cases h.storage? id with
    | none => rfl
    | some s => exact Storage.childCount_rename f s

@[simp] theorem listItems_rename :
    (h.rename f).listItems (f id) = (h.listItems id).map (Item.rename f) := by
  rw [listItems, storage?_rename, listItems]
  rcases h.storage? id with _ | ⟨items⟩ | ⟨entries⟩ | ⟨data⟩ <;> rfl

@[simp] theorem mapEntries_rename :
    (h.rename f).mapEntries (f id) = renameEntries f (h.mapEntries id) := by
  rw [mapEntries, storage?_rename, mapEntries]
  rcases h.storage? id with _ | ⟨items⟩ | ⟨entries⟩ | ⟨data⟩
  · exact (renameEntries_empty f).symm
  · exact (renameEntries_empty f).symm
  · rfl
  · exact (renameEntries_empty f).symm

@[simp] theorem bytes_rename : (h.rename f).bytes (f id) = h.bytes id := by
  rw [bytes, storage?_rename, bytes]
  rcases h.storage? id with _ | ⟨items⟩ | ⟨entries⟩ | ⟨data⟩ <;> rfl

theorem allocate_rename (o : Object) :
    (h.rename f).allocate (o.rename f) = (f (h.allocate o).1, (h.allocate o).2.rename f) := by
  have placed := Table.insert_rekey f (Object.rename f) h.objects (h.supply.id (h.allocated + 1)) o
  simp only [allocate, rename] at placed ⊢
  exact Prod.ext rfl (by rw [← placed]; rfl)

theorem modify_rename {u u' : Object → Object} (same : ∀ o, u' (o.rename f) = (u o).rename f) :
    (h.rename f).modify (f id) u' = (h.modify id u).rename f := by
  have changed := Table.modify_rekey f (Object.rename f) h.objects id same
  simp only [modify, rename, changed]

theorem store_rename (s : Storage) :
    (h.rename f).store (f id) (s.rename f) = (h.store id s).rename f :=
  modify_rename f h id fun _ => rfl

theorem emptyOut_rename : (h.rename f).emptyOut (f id) = (h.emptyOut id).rename f := by
  refine modify_rename f h id fun o => ?_
  rw [Object.rename, Object.rename, Storage.emptied_rename]

theorem emptyOut_foldl_rename (ids : List ItemId) (h : Heap) :
    (ids.map f).foldl emptyOut (h.rename f) = (ids.foldl emptyOut h).rename f := by
  induction ids generalizing h with
  | nil => rfl
  | cons id ids ih => rw [List.map_cons, List.foldl_cons, emptyOut_rename, ih, List.foldl_cons]

end Heap

end LiveItems
