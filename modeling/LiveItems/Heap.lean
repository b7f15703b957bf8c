import Std.Data.ExtTreeMap
import LiveItems.OrderedMap
import LiveItems.Item.Basic
set_option autoImplicit false

namespace LiveItems

abbrev CounterId := Nat

/-- A source of ids: `id n` is the id of the `n`-th object, counted from one. -/
structure IdSupply where
  id : Nat → ItemId := fun n => n
  injective : ∀ i j, id i = id j → i = j := by intro i j h; exact h

instance : Inhabited IdSupply := ⟨{}⟩

inductive Storage where
  | list (items : List Item)
  | map (entries : OrderedMap Item Item)
  | bytes (data : List UInt8)
  deriving Inhabited

namespace Storage

def children : Storage → List Item
  | list items => items
  | map entries => entries.toList.flatMap fun (k, v) => [k, v]
  | bytes _ => []

def childCount : Storage → Nat
  | list items => items.length
  | map entries => 2 * entries.size
  | bytes _ => 0

def emptied : Storage → Storage
  | list _ => list []
  | map _ => map {}
  | bytes data => bytes data

end Storage

/-- What an object stores, the counter it reports its changes to, and whether it refuses changes.
A buffer reports to no counter and refuses no change. -/
structure Object where
  storage : Storage
  owner : Option CounterId := none
  readOnly : Bool := false
  deriving Inhabited

structure Heap where
  objects : Std.ExtTreeMap ItemId Object := {}
  /-- How many ids have been given. -/
  allocated : Nat := 0
  supply : IdSupply := {}

namespace Heap

def allocate (h : Heap) (o : Object) : ItemId × Heap :=
  let id := h.supply.id (h.allocated + 1)
  (id, { h with objects := h.objects.insert id o, allocated := h.allocated + 1 })

def object? (h : Heap) (id : ItemId) : Option Object := h.objects[id]?

def owner (h : Heap) (id : ItemId) : Option CounterId := (h.object? id).bind (·.owner)

def ownerOf (h : Heap) (x : Item) : Option CounterId := x.id?.bind h.owner

def isReadOnly (h : Heap) (id : ItemId) : Bool := (h.object? id).any (·.readOnly)

def storage? (h : Heap) (id : ItemId) : Option Storage := (h.object? id).map (·.storage)

def children (h : Heap) (id : ItemId) : List Item :=
  match h.storage? id with
  | some s => s.children
  | none => []

def childrenOf (h : Heap) : Item → List Item
  | .leaf _ => []
  | .object _ id => h.children id

def childCountOf (h : Heap) (x : Item) : Nat :=
  match x.id?.bind h.storage? with
  | some s => s.childCount
  | none => 0

def listItems (h : Heap) (id : ItemId) : List Item :=
  match h.storage? id with
  | some (.list items) => items
  | _ => []

def mapEntries (h : Heap) (id : ItemId) : OrderedMap Item Item :=
  match h.storage? id with
  | some (.map entries) => entries
  | _ => {}

def bytes (h : Heap) (id : ItemId) : List UInt8 :=
  match h.storage? id with
  | some (.bytes data) => data
  | _ => []

def modify (h : Heap) (id : ItemId) (f : Object → Object) : Heap :=
  { h with objects := h.objects.modify id f }

def store (h : Heap) (id : ItemId) (s : Storage) : Heap := h.modify id ({ · with storage := s })

def emptyOut (h : Heap) (id : ItemId) : Heap :=
  h.modify id fun o => { o with storage := o.storage.emptied }

@[simp] theorem object?_modify (h : Heap) (id a : ItemId) (f : Object → Object) :
    (h.modify id f).object? a = if a = id then (h.object? id).map f else h.object? a := by
  by_cases e : a = id
  · simp [object?, modify, e]
  · simp [object?, modify, Std.ExtTreeMap.getElem?_modify, e, Ne.symm e]

theorem object?_allocate (h : Heap) (o : Object) (a : ItemId) :
    (h.allocate o).2.object? a = if a = (h.allocate o).1 then some o else h.object? a := by
  by_cases e : a = (h.allocate o).1
  · simp [object?, allocate, e]
  · simp only [allocate] at e
    simp [object?, allocate, Std.ExtTreeMap.getElem?_insert, e, Ne.symm e]

@[simp] theorem owner_store (h : Heap) (id a : ItemId) (s : Storage) :
    (h.store id s).owner a = h.owner a := by
  by_cases e : a = id
  · subst e
    cases o : h.object? a <;> simp [owner, store, o]
  · simp [owner, store, e]

@[simp] theorem isReadOnly_store (h : Heap) (id a : ItemId) (s : Storage) :
    (h.store id s).isReadOnly a = h.isReadOnly a := by
  by_cases e : a = id
  · subst e
    cases o : h.object? a <;> simp [isReadOnly, store, o]
  · simp [isReadOnly, store, e]

theorem storage?_store (h : Heap) (id a : ItemId) (s : Storage) :
    (h.store id s).storage? a =
      if a = id then (h.storage? id).map fun _ => s else h.storage? a := by
  by_cases e : a = id
  · subst e
    cases o : h.object? a <;> simp [storage?, store, o]
  · simp [storage?, store, e]

theorem children_store (h : Heap) (id a : ItemId) (s : Storage) (stored : (h.storage? id).isSome) :
    (h.store id s).children a = if a = id then s.children else h.children a := by
  obtain ⟨old, ho⟩ := Option.isSome_iff_exists.1 stored
  by_cases e : a = id
  · subst e
    simp [children, storage?_store, ho]
  · simp [children, storage?_store, e]

theorem children_emptyOut (h : Heap) (id a : ItemId) :
    (h.emptyOut id).children a = if a = id then [] else h.children a := by
  by_cases e : a = id
  · subst e
    cases o : h.object? a with
    | none => simp [children, storage?, emptyOut, o]
    | some old =>
      cases so : old.storage <;>
        simp [children, storage?, emptyOut, o, so, Storage.emptied, Storage.children]
  · simp [children, storage?, emptyOut, e]

theorem length_children (s : Storage) : s.children.length = s.childCount := by
  cases s with
  | list items => rfl
  | bytes data => rfl
  | map entries =>
    have two : ∀ es : List (Item × Item),
        (es.flatMap fun (k, v) => [k, v]).length = 2 * es.length := by
      intro es
      induction es with
      | nil => rfl
      | cons e es ih =>
        simp only [List.flatMap_cons, List.length_append, List.length_cons, List.length_nil, ih]
        omega
    simp only [Storage.children, Storage.childCount, two]
    simp [OrderedMap.toList, OrderedMap.size]

end Heap

end LiveItems
