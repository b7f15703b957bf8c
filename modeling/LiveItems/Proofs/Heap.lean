import LiveItems.Proofs.Counter.Registration
set_option autoImplicit false

namespace LiveItems

def Storage.Suits : Storage → ObjectKind → Prop
  | list _, .array => True
  | list _, .struct => True
  | map _, .map => True
  | bytes _, .buffer => True
  | _, _ => False

theorem Storage.suits_emptied {s : Storage} {kind : ObjectKind} (h : s.Suits kind) :
    s.emptied.Suits kind := by
  cases s <;> cases kind <;> exact h

theorem Storage.suits_list {xs ys : List Item} (kind : ObjectKind) (h : (list xs).Suits kind) :
    (list ys).Suits kind := by
  cases kind <;> exact h

theorem Storage.suits_map {es fs : OrderedMap Item Item} (kind : ObjectKind)
    (h : (map es).Suits kind) : (map fs).Suits kind := by
  cases kind <;> exact h

theorem Storage.children_emptied (s : Storage) : s.emptied.children = [] := by
  cases s <;> rfl

namespace Heap

def Knows (h : Heap) (x : Item) : Prop :=
  ∀ kind id, x = .object kind id → ∃ s, h.storage? id = some s ∧ s.Suits kind

/-- The objects that counter `c` may track: those that report to it, and all buffers. -/
def Belongs (h : Heap) (c : CounterId) : Set ItemId :=
  {id | h.owner id = some c ∨ ∃ data, h.storage? id = some (.bytes data)}

structure MayHold (h : Heap) (p : ItemId) (x : Item) : Prop where
  container : ∀ data, h.storage? p ≠ some (.bytes data)
  known : h.Knows x
  fits : ∀ c, h.owner p = some c → x.isCompound → h.ownerOf x = some c

/-- All objects have ids that have been given, hold what they may hold, and report to one of the
counters that there are. -/
structure WellFormed (counters : Nat) (h : Heap) : Prop where
  given : ∀ id ∈ h.ids, ∃ n ≤ h.allocated, id = h.supply.id n
  holds : ∀ p, ∀ x ∈ h.children p, h.MayHold p x
  owners : ∀ p c, h.owner p = some c → c < counters

structure Extends (h h' : Heap) : Prop where
  storage : ∀ id s, h.storage? id = some s →
    ∃ s', h'.storage? id = some s' ∧ ∀ kind, s.Suits kind → s'.Suits kind
  owner : ∀ id ∈ h.ids, h'.owner id = h.owner id

variable {h h' h'' : Heap} {counters : Nat} {id p : ItemId} {c : CounterId} {x : Item}

theorem mem_ids_of_storage {s : Storage} (stored : h.storage? id = some s) : id ∈ h.ids := by
  obtain ⟨o, ho, -⟩ := Option.map_eq_some_iff.1 stored
  exact mem_ids.2 ⟨o, ho⟩

theorem mem_ids_of_owner (owned : h.owner id = some c) : id ∈ h.ids := by
  obtain ⟨o, ho, -⟩ := Option.bind_eq_some_iff.1 owned
  exact mem_ids.2 ⟨o, ho⟩

theorem storage_of_mem (hid : id ∈ h.ids) : ∃ s, h.storage? id = some s := by
  obtain ⟨o, ho⟩ := mem_ids.1 hid
  exact ⟨o.storage, by rw [storage?, ho, Option.map_some]⟩

theorem mem_ids_of_belongs (belongs : id ∈ h.Belongs c) : id ∈ h.ids := by
  rcases belongs with owned | ⟨data, stored⟩
  · exact mem_ids_of_owner owned
  · exact mem_ids_of_storage stored

theorem children_bytes {data : List UInt8} (stored : h.storage? id = some (.bytes data)) :
    h.children id = [] := by
  rw [children, stored]
  rfl

theorem mem_ids_of_children (held : x ∈ h.children p) : p ∈ h.ids := by
  rw [children] at held
  split at held
  · rename_i s stored
    exact mem_ids_of_storage stored
  · exact absurd held List.not_mem_nil

theorem bytes_of_belongs_two {c d : CounterId} (ne : c ≠ d) (first : id ∈ h.Belongs c)
    (second : id ∈ h.Belongs d) : ∃ data, h.storage? id = some (.bytes data) := by
  rcases first with owned | buffer
  · rcases second with owned' | buffer
    · exact absurd (Option.some.inj (owned.symm.trans owned')) ne
    · exact buffer
  · exact buffer

theorem Knows.leaf (h : Heap) (l : Leaf) : h.Knows (.leaf l) := by
  intro kind id e
  exact absurd e (by simp)

theorem Knows.mem_ids (known : h.Knows x) (hid : x.id? = some id) : id ∈ h.ids := by
  cases x with
  | leaf l => exact absurd hid (by simp [Item.id?])
  | object kind a =>
    obtain ⟨s, stored, -⟩ := known kind a rfl
    obtain rfl : a = id := Option.some.inj hid
    exact mem_ids_of_storage stored

theorem Knows.belongs (known : h.Knows x) (owned : x.isCompound → h.ownerOf x = some c)
    (hid : x.id? = some id) : id ∈ h.Belongs c := by
  cases x with
  | leaf l => exact absurd hid (by simp [Item.id?])
  | object kind a =>
    obtain rfl : a = id := Option.some.inj hid
    cases kind with
    | buffer =>
      obtain ⟨s, stored, suits⟩ := known .buffer a rfl
      cases s with
      | bytes data => exact .inr ⟨data, stored⟩
      | list items => exact suits.elim
      | map entries => exact suits.elim
    | array => exact .inl (owned rfl)
    | struct => exact .inl (owned rfl)
    | map => exact .inl (owned rfl)

theorem MayHold.belongs (may : h.MayHold p x) (hp : p ∈ h.Belongs c) (hid : x.id? = some id) :
    id ∈ h.Belongs c := by
  rcases hp with owned | ⟨data, stored⟩
  · exact may.known.belongs (may.fits c owned) hid
  · exact absurd stored (may.container data)

theorem MayHold.leaf (container : ∀ data, h.storage? p ≠ some (.bytes data)) (l : Leaf) :
    h.MayHold p (.leaf l) := by
  refine ⟨container, .leaf h l, fun c _ compound => ?_⟩
  cases l <;> exact absurd compound Bool.false_ne_true

theorem WellFormed.closed (wf : h.WellFormed counters) : h.Closed := fun p x hx _ hid =>
  (wf.holds p x hx).known.mem_ids hid

theorem Knows.list {kind : ObjectKind} (known : h.Knows (.object kind id))
    (listed : kind = .array ∨ kind = .struct) : ∃ xs, h.storage? id = some (.list xs) := by
  obtain ⟨s, stored, suits⟩ := known kind id rfl
  rcases listed with rfl | rfl
  · cases s <;> first | exact ⟨_, stored⟩ | exact suits.elim
  · cases s <;> first | exact ⟨_, stored⟩ | exact suits.elim

theorem Knows.map (known : h.Knows (.object .map id)) : ∃ es, h.storage? id = some (.map es) := by
  obtain ⟨s, stored, suits⟩ := known .map id rfl
  cases s <;> first | exact ⟨_, stored⟩ | exact suits.elim

theorem Knows.buffer (known : h.Knows (.object .buffer id)) :
    ∃ data, h.storage? id = some (.bytes data) := by
  obtain ⟨s, stored, suits⟩ := known .buffer id rfl
  cases s <;> first | exact ⟨_, stored⟩ | exact suits.elim

theorem Extends.refl (h : Heap) : h.Extends h :=
  ⟨fun _ s stored => ⟨s, stored, fun _ suits => suits⟩, fun _ _ => rfl⟩

theorem Extends.mem_ids (ext : h.Extends h') (hid : id ∈ h.ids) : id ∈ h'.ids := by
  obtain ⟨s, stored⟩ := storage_of_mem hid
  obtain ⟨s', stored', -⟩ := ext.storage id s stored
  exact mem_ids_of_storage stored'

theorem Extends.trans (first : h.Extends h') (second : h'.Extends h'') : h.Extends h'' := by
  refine ⟨fun id s stored => ?_, fun id hid => ?_⟩
  · obtain ⟨s', stored', suits'⟩ := first.storage id s stored
    obtain ⟨s'', stored'', suits''⟩ := second.storage id s' stored'
    exact ⟨s'', stored'', fun kind suits => suits'' kind (suits' kind suits)⟩
  · rw [second.owner id (first.mem_ids hid), first.owner id hid]

theorem Extends.bytes (ext : h.Extends h') {data : List UInt8}
    (stored : h.storage? id = some (.bytes data)) :
    ∃ data, h'.storage? id = some (.bytes data) := by
  obtain ⟨s, stored', suits⟩ := ext.storage id _ stored
  have suits : s.Suits .buffer := suits .buffer trivial
  cases s with
  | bytes data => exact ⟨data, stored'⟩
  | list items => exact suits.elim
  | map entries => exact suits.elim

theorem Extends.belongs (ext : h.Extends h') (belongs : id ∈ h.Belongs c) : id ∈ h'.Belongs c := by
  rcases belongs with owned | ⟨data, stored⟩
  · exact .inl (by rw [ext.owner id (mem_ids_of_owner owned), owned])
  · exact .inr (ext.bytes stored)

theorem Extends.knows (ext : h.Extends h') (known : h.Knows x) : h'.Knows x := by
  intro kind id e
  obtain ⟨s, stored, suits⟩ := known kind id e
  obtain ⟨s', stored', suits'⟩ := ext.storage id s stored
  exact ⟨s', stored', suits' kind suits⟩

theorem Extends.ownerOf (ext : h.Extends h') (owned : h.ownerOf x = some c) :
    h'.ownerOf x = some c := by
  obtain ⟨id, hid, owned⟩ := Option.bind_eq_some_iff.1 owned
  rw [Heap.ownerOf, hid, Option.bind_some, ext.owner id (mem_ids_of_owner owned), owned]

theorem Extends.mayHold (ext : h.Extends h') (hp : p ∈ h.ids) (may : h.MayHold p x) :
    h'.MayHold p x := by
  refine ⟨fun data stored' => ?_, ext.knows may.known, fun d owned compound => ?_⟩
  · obtain ⟨s, stored⟩ := storage_of_mem hp
    obtain ⟨s', same, suits⟩ := ext.storage p s stored
    obtain rfl := Option.some.inj (same.symm.trans stored')
    cases s with
    | bytes data => exact may.container data stored
    | list items => exact suits .array trivial
    | map entries => exact suits .map trivial
  · rw [ext.owner p hp] at owned
    exact ext.ownerOf (may.fits d owned compound)

section Modify

variable {f : Object → Object}

theorem storage?_modify (h : Heap) (id a : ItemId) (f : Object → Object) :
    (h.modify id f).storage? a =
      if a = id then (h.object? id).map fun o => (f o).storage else h.storage? a := by
  rw [storage?, object?_modify]
  split
  · rw [Option.map_map]
    rfl
  · rfl

theorem mem_ids_modify {a : ItemId} : a ∈ (h.modify id f).ids ↔ a ∈ h.ids := by
  rw [mem_ids, mem_ids, object?_modify]
  split
  · subst_vars
    simp
  · rfl

theorem owner_modify (kept : ∀ o, h.object? id = some o → (f o).owner = o.owner) (a : ItemId) :
    (h.modify id f).owner a = h.owner a := by
  rw [owner, object?_modify]
  split
  · rename_i e
    rw [e, owner]
    cases ho : h.object? id with
    | none => rfl
    | some o => exact kept o ho
  · rfl

theorem Extends.modify (kept : ∀ o, h.object? id = some o → (f o).owner = o.owner)
    (suits : ∀ o, h.object? id = some o → ∀ kind, o.storage.Suits kind → (f o).storage.Suits kind) :
    h.Extends (h.modify id f) := by
  refine ⟨fun a s stored => ?_, fun a _ => owner_modify kept a⟩
  rw [storage?_modify]
  split
  · subst_vars
    obtain ⟨o, ho, rfl⟩ := Option.map_eq_some_iff.1 stored
    exact ⟨(f o).storage, by rw [ho, Option.map_some], suits o ho⟩
  · exact ⟨s, stored, fun _ suits => suits⟩

/-- A change of one object is safe when it keeps the kind and the counter and stores only what the
object may hold. -/
theorem WellFormed.modify (wf : h.WellFormed counters)
    (kept : ∀ o, h.object? id = some o → (f o).owner = o.owner)
    (suits : ∀ o, h.object? id = some o → ∀ kind, o.storage.Suits kind → (f o).storage.Suits kind)
    (may : ∀ o, h.object? id = some o → ∀ x ∈ (f o).storage.children, h.MayHold id x) :
    (h.modify id f).WellFormed counters := by
  have ext := Extends.modify kept suits
  refine ⟨fun a ha => wf.given a (mem_ids_modify.1 ha), fun p x hx => ?_, fun p d owned => ?_⟩
  · have hp : p ∈ h.ids := mem_ids_modify.1 (mem_ids_of_children hx)
    refine ext.mayHold hp ?_
    rw [children, storage?_modify] at hx
    by_cases e : p = id
    · subst e
      obtain ⟨o, ho⟩ := mem_ids.1 hp
      rw [if_pos rfl, ho] at hx
      exact may o ho x hx
    · rw [if_neg e] at hx
      exact wf.holds p x hx
  · rw [owner_modify kept] at owned
    exact wf.owners p d owned

end Modify

section Allocate

variable {o : Object}

theorem WellFormed.fresh (wf : h.WellFormed counters) (o : Object) : (h.allocate o).1 ∉ h.ids := by
  intro hid
  obtain ⟨n, bound, same⟩ := wf.given _ hid
  have := h.supply.injective _ _ same
  omega

theorem mem_ids_allocate {a : ItemId} :
    a ∈ (h.allocate o).2.ids ↔ a = (h.allocate o).1 ∨ a ∈ h.ids := by
  rw [mem_ids, mem_ids, object?_allocate]
  split <;> simp_all

theorem storage?_allocate (h : Heap) (o : Object) (a : ItemId) :
    (h.allocate o).2.storage? a =
      if a = (h.allocate o).1 then some o.storage else h.storage? a := by
  rw [storage?, object?_allocate]
  split <;> rfl

theorem owner_allocate (h : Heap) (o : Object) (a : ItemId) :
    (h.allocate o).2.owner a = if a = (h.allocate o).1 then o.owner else h.owner a := by
  rw [owner, object?_allocate]
  split <;> rfl

theorem children_allocate (h : Heap) (o : Object) (a : ItemId) :
    (h.allocate o).2.children a =
      if a = (h.allocate o).1 then o.storage.children else h.children a := by
  rw [children, storage?_allocate]
  by_cases e : a = (h.allocate o).1
  · rw [if_pos e, if_pos e]
  · rw [if_neg e, if_neg e]
    rfl

theorem WellFormed.extends_allocate (wf : h.WellFormed counters) (o : Object) :
    h.Extends (h.allocate o).2 := by
  have old : ∀ a ∈ h.ids, a ≠ (h.allocate o).1 := by
    rintro a ha rfl
    exact wf.fresh o ha
  refine ⟨fun a s stored => ⟨s, ?_, fun _ suits => suits⟩, fun a ha => ?_⟩
  · rw [storage?_allocate, if_neg (old a (mem_ids_of_storage stored)), stored]
  · rw [owner_allocate, if_neg (old a ha)]

theorem WellFormed.allocate (wf : h.WellFormed counters)
    (known : ∀ x ∈ o.storage.children, h.Knows x)
    (fits : ∀ x ∈ o.storage.children, ∀ d, o.owner = some d → x.isCompound → h.ownerOf x = some d)
    (owners : ∀ d, o.owner = some d → d < counters) : (h.allocate o).2.WellFormed counters := by
  have ext := wf.extends_allocate o
  refine ⟨fun a ha => ?_, fun p x hx => ?_, fun p d owned => ?_⟩
  · rcases mem_ids_allocate.1 ha with rfl | ha
    · exact ⟨h.allocated + 1, le_rfl, rfl⟩
    · obtain ⟨n, bound, same⟩ := wf.given a ha
      exact ⟨n, Nat.le_succ_of_le bound, same⟩
  · by_cases e : p = (h.allocate o).1
    · subst e
      rw [children_allocate, if_pos rfl] at hx
      refine ⟨fun data stored => ?_, ext.knows (known x hx), fun d owned compound => ?_⟩
      · rw [storage?_allocate, if_pos rfl] at stored
        rw [Option.some.inj stored] at hx
        exact absurd hx List.not_mem_nil
      · rw [owner_allocate, if_pos rfl] at owned
        exact ext.ownerOf (fits x hx d owned compound)
    · rw [children_allocate, if_neg e] at hx
      exact ext.mayHold (mem_ids_of_children hx) (wf.holds p x hx)
  · rw [owner_allocate] at owned
    split at owned
    · exact owners d owned
    · exact wf.owners p d owned

end Allocate

end Heap

end LiveItems
