import LiveItems.Container.Map
import LiveItems.Container.Buffer
import LiveItems.Proofs.Container.Basic
set_option autoImplicit false

namespace LiveItems

namespace OrderedMap

variable {α β : Type}

theorem nodup_toList (m : OrderedMap α β) : m.toList.Nodup := m.nodup.of_map _

variable [DecidableEq α] {m : OrderedMap α β} {k : α} {v : β}

theorem perm_erase (present : m.get? k = some v) :
    m.toList.Perm ((k, v) :: (m.erase k).toList) := by
  have apart : (k, v) ∉ (m.erase k).toList := fun h => (mem_toList_erase.1 h).2 rfl
  refine (List.perm_ext_iff_of_nodup m.nodup_toList
    (List.nodup_cons.2 ⟨apart, nodup_toList _⟩)).2 fun e => ?_
  have held : (k, v) ∈ m.toList := get?_eq_some_iff.1 present
  rw [List.mem_cons, mem_toList_erase]
  constructor
  · intro he
    by_cases same : e.1 = k
    · refine .inl (Prod.ext same (value_unique (k := k) ?_ held))
      exact same ▸ he
    · exact .inr ⟨he, same⟩
  · rintro (rfl | he)
    · exact held
    · exact he.1

theorem insert_perm (m : OrderedMap α β) (k : α) (v : β) :
    (m.insert k v).toList.Perm ((k, v) :: (m.erase k).toList) := by
  have apart : (k, v) ∉ (m.erase k).toList := fun h => (mem_toList_erase.1 h).2 rfl
  refine (List.perm_ext_iff_of_nodup (nodup_toList _)
    (List.nodup_cons.2 ⟨apart, nodup_toList _⟩)).2 fun e => ?_
  rw [mem_toList_insert, List.mem_cons, mem_toList_erase]

theorem erase_absent (absent : m.get? k = none) : (m.erase k).toList = m.toList := by
  rw [toList_erase]
  refine List.filter_eq_self.2 fun e he => decide_eq_true ?_
  rintro rfl
  exact get?_eq_none_iff.1 absent (mem_keys_iff.2 ⟨e.2, he⟩)

end OrderedMap

namespace Storage

variable {es : OrderedMap Item Item} {k v : Item}

theorem children_insert (es : OrderedMap Item Item) (k v : Item) :
    (map (es.insert k v)).children.Perm (k :: v :: (map (es.erase k)).children) :=
  (OrderedMap.insert_perm es k v).flatMap_right _

theorem children_present (present : es.get? k = some v) :
    (map es).children.Perm (k :: v :: (map (es.erase k)).children) :=
  (OrderedMap.perm_erase present).flatMap_right _

theorem children_absent (absent : es.get? k = none) :
    (map (es.erase k)).children = (map es).children := by
  rw [children, children, OrderedMap.erase_absent absent]

end Storage

namespace MapObject

open Memory

variable {strict : Prop} {roots : CounterId → Multiset Item} {m : Memory} {id : ItemId}
  {k v : Item} {es : OrderedMap Item Item}

theorem mustBeKey_ends (m : Memory) (k : Item) :
    Action.Ends (Action.Refused m) (fun _ t => t = m ∧ ∃ l, k = .leaf l) (mustBeKey k) m := by
  rw [mustBeKey]
  split
  · exact .refuse (.intro _ m)
  · rename_i primitive
    split
    · exact .refuse (.intro _ m)
    · refine .pure ⟨rfl, ?_⟩
      cases k with
      | leaf l => exact ⟨l, rfl⟩
      | object kind a => cases kind <;> exact absurd rfl primitive

theorem mapEntries_eq (mapped : m.heap.storage? id = some (.map es)) :
    m.heap.mapEntries id = es := by
  rw [Heap.mapEntries, mapped]

theorem container (mapped : m.heap.storage? id = some (.map es)) (data : List UInt8) :
    m.heap.storage? id ≠ some (.bytes data) := by
  rw [mapped]
  simp

section Mapped

variable (sound : m.Sound strict roots) (mapped : m.heap.storage? id = some (.map es))
include sound mapped

theorem holds {x : Item} (hx : x ∈ (Storage.map es).children) : m.heap.MayHold id x := by
  refine sound.heap.holds id x ?_
  rw [Heap.children, mapped]
  exact hx

theorem knows_value (present : es.get? k = some v) : m.heap.Knows v := by
  refine (holds sound mapped ?_).known
  have perm := Storage.children_present present
  exact perm.mem_iff.2 (List.mem_cons_of_mem k List.mem_cons_self)

theorem mayHold_erase (k : Item) {x : Item} (hx : x ∈ (Storage.map (es.erase k)).children) :
    m.heap.MayHold id x := by
  refine holds sound mapped ?_
  cases found : es.get? k with
  | none => rwa [← Storage.children_absent found]
  | some old =>
    have perm := Storage.children_present found
    exact perm.mem_iff.2 (List.mem_cons_of_mem k (List.mem_cons_of_mem old hx))

theorem set_safe (known : m.heap.Knows v) :
    Safe strict roots (fun a t => ∀ x, a = some x → t.heap.Knows x) (set id k v) m := by
  refine (mustBeKey_ends m k).bind ?_
  rintro _ t ⟨rfl, l, rfl⟩
  refine (mustAccept_ends t id v).bind ?_
  rintro _ t ⟨rfl, fits⟩
  refine (mustBeWritable_ends t id).bind ?_
  rintro _ t rfl
  refine .get_bind ?_
  rw [mapEntries_eq mapped]
  have inHeap := Heap.mem_ids_of_storage mapped
  have mayKey := Heap.MayHold.leaf (container mapped) l
  have mayValue : t.heap.MayHold id v := ⟨container mapped, known, fits⟩
  have inserted := Storage.children_insert es (.leaf l) v
  refine sound.change mapped Storage.suits_map (fun y hy => ?_) fun holding ext stores => ?_
  · rcases List.mem_cons.1 (inserted.mem_iff.1 hy) with rfl | hy
    · exact mayKey
    · rcases List.mem_cons.1 hy with rfl | hy
      · exact mayValue
      · exact mayHold_erase sound mapped (.leaf l) hy
  · have mayKey := ext.mayHold inHeap mayKey
    have mayValue := ext.mayHold inHeap mayValue
    rw [Multiset.coe_eq_coe.2 inserted] at stores ⊢
    cases found : es.get? (.leaf l) with
    | none =>
      -- both the key and the value are new
      obtain ⟨m₁, first, holding₁, recounts₁, -⟩ := holding.reportAdded mayKey
      obtain ⟨m₂, second, holding₂, recounts₂, -⟩ :=
        holding₁.reportAdded (recounts₁.heap ▸ mayValue)
      rw [← Storage.children_absent found] at holding₂
      have swapped :
          v ::ₘ .leaf l ::ₘ ((Storage.map (es.erase (.leaf l))).children : Multiset Item) =
            (.leaf l :: v :: (Storage.map (es.erase (.leaf l))).children : List Item) :=
        Multiset.cons_swap ..
      rw [swapped] at holding₂
      refine ⟨none, m₂, ?_, holding₂, recounts₁.trans recounts₂,
        fun _ x hx => absurd hx (by simp)⟩
      simp only [Option.isNone_none, if_true, Action.apply_bind, first, second, Action.apply_pure]
    | some old =>
      -- the key stays, and the value takes the place of the old one
      obtain ⟨m₁, first, holding₁, recounts₁, -⟩ := holding.reportAdded mayValue
      have exchanged : v ::ₘ ((Storage.map es).children : Multiset Item) =
          old ::ₘ
            (Item.leaf l :: v :: (Storage.map (es.erase (.leaf l))).children : List Item) := by
        rw [Multiset.coe_eq_coe.2 (Storage.children_present found)]
        refine Multiset.coe_eq_coe.2 ?_
        calc
          (v :: .leaf l :: old :: (Storage.map (es.erase (.leaf l))).children).Perm
              (.leaf l :: v :: old :: (Storage.map (es.erase (.leaf l))).children) := .swap ..
          _ |>.Perm (.leaf l :: old :: v :: (Storage.map (es.erase (.leaf l))).children) :=
            (List.Perm.swap ..).cons _
          _ |>.Perm (old :: .leaf l :: v :: (Storage.map (es.erase (.leaf l))).children) := .swap ..
      rw [exchanged] at holding₁
      obtain ⟨m₂, second, holding₂, recounts₂⟩ := holding₁.reportRemoved
        (contents_recounts recounts₁ ▸ stores ▸ Multiset.Subset.refl _)
      refine ⟨some old, m₂, ?_, holding₂, recounts₁.trans recounts₂, fun moved x hx => ?_⟩
      · simp only [Option.isNone_some, if_false, Action.apply_bind, first, second,
          Action.apply_pure, Bool.false_eq_true]
      · obtain rfl := Option.some.inj hx
        exact moved.heap.knows (knows_value sound mapped found)

theorem remove_safe :
    Safe strict roots (fun a t => ∀ x, a = some x → t.heap.Knows x) (remove id k) m := by
  refine (mustBeKey_ends m k).bind ?_
  rintro _ t ⟨rfl, l, rfl⟩
  refine (mustBeWritable_ends t id).bind ?_
  rintro _ t rfl
  refine .get_bind ?_
  rw [mapEntries_eq mapped]
  cases found : es.get? (.leaf l) with
  | none => exact .pure ⟨sound, .refl _, fun x hx => absurd hx (by simp)⟩
  | some old =>
    refine sound.change mapped Storage.suits_map (fun y hy => mayHold_erase sound mapped _ hy)
      fun holding _ stores => ?_
    rw [Multiset.coe_eq_coe.2 (Storage.children_present found), ← Multiset.cons_coe,
      ← Multiset.cons_coe] at holding
    obtain ⟨m₁, first, holding₁, recounts₁⟩ :=
      holding.reportRemoved (stores ▸ Multiset.subset_cons _ _)
    obtain ⟨m₂, second, holding₂, recounts₂⟩ := holding₁.reportRemoved
      (contents_recounts recounts₁ ▸ stores ▸ Multiset.Subset.refl _)
    refine ⟨some old, m₂, ?_, holding₂, recounts₁.trans recounts₂, fun moved x hx => ?_⟩
    · simp only [Action.apply_bind, first, second, Action.apply_pure]
    · obtain rfl := Option.some.inj hx
      exact moved.heap.knows (knows_value sound mapped found)

theorem clear_safe : Safe strict roots (fun _ _ => True) (clear id) m := by
  refine (mustBeWritable_ends m id).bind ?_
  rintro _ t rfl
  refine .get_bind ?_
  rw [mapEntries_eq mapped]
  refine sound.change mapped Storage.suits_map (fun y hy => absurd hy List.not_mem_nil)
    fun holding _ stores => ?_
  rw [← add_zero ((Storage.map es).children : Multiset Item)] at holding
  obtain ⟨m', run, holding', recounts⟩ :=
    Holding.reportAllRemoved _ holding (stores ▸ Multiset.Subset.refl _)
  exact ⟨_, m', run, holding', recounts, fun _ => trivial⟩

theorem get?_ends : Action.Ends (Action.Refused m)
    (fun a t => t = m ∧ ∀ x, a = some x → m.heap.Knows x) (get? id k) m := by
  refine (mustBeKey_ends m k).bind ?_
  rintro _ t ⟨rfl, l, rfl⟩
  refine .get_bind ?_
  rw [mapEntries_eq mapped]
  exact .pure ⟨rfl, fun x present => knows_value sound mapped present⟩

end Mapped

theorem contains_ends (m : Memory) (id : ItemId) (k : Item) :
    Action.Ends (Action.Refused m) (fun _ t => t = m) (contains id k) m := by
  refine (mustBeKey_ends m k).bind ?_
  rintro _ t ⟨rfl, -⟩
  exact .get_bind (.pure rfl)

theorem create_safe (sound : m.Sound strict roots) {owner : Option CounterId}
    (owned : ∀ c, owner = some c → c < m.counters.length) :
    Safe strict roots (fun a t => t.heap.Knows (.object .map a)) (create owner) m := by
  have nothing : (Storage.map {}).children = [] := rfl
  refine (sound.newObject (o := { storage := .map {}, owner }) (fun x hx => ?_) (fun x hx => ?_)
    owned).imp ?_
  · exact absurd (nothing ▸ hx) List.not_mem_nil
  · exact absurd (nothing ▸ hx) List.not_mem_nil
  · rintro a t ⟨kept, moved, -, new⟩
    refine ⟨kept, moved, fun kind id same => ?_⟩
    obtain ⟨rfl, rfl⟩ := Item.object.inj same
    exact ⟨_, new, trivial⟩

end MapObject

namespace BufferObject

open Memory

variable {strict : Prop} {roots : CounterId → Multiset Item} {m : Memory} {id : ItemId}

theorem create_safe (sound : m.Sound strict roots) (data : List UInt8) :
    Safe strict roots (fun a t => t.heap.Knows (.object .buffer a)) (create data) m := by
  refine (sound.newObject (o := { storage := .bytes data }) (fun x hx => ?_) (fun x hx => ?_)
    (fun d hd => ?_)).imp ?_
  · exact absurd hx List.not_mem_nil
  · exact absurd hx List.not_mem_nil
  · exact absurd hd (by simp)
  · rintro a t ⟨kept, moved, -, new⟩
    refine ⟨kept, moved, fun kind id same => ?_⟩
    obtain ⟨rfl, rfl⟩ := Item.object.inj same
    exact ⟨_, new, trivial⟩

theorem set_safe (sound : m.Sound strict roots) {data : List UInt8}
    (stored : m.heap.storage? id = some (.bytes data)) (index : Nat) (b : UInt8) :
    Safe strict roots (fun _ _ => True) (set id index b) m := by
  refine .get_bind ?_
  by_cases inside : index < (m.heap.bytes id).length
  · simp only [if_pos inside]
    refine sound.reorder stored (fun kind suits => ?_) (.refl _)
    cases kind <;> exact suits
  · simp only [if_neg inside]
    exact .refuse (.intro _ m)

end BufferObject

end LiveItems
