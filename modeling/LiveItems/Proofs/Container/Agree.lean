import LiveItems.Container.Copy
import LiveItems.Container.Map
import LiveItems.Container.Buffer
import LiveItems.Proofs.Memory.Agree
import LiveItems.OrderedMap.Lemmas
set_option autoImplicit false

namespace LiveItems

open LiveItems.Action (Twins)

namespace Memory

variable {K : Set ItemId} {m n : Memory} {id : ItemId} {x : Item}

section Checks

variable (agrees : m.Agrees K n)
include agrees

theorem mustShareOwner_matches (owner : Option CounterId) (within : x.Within K) :
    Matches K (fun _ => True) (mustShareOwner owner x) m n := by
  cases owner with
  | none => exact .pure ⟨agrees, trivial⟩
  | some c =>
    refine .get_bind ?_
    rw [agrees.ownerOf within]
    split
    · exact .refuse agrees
    · exact .pure ⟨agrees, trivial⟩

theorem mustAccept_matches (inside : id ∈ K) (within : x.Within K) :
    Matches K (fun _ => True) (mustAccept id x) m n := by
  refine .get_bind ?_
  rw [agrees.owner inside]
  exact mustShareOwner_matches agrees _ within

theorem mustBeWritable_matches (inside : id ∈ K) :
    Matches K (fun _ => True) (mustBeWritable id) m n := by
  refine .get_bind ?_
  rw [agrees.isReadOnly inside]
  split
  · exact .refuse agrees
  · exact .pure ⟨agrees, trivial⟩

theorem reportAdded_matches (inside : id ∈ K) (within : x.Within K) :
    Matches K (fun _ => True) (reportAdded id x) m n := by
  refine .get_bind ?_
  rw [agrees.owner inside]
  split
  · exact addOccurrence_matches agrees _ within id
  · exact .pure ⟨agrees, trivial⟩

theorem reportRemoved_matches (inside : id ∈ K) (x : Item) :
    Matches K (fun _ => True) (reportRemoved id x) m n := by
  refine .get_bind ?_
  rw [agrees.owner inside]
  split
  · exact removeOccurrence_matches agrees _ x id
  · exact .pure ⟨agrees, trivial⟩

theorem setReadOnly_matches (inside : id ∈ K) (value : Bool) :
    Matches K (fun _ => True) (setReadOnly id value) m n := by
  refine .modify ⟨agrees.modify id _ (fun o found x hx => agrees.closed id inside x ?_) inside,
    trivial⟩
  rw [Heap.children, Heap.storage?, found]
  exact hx

end Checks

theorem reportAllRemoved_matches (xs : List Item) (inside : id ∈ K) : ∀ {m n : Memory},
    m.Agrees K n → Matches K (fun _ => True) (xs.forM (reportRemoved id)) m n := by
  induction xs with
  | nil => exact fun agrees => .pure ⟨agrees, trivial⟩
  | cons x xs ih =>
    intro m n agrees
    exact (reportRemoved_matches agrees inside x).bind fun _ _ _ kept => ih kept.1

end Memory

open Memory

namespace ListObject

variable {K : Set ItemId} {m n : Memory} {id : ItemId} {x : Item} {xs : List Item}

section Listed

variable (agrees : m.Agrees K n) (inside : id ∈ K)
include agrees inside

theorem items_matches : Matches K (fun xs => ∀ x ∈ xs, x.Within K) (items id) m n := by
  refine .get_bind ?_
  rw [agrees.listItems inside]
  refine .pure ⟨agrees, fun x hx => agrees.closed id inside x ?_⟩
  rw [Heap.listItems] at hx
  rw [Heap.children]
  split at hx
  · rename_i stored
    rw [stored]
    exact hx
  · exact absurd hx List.not_mem_nil

theorem push_matches (within : x.Within K) : Matches K (fun _ => True) (push id x) m n := by
  refine (mustAccept_matches agrees inside within).bind fun _ m n kept => ?_
  refine (mustBeWritable_matches kept.1 inside).bind fun _ m n kept => ?_
  refine (items_matches kept.1 inside).bind fun xs m n kept => ?_
  refine (store_matches kept.1 inside ?_).bind fun _ m n kept =>
    reportAdded_matches kept.1 inside within
  intro y hy
  rcases List.mem_append.1 hy with hy | hy
  · exact kept.2 y hy
  · obtain rfl := List.mem_singleton.1 hy
    exact within

theorem set_matches (index : Nat) (within : x.Within K) :
    Matches K (fun _ => True) (set id index x) m n := by
  refine (mustAccept_matches agrees inside within).bind fun _ m n kept => ?_
  refine (mustBeWritable_matches kept.1 inside).bind fun _ m n kept => ?_
  refine (items_matches kept.1 inside).bind fun xs m n kept => ?_
  split
  · exact .refuse kept.1
  · refine (store_matches kept.1 inside fun y hy => ?_).bind fun _ m n kept =>
      (reportAdded_matches kept.1 inside within).bind fun _ m n kept =>
        reportRemoved_matches kept.1 inside _
    rcases List.mem_or_eq_of_mem_set hy with hy | rfl
    · exact kept.2 y hy
    · exact within

theorem insert_matches (index : Nat) (within : x.Within K) :
    Matches K (fun _ => True) (insert id index x) m n := by
  refine (mustAccept_matches agrees inside within).bind fun _ m n kept => ?_
  refine (mustBeWritable_matches kept.1 inside).bind fun _ m n kept => ?_
  refine (items_matches kept.1 inside).bind fun xs m n kept => ?_
  split
  · exact .refuse kept.1
  · rename_i bound
    refine (store_matches kept.1 inside fun y hy => ?_).bind fun _ m n kept =>
      reportAdded_matches kept.1 inside within
    rcases (List.mem_insertIdx (Nat.not_lt.1 bound)).1 hy with rfl | hy
    · exact within
    · exact kept.2 y hy

theorem remove_matches (index : Nat) : Matches K (fun _ => True) (remove id index) m n := by
  refine (mustBeWritable_matches agrees inside).bind fun _ m n kept => ?_
  refine (items_matches kept.1 inside).bind fun xs m n kept => ?_
  split
  · exact .refuse kept.1
  · rename_i old _
    have fewer : ∀ y ∈ (Storage.list (xs.eraseIdx index)).children, y.Within K :=
      fun y hy => kept.2 y (List.mem_of_mem_eraseIdx hy)
    refine (store_matches kept.1 inside fewer).bind fun _ m n kept => ?_
    exact (reportRemoved_matches kept.1 inside old).bind fun _ m n kept => .pure kept

theorem pop_matches : Matches K (fun _ => True) (pop id) m n := by
  refine (mustBeWritable_matches agrees inside).bind fun _ m n kept => ?_
  refine (items_matches kept.1 inside).bind fun xs m n kept => ?_
  split
  · exact .refuse kept.1
  · rename_i old _
    have fewer : ∀ y ∈ (Storage.list xs.dropLast).children, y.Within K :=
      fun y hy => kept.2 y (List.dropLast_subset xs hy)
    refine (store_matches kept.1 inside fewer).bind fun _ m n kept => ?_
    exact (reportRemoved_matches kept.1 inside old).bind fun _ m n kept => .pure kept

theorem clear_matches : Matches K (fun _ => True) (clear id) m n := by
  refine (mustBeWritable_matches agrees inside).bind fun _ m n kept => ?_
  refine (items_matches kept.1 inside).bind fun xs m n kept => ?_
  exact (store_matches kept.1 inside fun y hy => absurd hy List.not_mem_nil).bind
    fun _ m n kept => reportAllRemoved_matches xs inside kept.1

theorem reverse_matches : Matches K (fun _ => True) (reverse id) m n := by
  refine (mustBeWritable_matches agrees inside).bind fun _ m n kept => ?_
  refine (items_matches kept.1 inside).bind fun xs m n kept => ?_
  exact store_matches kept.1 inside fun y hy => kept.2 y (List.mem_reverse.1 hy)

end Listed

theorem shareOwner_matches (owner : Option CounterId) (xs : List Item) : ∀ {m n : Memory},
    m.Agrees K n → (∀ x ∈ xs, x.Within K) →
    Matches K (fun _ => True) (xs.forM (mustShareOwner owner)) m n := by
  induction xs with
  | nil => exact fun agrees _ => .pure ⟨agrees, trivial⟩
  | cons x xs ih =>
    intro m n agrees within
    obtain ⟨first, others⟩ := List.forall_mem_cons.1 within
    exact (mustShareOwner_matches agrees owner first).bind fun _ _ _ kept => ih kept.1 others

theorem create_twins (agrees : m.Agrees K n) (owner : Option CounterId)
    (within : ∀ x ∈ xs, x.Within K) :
    Twins (Agrees K) (fun a m n => m.Agrees (Insert.insert a K) n) (create owner xs)
      (create owner xs) m n :=
  (shareOwner_matches owner xs agrees within).bind fun _ _ _ kept =>
    newObject_twins kept.1 { storage := .list xs, owner } within

theorem createEmpty_twins {base : Set ItemId} (agrees : m.Agrees K n) (owner : Option CounterId)
    (subset : base ⊆ K) :
    Twins (AgreesBeyond base) (fun a m n => m.Agrees (Insert.insert a K) n) (create owner [])
      (create owner []) m n :=
  (create_twins agrees owner fun _ hy => absurd hy List.not_mem_nil).mono
    (fun _ _ kept => ⟨K, subset, kept⟩) fun _ _ _ kept => kept

def Queued (K : Set ItemId) (queue : List (ItemId × ItemId)) : Prop :=
  ∀ e ∈ queue, e.1 ∈ K ∧ e.2 ∈ K

theorem Queued.mono {K' : Set ItemId} {queue : List (ItemId × ItemId)} (queued : Queued K queue)
    (subset : K ⊆ K') : Queued K' queue := fun e he =>
  ⟨subset (queued e he).1, subset (queued e he).2⟩

variable {owner : Option CounterId}

theorem copyItems_twins {base : Set ItemId} (xs : List Item) : ∀ {K : Set ItemId} {m n : Memory}
    {room : Nat} {queue : List (ItemId × ItemId)}, base ⊆ K → m.Agrees K n → id ∈ K →
    (∀ x ∈ xs, x.Within K) → Queued K queue →
    Twins (AgreesBeyond base) (fun r m n => ∃ K', base ⊆ K' ∧ m.Agrees K' n ∧ Queued K' r.2)
      (copyItems owner id xs room queue) (copyItems owner id xs room queue) m n := by
  induction xs with
  | nil => exact fun {K} _ _ _ _ subset agrees _ _ queued => .pure ⟨K, subset, agrees, queued⟩
  | cons x xs ih =>
    intro K m n room queue subset agrees inside within queued
    obtain ⟨first, others⟩ := List.forall_mem_cons.1 within
    cases room with
    | zero => cases x <;> exact .refuse ⟨K, subset, agrees⟩
    | succ room =>
      have plain : Twins (AgreesBeyond base)
          (fun r m n => ∃ K', base ⊆ K' ∧ m.Agrees K' n ∧ Queued K' r.2)
          (push id x >>= fun _ => copyItems owner id xs room queue)
          (push id x >>= fun _ => copyItems owner id xs room queue) m n :=
        ((push_matches agrees inside first).beyond subset).bind fun _ _ _ kept =>
          ih subset kept.1 inside others queued
      cases x with
      | leaf l => exact plain
      | object kind source =>
        cases kind with
        | struct =>
          refine (createEmpty_twins agrees owner subset).bind fun copy m n agrees => ?_
          have more : K ⊆ Insert.insert copy K := Set.subset_insert copy K
          have new : (Item.object .struct copy).Within (Insert.insert copy K) := by
            intro a ha
            obtain rfl := Option.some.inj ha
            exact Set.mem_insert _ _
          refine ((push_matches agrees (more inside) new).beyond (subset.trans more)).bind ?_
          intro _ m n kept
          refine ih (subset.trans more) kept.1 (more inside)
            (fun y hy => (others y hy).mono more) fun e he => ?_
          rcases List.mem_append.1 he with he | he
          · exact queued.mono more e he
          · obtain rfl := List.mem_singleton.1 he
            exact ⟨Set.mem_insert _ _, more (first source rfl)⟩
        | array | map | buffer => exact plain

theorem copyQueue_twins {base : Set ItemId} (fuel : Nat) : ∀ {K : Set ItemId} {m n : Memory}
    {room : Nat} {queue : List (ItemId × ItemId)}, base ⊆ K → m.Agrees K n → Queued K queue →
    Twins (AgreesBeyond base) (fun _ m n => m.AgreesBeyond base n)
      (copyQueue owner fuel room queue) (copyQueue owner fuel room queue) m n := by
  induction fuel with
  | zero => exact fun {K} _ _ _ _ subset agrees _ => .pure ⟨K, subset, agrees⟩
  | succ fuel ih =>
    intro K m n room queue subset agrees queued
    match queue with
    | [] => exact .pure ⟨K, subset, agrees⟩
    | (target, source) :: queue =>
      obtain ⟨first, others⟩ := List.forall_mem_cons.1 queued
      refine ((items_matches agrees first.2).beyond subset).bind fun xs m n kept => ?_
      refine (copyItems_twins xs subset kept.1 first.1 kept.2 others).bind ?_
      rintro r m n ⟨K', subset', agrees', queued'⟩
      exact ih subset' agrees' queued'

/-- A copy joins the set together with the copies inside it. -/
theorem copyStruct_twins (agrees : m.Agrees K n) (inside : id ∈ K) (limit : Nat) :
    Twins (AgreesBeyond K) (fun a m n => m.AgreesBeyond (Insert.insert a K) n)
      (copyStruct id limit) (copyStruct id limit) m n := by
  refine .get_bind ?_
  rw [agrees.owner inside]
  refine (createEmpty_twins agrees (m.heap.owner id) subset_rfl).bind fun copy m' n' kept => ?_
  have more : K ⊆ Insert.insert copy K := Set.subset_insert copy K
  have queued : Queued (Insert.insert copy K) [(copy, id)] := by
    intro e he
    obtain rfl := List.mem_singleton.1 he
    exact ⟨Set.mem_insert _ _, more inside⟩
  refine ((copyQueue_twins (limit - 1 + 1) subset_rfl kept queued).mono ?_
    fun _ _ _ kept => kept).bind fun _ m n kept => .pure kept
  rintro m n ⟨K', subset, agrees⟩
  exact ⟨K', more.trans subset, agrees⟩

end ListObject

namespace MapObject

variable {K : Set ItemId} {m n : Memory} {id : ItemId} {k v : Item}

theorem mustBeKey_matches (agrees : m.Agrees K n) (k : Item) :
    Matches K (fun _ => ∃ l, k = .leaf l) (mustBeKey k) m n := by
  rw [mustBeKey]
  split
  · exact .refuse agrees
  · rename_i primitive
    split
    · exact .refuse agrees
    · refine .pure ⟨agrees, ?_⟩
      cases k with
      | leaf l => exact ⟨l, rfl⟩
      | object kind a => cases kind <;> exact absurd rfl primitive

section Mapped

variable (agrees : m.Agrees K n) (inside : id ∈ K)
include agrees inside

theorem entries_matches :
    Matches K (fun es => ∀ x ∈ (Storage.map es).children, x.Within K) (entries id) m n := by
  refine .get_bind ?_
  rw [agrees.mapEntries inside]
  refine .pure ⟨agrees, fun x hx => agrees.closed id inside x ?_⟩
  rw [Heap.mapEntries] at hx
  rw [Heap.children]
  split at hx
  · rename_i stored
    rw [stored]
    exact hx
  · exact absurd hx List.not_mem_nil

end Mapped

theorem within_erase {es : OrderedMap Item Item}
    (within : ∀ x ∈ (Storage.map es).children, x.Within K) (k : Item) :
    ∀ x ∈ (Storage.map (es.erase k)).children, x.Within K := by
  intro x hx
  obtain ⟨e, he, hx⟩ := List.mem_flatMap.1 hx
  exact within x (List.mem_flatMap.2 ⟨e, (OrderedMap.mem_toList_erase.1 he).1, hx⟩)

theorem within_insert {es : OrderedMap Item Item}
    (within : ∀ x ∈ (Storage.map es).children, x.Within K) (key : k.Within K) (value : v.Within K) :
    ∀ x ∈ (Storage.map (es.insert k v)).children, x.Within K := by
  intro x hx
  obtain ⟨e, he, hx⟩ := List.mem_flatMap.1 hx
  rcases OrderedMap.mem_toList_insert.1 he with rfl | ⟨he, -⟩
  · rcases List.mem_cons.1 hx with rfl | hx
    · exact key
    · obtain rfl := List.mem_singleton.1 hx
      exact value
  · exact within x (List.mem_flatMap.2 ⟨e, he, hx⟩)

section Mapped

variable (agrees : m.Agrees K n) (inside : id ∈ K)
include agrees inside

theorem set_matches (within : v.Within K) :
    Matches K (fun _ => True) (set id k v) m n := by
  refine (mustBeKey_matches agrees k).bind fun _ m n kept => ?_
  obtain ⟨agrees, l, rfl⟩ := kept
  have key := Item.Within.leaf K l
  refine (mustAccept_matches agrees inside within).bind fun _ m n kept => ?_
  refine (mustBeWritable_matches kept.1 inside).bind fun _ m n kept => ?_
  refine (entries_matches kept.1 inside).bind fun es m n kept => ?_
  cases es.get? (.leaf l) with
  | none =>
    refine (store_matches kept.1 inside (within_insert kept.2 key within)).bind
      fun _ m n kept => ?_
    refine (reportAdded_matches kept.1 inside key).bind fun _ m n kept => ?_
    exact (reportAdded_matches kept.1 inside within).bind fun _ m n kept => .pure kept
  | some old =>
    refine (store_matches kept.1 inside (within_insert kept.2 key within)).bind
      fun _ m n kept => ?_
    refine (reportAdded_matches kept.1 inside within).bind fun _ m n kept => ?_
    exact (reportRemoved_matches kept.1 inside old).bind fun _ m n kept => .pure kept

theorem remove_matches : Matches K (fun _ => True) (remove id k) m n := by
  refine (mustBeKey_matches agrees k).bind fun _ m n kept => ?_
  refine (mustBeWritable_matches kept.1 inside).bind fun _ m n kept => ?_
  refine (entries_matches kept.1 inside).bind fun es m n kept => ?_
  cases es.get? k with
  | none => exact .pure ⟨kept.1, trivial⟩
  | some old =>
    refine (store_matches kept.1 inside (within_erase kept.2 k)).bind fun _ m n kept => ?_
    refine (reportRemoved_matches kept.1 inside k).bind fun _ m n kept => ?_
    exact (reportRemoved_matches kept.1 inside old).bind fun _ m n kept => .pure kept

theorem clear_matches : Matches K (fun _ => True) (clear id) m n := by
  refine (mustBeWritable_matches agrees inside).bind fun _ m n kept => ?_
  refine (entries_matches kept.1 inside).bind fun es m n kept => ?_
  exact (store_matches kept.1 inside fun y hy => absurd hy List.not_mem_nil).bind
    fun _ m n kept => reportAllRemoved_matches _ inside kept.1

theorem get?_matches : Matches K (fun _ => True) (get? id k) m n := by
  refine (mustBeKey_matches agrees k).bind fun _ m n kept => ?_
  exact (entries_matches kept.1 inside).bind fun es m n kept => .pure ⟨kept.1, trivial⟩

theorem contains_matches : Matches K (fun _ => True) (contains id k) m n := by
  refine (mustBeKey_matches agrees k).bind fun _ m n kept => ?_
  exact (entries_matches kept.1 inside).bind fun es m n kept => .pure ⟨kept.1, trivial⟩

end Mapped

theorem create_twins (agrees : m.Agrees K n) (owner : Option CounterId) :
    Twins (Agrees K) (fun a m n => m.Agrees (Insert.insert a K) n) (create owner) (create owner)
      m n :=
  newObject_twins agrees { storage := .map {}, owner } fun _ hx => absurd hx List.not_mem_nil

end MapObject

namespace BufferObject

variable {K : Set ItemId} {m n : Memory} {id : ItemId}

theorem create_twins (agrees : m.Agrees K n) (data : List UInt8) :
    Twins (Agrees K) (fun a m n => m.Agrees (Insert.insert a K) n) (create data) (create data)
      m n :=
  newObject_twins agrees { storage := .bytes data } fun _ hx => absurd hx List.not_mem_nil

theorem set_matches (agrees : m.Agrees K n) (inside : id ∈ K) (index : Nat) (b : UInt8) :
    Matches K (fun _ => True) (set id index b) m n := by
  refine .get_bind ?_
  rw [agrees.bytes inside]
  by_cases bound : index < (m.heap.bytes id).length
  · simp only [if_pos bound]
    exact store_matches agrees inside fun _ hx => absurd hx List.not_mem_nil
  · simp only [if_neg bound]
    exact .refuse agrees

end BufferObject

end LiveItems
