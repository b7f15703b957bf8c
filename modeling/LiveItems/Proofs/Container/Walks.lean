import LiveItems.Proofs.Container.List
import LiveItems.Proofs.Container.Map
import LiveItems.Proofs.Memory.Walks
set_option autoImplicit false

namespace LiveItems

open LiveItems.Action (Ends)
open Memory

variable {A : Set CounterId} {m : Memory} {id : ItemId} {x : Item} {xs : List Item} {α : Type}
  {post : α → Memory → Prop}

namespace Memory

theorem writable_walking {f : Action Memory α} (next : Walking A post f m) :
    Walking A post (mustBeWritable id >>= fun _ => f) m :=
  Walking.checked ((mustBeWritable_ends m id).imp fun _ _ same => ⟨same, trivial⟩) fun _ _ => next

theorem accepted_walking {f : Action Memory α}
    (next : (∀ c, m.heap.owner id = some c → x.isCompound → m.heap.ownerOf x = some c) →
      Walking A post f m) :
    Walking A post (mustAccept id x >>= fun _ => mustBeWritable id >>= fun _ => f) m :=
  Walking.checked (mustAccept_ends m id x) fun _ fits => writable_walking (next fits)

theorem governs_of_new {o : Object} (new : m.heap.object? id = some o)
    (owner : ∀ c, o.owner = some c → c ∈ A) : m.Governs A id := by
  refine ⟨Heap.mem_ids.2 ⟨o, new⟩, fun c owned => owner c ?_⟩
  rwa [Heap.owner, new] at owned

end Memory

namespace ListObject

theorem stored_mayHold (apart : m.Apart) (listed : m.heap.storage? id = some (.list xs))
    (hx : x ∈ xs) : m.heap.MayHold id x := by
  refine apart.heap.holds id x ?_
  rw [Heap.children, listed]
  exact hx

section Listed

variable (apart : m.Apart) (governs : m.Governs A id)
  (listed : m.heap.storage? id = some (.list xs))
include apart governs listed

theorem replace_walking {ys : List Item} {reports : Action Memory α}
    (may : ∀ y ∈ ys, y ∈ xs ∨ m.heap.MayHold id y)
    (next : ∀ t, m.Walks A t → t.Apart → t.Governs A id → Walking A post reports t) :
    Walking A post (store id (.list ys) >>= fun _ => reports) m := by
  refine Walking.store apart governs listed Storage.suits_list (fun y hy => ?_) next
  rcases may y hy with held | may
  · exact stored_mayHold apart listed held
  · exact may

theorem push_walking (known : m.heap.Knows x) :
    Walking A (fun _ _ => True) (push id x) m := by
  refine accepted_walking fun fits => Ends.get_bind ?_
  rw [listItems_eq listed]
  refine replace_walking apart governs listed (fun y hy => ?_)
    fun t walks apart' governs' => reportAdded_walking apart' governs' (walks.knows apart known)
  rcases List.mem_append.1 hy with hy | hy
  · exact .inl hy
  · exact .inr (List.mem_singleton.1 hy ▸ mayHold listed known fits)

theorem set_walking (known : m.heap.Knows x) (index : Nat) :
    Walking A (fun _ _ => True) (set id index x) m := by
  refine accepted_walking fun fits => Ends.get_bind ?_
  rw [listItems_eq listed]
  split
  · exact Walking.refuse _
  · rename_i old _
    refine replace_walking apart governs listed (fun y hy => ?_) fun t walks apart' governs' => ?_
    · rcases List.mem_or_eq_of_mem_set hy with hy | rfl
      · exact .inl hy
      · exact .inr (mayHold listed known fits)
    · refine (reportAdded_walking apart' governs' (walks.knows apart known)).bind
        fun _ u further _ => ?_
      exact reportRemoved_walking (further.apart apart') (further.governs apart' governs') old

theorem insert_walking (known : m.heap.Knows x) (index : Nat) :
    Walking A (fun _ _ => True) (insert id index x) m := by
  refine accepted_walking fun fits => Ends.get_bind ?_
  rw [listItems_eq listed]
  split
  · exact Walking.refuse _
  · rename_i inside
    refine replace_walking apart governs listed (fun y hy => ?_)
      fun t walks apart' governs' => reportAdded_walking apart' governs' (walks.knows apart known)
    rcases (List.mem_insertIdx (by omega)).1 hy with rfl | hy
    · exact .inr (mayHold listed known fits)
    · exact .inl hy

theorem take_walking {ys : List Item} (held : x ∈ xs) (sub : ∀ y ∈ ys, y ∈ xs) :
    Walking A (fun a t => t.heap.Knows a)
      (store id (.list ys) >>= fun _ => reportRemoved id x >>= fun _ => pure x) m := by
  refine replace_walking apart governs listed (fun y hy => .inl (sub y hy))
    fun t walks apart' governs' => ?_
  refine (reportRemoved_walking apart' governs' x).bind fun _ u further _ => Walking.pure ?_
  exact further.knows apart' (walks.knows apart (stored_mayHold apart listed held).known)

theorem remove_walking (index : Nat) :
    Walking A (fun a t => t.heap.Knows a) (remove id index) m := by
  refine writable_walking (Ends.get_bind ?_)
  rw [listItems_eq listed]
  split
  · exact Walking.refuse _
  · rename_i old at_index
    exact take_walking apart governs listed (List.mem_of_getElem? at_index)
      fun y hy => List.mem_of_mem_eraseIdx hy

theorem pop_walking : Walking A (fun a t => t.heap.Knows a) (pop id) m := by
  refine writable_walking (Ends.get_bind ?_)
  rw [listItems_eq listed]
  split
  · exact Walking.refuse _
  · rename_i old last
    exact take_walking apart governs listed (List.mem_of_getLast? last)
      fun y hy => List.mem_of_mem_dropLast hy

theorem clear_walking : Walking A (fun _ _ => True) (clear id) m := by
  refine writable_walking (Ends.get_bind ?_)
  rw [listItems_eq listed]
  exact replace_walking apart governs listed (fun y hy => absurd hy List.not_mem_nil)
    fun t _ apart' governs' => reportAllRemoved_walking apart' governs' xs

theorem reverse_walking : Walking A (fun _ _ => True) (reverse id) m := by
  refine writable_walking (Ends.get_bind ?_)
  rw [listItems_eq listed]
  refine walking_of_walks (store_walks apart governs listed Storage.suits_list fun y hy => ?_)
  exact stored_mayHold apart listed (List.mem_reverse.1 hy)

end Listed

variable {owner : Option CounterId}

theorem create_walking (apart : m.Apart) (owned : ∀ c, owner = some c → c < m.counters.length)
    (known : ∀ x ∈ xs, m.heap.Knows x) :
    Walking A (fun a t => t.heap.object? a = some { storage := .list xs, owner })
      (create owner xs) m :=
  Walking.checked (shareOwner_ends m owner xs) fun _ fits =>
    newObject_walking apart (o := { storage := .list xs, owner }) known fits owned

theorem knows_of_new (new : m.heap.object? id = some { storage := .list xs, owner }) :
    m.heap.Knows (.object .struct id) := by
  have listed : m.heap.storage? id = some (.list xs) := by
    rw [Heap.storage?, new]
    rfl
  exact knows_of_list listed (.inr rfl)

def Copying (m : Memory) (A : Set CounterId) (queue : List (ItemId × ItemId)) : Prop :=
  ∀ e ∈ queue, m.Governs A e.1 ∧ m.heap.Knows (.object .struct e.1) ∧
    m.heap.Knows (.object .struct e.2)

theorem Copying.walks {queue : List (ItemId × ItemId)} {t : Memory} (copying : Copying m A queue)
    (apart : m.Apart) (walks : m.Walks A t) : Copying t A queue := by
  intro e he
  obtain ⟨governs, copy, source⟩ := copying e he
  exact ⟨walks.governs apart governs, walks.knows apart copy, walks.knows apart source⟩

theorem copyItems_walking (among : ∀ c, owner = some c → c ∈ A) (xs : List Item) (room : Nat)
    (queue : List (ItemId × ItemId)) : ∀ {m : Memory}, m.Apart →
    (∀ c, owner = some c → c < m.counters.length) → m.Governs A id →
    m.heap.Knows (.object .struct id) → (∀ x ∈ xs, m.heap.Knows x) → Copying m A queue →
    Walking A (fun r t => Copying t A r.2) (copyItems owner id xs room queue) m := by
  -- pushing keeps everything that the next items need
  have pushed : ∀ {x : Item} {m : Memory}, m.Apart → m.Governs A id →
      m.heap.Knows (.object .struct id) → m.heap.Knows x →
      Walking A (fun _ _ => True) (push id x) m := by
    intro x m apart governs target known
    obtain ⟨ys, listed⟩ := target.list (.inr rfl)
    exact push_walking apart governs listed known
  fun_induction copyItems owner id xs room queue with
  | case1 =>
    intro m _ _ _ _ _ copying
    exact Walking.pure copying
  | case2 =>
    intro m _ _ _ _ _ _
    exact Walking.refuse _
  | case3 source xs room queue ih =>
    intro m apart owned governs target known copying
    obtain ⟨first, others⟩ := List.forall_mem_cons.1 known
    refine (create_walking apart owned fun y hy => absurd hy List.not_mem_nil).bind
      fun copy t made new => ?_
    have apart₁ := made.apart apart
    have struct := knows_of_new new
    refine (pushed apart₁ (made.governs apart governs) (made.knows apart target) struct).bind
      fun _ u added _ => ?_
    have both := made.trans added
    refine ih copy (added.apart apart₁)
      (fun c hc => (owned c hc).trans_le (both.extends apart).counters)
      (both.governs apart governs) (both.knows apart target)
      (fun y hy => both.knows apart (others y hy)) fun e he => ?_
    rcases List.mem_append.1 he with he | he
    · exact copying.walks apart both e he
    · obtain rfl := List.mem_singleton.1 he
      exact ⟨added.governs apart₁ (governs_of_new new among), added.knows apart₁ struct,
        both.knows apart first⟩
  | case4 x xs room queue _ ih =>
    intro m apart owned governs target known copying
    obtain ⟨first, others⟩ := List.forall_mem_cons.1 known
    refine (pushed apart governs target first).bind fun _ t walks _ => ?_
    exact ih (walks.apart apart)
      (fun c hc => (owned c hc).trans_le (walks.extends apart).counters)
      (walks.governs apart governs) (walks.knows apart target)
      (fun y hy => walks.knows apart (others y hy)) (copying.walks apart walks)

theorem copyQueue_walking (among : ∀ c, owner = some c → c ∈ A) (fuel : Nat) :
    ∀ {m : Memory} {room : Nat} {queue : List (ItemId × ItemId)}, m.Apart →
    (∀ c, owner = some c → c < m.counters.length) → Copying m A queue →
    Walking A (fun _ _ => True) (copyQueue owner fuel room queue) m := by
  induction fuel with
  | zero => exact fun _ _ _ => Walking.pure trivial
  | succ fuel ih =>
    intro m room queue apart owned copying
    match queue with
    | [] => exact Walking.pure trivial
    | (target, source) :: queue =>
      obtain ⟨⟨governs, copy, listed⟩, others⟩ := List.forall_mem_cons.1 copying
      obtain ⟨xs, listed⟩ := listed.list (.inr rfl)
      refine Ends.get_bind ?_
      rw [listItems_eq listed]
      have stored : ∀ x ∈ xs, m.heap.Knows x := fun x hx =>
        (stored_mayHold apart listed hx).known
      refine (copyItems_walking among xs room queue apart owned governs copy stored others).bind
        fun r t walks copying' => ?_
      exact ih (walks.apart apart)
        (fun c hc => (owned c hc).trans_le (walks.extends apart).counters) copying'

theorem copyStruct_walking (apart : m.Apart) (governs : m.Governs A id)
    (known : m.heap.Knows (.object .struct id)) (limit : Nat) :
    Walking A (fun a t => t.heap.Knows (.object .struct a)) (copyStruct id limit) m := by
  have owned : ∀ c, m.heap.owner id = some c → c < m.counters.length :=
    fun c => apart.heap.owners id c
  refine Ends.get_bind ?_
  refine (create_walking apart owned fun y hy => absurd hy List.not_mem_nil).bind
    fun copy t made new => ?_
  have struct := knows_of_new new
  have copying : Copying t A [(copy, id)] := by
    intro e he
    obtain rfl := List.mem_singleton.1 he
    exact ⟨governs_of_new new governs.owner, struct, made.knows apart known⟩
  refine (copyQueue_walking governs.owner _ (made.apart apart)
    (fun c hc => (owned c hc).trans_le (made.extends apart).counters) copying).bind
    fun _ u filled _ => Walking.pure ?_
  exact filled.knows (made.apart apart) struct

end ListObject

namespace MapObject

variable {k v : Item} {es : OrderedMap Item Item}

section Mapped

variable (apart : m.Apart) (mapped : m.heap.storage? id = some (.map es))
include apart mapped

theorem stored_mayHold (hx : x ∈ (Storage.map es).children) : m.heap.MayHold id x := by
  refine apart.heap.holds id x ?_
  rw [Heap.children, mapped]
  exact hx

theorem rest_mayHold (k : Item) (hx : x ∈ (Storage.map (es.erase k)).children) :
    m.heap.MayHold id x := by
  refine stored_mayHold apart mapped ?_
  cases found : es.get? k with
  | none => rwa [← Storage.children_absent found]
  | some old =>
    have perm := Storage.children_present found
    exact perm.mem_iff.2 (List.mem_cons_of_mem k (List.mem_cons_of_mem old hx))

theorem value_known (present : es.get? k = some v) : m.heap.Knows v := by
  have perm := Storage.children_present present
  exact (stored_mayHold apart mapped
    (perm.mem_iff.2 (List.mem_cons_of_mem k List.mem_cons_self))).known

theorem get?_walking :
    Walking A (fun a t => ∀ x, a = some x → t.heap.Knows x) (get? id k) m := by
  refine Walking.checked (mustBeKey_ends m k) fun _ _ => Ends.get_bind ?_
  rw [mapEntries_eq mapped]
  exact Walking.pure fun x present => value_known apart mapped present

variable (governs : m.Governs A id)
include governs

theorem set_walking (known : m.heap.Knows v) :
    Walking A (fun a t => ∀ x, a = some x → t.heap.Knows x) (set id k v) m := by
  refine Walking.checked (mustBeKey_ends m k) fun _ leaf => ?_
  obtain ⟨l, rfl⟩ := leaf
  refine accepted_walking fun fits => Ends.get_bind ?_
  rw [mapEntries_eq mapped]
  refine Walking.store apart governs mapped Storage.suits_map (fun y hy => ?_)
    fun t walks apart₁ governs₁ => ?_
  · rcases List.mem_cons.1 ((Storage.children_insert es (.leaf l) v).mem_iff.1 hy) with rfl | hy
    · exact Heap.MayHold.leaf (container mapped) l
    · rcases List.mem_cons.1 hy with rfl | hy
      · exact ⟨container mapped, known, fits⟩
      · exact rest_mayHold apart mapped (.leaf l) hy
  · have value : t.heap.Knows v := walks.knows apart known
    cases found : es.get? (.leaf l) with
    | none =>
      -- both the key and the value are new
      simp only [Option.isNone_none, if_true]
      refine (reportAdded_walking apart₁ governs₁ (.leaf _ l)).bind fun _ u walks₁ _ => ?_
      refine (reportAdded_walking (walks₁.apart apart₁) (walks₁.governs apart₁ governs₁)
        (walks₁.knows apart₁ value)).bind fun _ w _ _ => Walking.pure fun x hx => ?_
      exact absurd hx (by simp)
    | some old =>
      -- the value takes the place of the old one
      simp only [Option.isNone_some, Bool.false_eq_true, if_false]
      have before := walks.knows apart (value_known apart mapped found)
      refine (reportAdded_walking apart₁ governs₁ value).bind fun _ u walks₁ _ => ?_
      have apart₂ := walks₁.apart apart₁
      refine (reportRemoved_walking apart₂ (walks₁.governs apart₁ governs₁) old).bind
        fun _ w walks₂ _ => Walking.pure fun x hx => ?_
      obtain rfl := Option.some.inj hx
      exact walks₂.knows apart₂ (walks₁.knows apart₁ before)

theorem remove_walking :
    Walking A (fun a t => ∀ x, a = some x → t.heap.Knows x) (remove id k) m := by
  refine Walking.checked (mustBeKey_ends m k) fun _ _ => ?_
  refine writable_walking (Ends.get_bind ?_)
  rw [mapEntries_eq mapped]
  split
  · exact Walking.pure fun x hx => absurd hx (by simp)
  · rename_i old found
    refine Walking.store apart governs mapped Storage.suits_map
      (fun y hy => rest_mayHold apart mapped k hy) fun t walks apart₁ governs₁ => ?_
    have known := walks.knows apart (value_known apart mapped found)
    refine (reportRemoved_walking apart₁ governs₁ k).bind fun _ u walks₁ _ => ?_
    have apart₂ := walks₁.apart apart₁
    refine (reportRemoved_walking apart₂ (walks₁.governs apart₁ governs₁) old).bind
      fun _ w walks₂ _ => Walking.pure fun x hx => ?_
    obtain rfl := Option.some.inj hx
    exact walks₂.knows apart₂ (walks₁.knows apart₁ known)

theorem clear_walking : Walking A (fun _ _ => True) (clear id) m := by
  refine writable_walking (Ends.get_bind ?_)
  rw [mapEntries_eq mapped]
  exact Walking.store apart governs mapped Storage.suits_map
    (fun y hy => absurd hy List.not_mem_nil)
    fun t _ apart₁ governs₁ => reportAllRemoved_walking apart₁ governs₁ _

end Mapped

theorem contains_walking : Walking A (fun _ _ => True) (contains id k) m :=
  Walking.checked (mustBeKey_ends m k) fun _ _ => Ends.get_bind (Walking.pure trivial)

theorem create_walking (apart : m.Apart) {owner : Option CounterId}
    (owned : ∀ c, owner = some c → c < m.counters.length) :
    Walking A (fun a t => t.heap.Knows (.object .map a)) (create owner) m := by
  have nothing : (Storage.map {}).children = [] := rfl
  refine Ends.imp (newObject_walking apart (o := { storage := .map {}, owner })
    (fun x hx => absurd (nothing ▸ hx) List.not_mem_nil)
    (fun x hx => absurd (nothing ▸ hx) List.not_mem_nil) owned) fun a t made => ⟨made.1, ?_⟩
  intro kind id same
  obtain ⟨rfl, rfl⟩ := Item.object.inj same
  exact ⟨.map {}, by rw [Heap.storage?, made.2]; rfl, trivial⟩

end MapObject

namespace BufferObject

theorem create_walking (apart : m.Apart) (data : List UInt8) :
    Walking A (fun a t => t.heap.Knows (.object .buffer a)) (create data) m := by
  refine Ends.imp (newObject_walking apart (o := { storage := .bytes data })
    (fun x hx => absurd hx List.not_mem_nil) (fun x hx => absurd hx List.not_mem_nil)
    fun d hd => absurd hd (by simp)) fun a t made => ⟨made.1, ?_⟩
  intro kind id same
  obtain ⟨rfl, rfl⟩ := Item.object.inj same
  exact ⟨.bytes data, by rw [Heap.storage?, made.2]; rfl, trivial⟩

theorem set_walking (apart : m.Apart) (governs : m.Governs A id) {data : List UInt8}
    (stored : m.heap.storage? id = some (.bytes data)) (index : Nat) (b : UInt8) :
    Walking A (fun _ _ => True) (set id index b) m := by
  refine Ends.get_bind ?_
  by_cases inside : index < (m.heap.bytes id).length
  · simp only [if_pos inside]
    refine walking_of_walks (store_walks apart governs stored (fun kind suits => ?_)
      fun y hy => absurd hy List.not_mem_nil)
    cases kind <;> exact suits
  · simp only [if_neg inside]
    exact Walking.refuse _

end BufferObject

end LiveItems
