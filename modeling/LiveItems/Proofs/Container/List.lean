import LiveItems.Container.Copy
import LiveItems.Proofs.Container.Basic
set_option autoImplicit false

namespace LiveItems

namespace ListObject

open Memory

variable {strict : Prop} {roots : CounterId → Multiset Item} {m : Memory} {id : ItemId} {x : Item}
  {xs : List Item}

theorem mayHold (listed : m.heap.storage? id = some (.list xs)) (known : m.heap.Knows x)
    (fits : ∀ c, m.heap.owner id = some c → x.isCompound → m.heap.ownerOf x = some c) :
    m.heap.MayHold id x :=
  ⟨fun data stored => by rw [listed] at stored; exact absurd stored (by simp), known, fits⟩

theorem listItems_eq (listed : m.heap.storage? id = some (.list xs)) :
    m.heap.listItems id = xs := by
  rw [Heap.listItems, listed]

section Listed

variable (sound : m.Sound strict roots) (listed : m.heap.storage? id = some (.list xs))
include sound listed

theorem holds (hx : x ∈ xs) : m.heap.MayHold id x := by
  refine sound.heap.holds id x ?_
  rw [Heap.children, listed]
  exact hx

theorem add_safe (may : m.heap.MayHold id x) {ys : List Item} (perm : ys.Perm (x :: xs)) :
    Safe strict roots (fun _ t => m.Retains t)
      (store id (.list ys) >>= fun _ => reportAdded id x) m := by
  refine sound.change listed Storage.suits_list (fun y hy => ?_) fun holding ext _ => ?_
  · rcases List.mem_cons.1 (perm.mem_iff.1 hy) with rfl | hy
    · exact may
    · exact holds sound listed hy
  · obtain ⟨m', run, holding', recounts, retains⟩ :=
      holding.reportAdded (ext.mayHold (Heap.mem_ids_of_storage listed) may)
    have same : x ::ₘ (xs : Multiset Item) = ys := Multiset.coe_eq_coe.2 perm.symm
    exact ⟨_, m', run, same ▸ holding', recounts, fun _ => retains⟩

theorem take_safe {ys : List Item} (perm : (x :: ys).Perm xs) :
    Safe strict roots (fun a t => t.heap.Knows a)
      (store id (.list ys) >>= fun _ => reportRemoved id x >>= fun _ => pure x) m := by
  have held : x ∈ xs := perm.mem_iff.1 List.mem_cons_self
  refine sound.change listed Storage.suits_list (fun y hy => ?_) fun holding _ stores => ?_
  · exact holds sound listed (perm.mem_iff.1 (List.mem_cons_of_mem x hy))
  · have same : (xs : Multiset Item) = x ::ₘ ys := (Multiset.coe_eq_coe.2 perm).symm
    rw [Storage.children, same] at holding
    obtain ⟨m', run, holding', recounts⟩ :=
      holding.reportRemoved (stores ▸ Multiset.Subset.refl _)
    refine ⟨x, m', ?_, holding', recounts, fun moved => ?_⟩
    · rw [Action.apply_bind, run]
      rfl
    · exact moved.heap.knows (holds sound listed held).known

theorem push_safe (known : m.heap.Knows x) :
    Safe strict roots (fun _ t => m.Retains t) (push id x) m := by
  refine (mustAccept_ends m id x).bind ?_
  rintro _ t ⟨rfl, fits⟩
  refine (mustBeWritable_ends t id).bind ?_
  rintro _ t rfl
  refine .get_bind ?_
  rw [listItems_eq listed]
  exact add_safe sound listed (mayHold listed known fits) (List.perm_append_singleton x xs)

theorem insert_safe (known : m.heap.Knows x) (index : Nat) :
    Safe strict roots (fun _ _ => True) (insert id index x) m := by
  refine (mustAccept_ends m id x).bind ?_
  rintro _ t ⟨rfl, fits⟩
  refine (mustBeWritable_ends t id).bind ?_
  rintro _ t rfl
  refine .get_bind ?_
  rw [listItems_eq listed]
  split
  · exact .refuse (.intro _ _)
  · rename_i inside
    exact Action.Ends.imp (add_safe sound listed (mayHold listed known fits)
      (List.perm_insertIdx x xs (by omega))) fun _ _ kept => ⟨kept.1, kept.2.1, trivial⟩

theorem set_safe (known : m.heap.Knows x) (index : Nat) :
    Safe strict roots (fun _ _ => True) (set id index x) m := by
  refine (mustAccept_ends m id x).bind ?_
  rintro _ t ⟨rfl, fits⟩
  refine (mustBeWritable_ends t id).bind ?_
  rintro _ t rfl
  refine .get_bind ?_
  rw [listItems_eq listed]
  have may := mayHold listed known fits
  split
  · exact .refuse (.intro _ _)
  · rename_i old at_index
    have perm := set_perm at_index x
    refine sound.change listed Storage.suits_list (fun y hy => ?_) fun holding ext stores => ?_
    · rcases List.mem_cons.1 (perm.mem_iff.1 (List.mem_cons_of_mem old hy)) with rfl | hy
      · exact may
      · exact holds sound listed hy
    · obtain ⟨m₁, first, holding₁, recounts₁, -⟩ :=
        holding.reportAdded (ext.mayHold (Heap.mem_ids_of_storage listed) may)
      have same : x ::ₘ (xs : Multiset Item) = old ::ₘ (xs.set index x : List Item) :=
        (Multiset.coe_eq_coe.2 perm).symm
      rw [Storage.children, same] at holding₁
      obtain ⟨m₂, second, holding₂, recounts₂⟩ := holding₁.reportRemoved
        (contents_recounts recounts₁ ▸ stores ▸ Multiset.Subset.refl _)
      refine ⟨(), m₂, ?_, holding₂, recounts₁.trans recounts₂, fun _ => trivial⟩
      rw [Action.apply_bind, first]
      exact second

theorem remove_safe (index : Nat) :
    Safe strict roots (fun a t => t.heap.Knows a) (remove id index) m := by
  refine (mustBeWritable_ends m id).bind ?_
  rintro _ t rfl
  refine .get_bind ?_
  rw [listItems_eq listed]
  split
  · exact .refuse (.intro _ _)
  · rename_i old at_index
    exact take_safe sound listed (eraseIdx_perm at_index)

theorem pop_safe : Safe strict roots (fun a t => t.heap.Knows a) (pop id) m := by
  refine (mustBeWritable_ends m id).bind ?_
  rintro _ t rfl
  refine .get_bind ?_
  rw [listItems_eq listed]
  split
  · exact .refuse (.intro _ _)
  · rename_i old last
    exact take_safe sound listed (dropLast_perm last)

theorem clear_safe : Safe strict roots (fun _ _ => True) (clear id) m := by
  refine (mustBeWritable_ends m id).bind ?_
  rintro _ t rfl
  refine .get_bind ?_
  rw [listItems_eq listed]
  refine sound.change listed Storage.suits_list (fun y hy => absurd hy List.not_mem_nil)
    fun holding _ stores => ?_
  rw [Storage.children, ← add_zero (xs : Multiset Item)] at holding
  obtain ⟨m', run, holding', recounts⟩ :=
    Holding.reportAllRemoved xs holding (stores ▸ Multiset.Subset.refl _)
  exact ⟨_, m', run, holding', recounts, fun _ => trivial⟩

theorem reverse_safe : Safe strict roots (fun _ _ => True) (reverse id) m := by
  refine (mustBeWritable_ends m id).bind ?_
  rintro _ t rfl
  refine .get_bind ?_
  rw [listItems_eq listed]
  exact sound.reorder listed Storage.suits_list (List.reverse_perm xs).symm

end Listed

theorem knows_of_list {h : Heap} (listed : h.storage? id = some (.list xs)) {kind : ObjectKind}
    (form : kind = .array ∨ kind = .struct) : h.Knows (.object kind id) := by
  rintro kind' id' same
  obtain ⟨rfl, rfl⟩ := Item.object.inj same
  rcases form with rfl | rfl
  · exact ⟨_, listed, trivial⟩
  · exact ⟨_, listed, trivial⟩

theorem shareOwner_ends (m : Memory) (owner : Option CounterId) (xs : List Item) :
    Action.Ends (Action.Refused m) (fun _ t => t = m ∧
      ∀ x ∈ xs, ∀ c, owner = some c → x.isCompound → m.heap.ownerOf x = some c)
      (xs.forM (mustShareOwner owner)) m := by
  induction xs with
  | nil => exact .pure ⟨rfl, fun x hx => absurd hx List.not_mem_nil⟩
  | cons x xs ih =>
    refine Action.Ends.bind (mustShareOwner_ends m owner x) ?_
    rintro _ t ⟨rfl, first⟩
    refine ih.imp fun _ u others => ⟨others.1, fun y hy => ?_⟩
    rcases List.mem_cons.1 hy with rfl | hy
    · exact first
    · exact others.2 y hy

theorem create_safe (sound : m.Sound strict roots) {owner : Option CounterId}
    (owned : ∀ c, owner = some c → c < m.counters.length) (known : ∀ x ∈ xs, m.heap.Knows x) :
    Safe strict roots (fun a t => m.Retains t ∧ t.heap.storage? a = some (.list xs))
      (create owner xs) m := by
  refine (shareOwner_ends m owner xs).bind ?_
  rintro _ t ⟨rfl, fits⟩
  exact sound.newObject (o := { storage := .list xs, owner }) known fits owned

def Waiting (h : Heap) (queue : List (ItemId × ItemId)) : Prop :=
  ∀ e ∈ queue, h.Knows (.object .struct e.1) ∧ h.Knows (.object .struct e.2)

theorem Waiting.extend {h h' : Heap} {queue : List (ItemId × ItemId)} (waiting : Waiting h queue)
    (ext : h.Extends h') : Waiting h' queue := fun e he =>
  ⟨ext.knows (waiting e he).1, ext.knows (waiting e he).2⟩

structure Grown (strict : Prop) (roots : CounterId → Multiset Item) (base m : Memory) : Prop where
  sound : m.Sound strict roots
  extended : base.Extends m
  retains : base.Retains m

/-- Only adds to what there has been in `base`, whether it succeeds or is refused. -/
abbrev Adds {α : Type} (strict : Prop) (roots : CounterId → Multiset Item) (base : Memory)
    (post : α → Memory → Prop) (x : Action Memory α) (m : Memory) : Prop :=
  Action.Ends (fun e t => (∃ why, e = .invalidOperation why) ∧ Grown strict roots base t)
    (fun a t => Grown strict roots base t ∧ post a t) x m

variable {owner : Option CounterId} {queue : List (ItemId × ItemId)} {base : Memory}

theorem Grown.counters (grown : Grown strict roots base m)
    (owned : ∀ c, owner = some c → c < base.counters.length) :
    ∀ c, owner = some c → c < m.counters.length := fun c hc =>
  Nat.lt_of_lt_of_le (owned c hc) grown.extended.counters

theorem Grown.start (sound : m.Sound strict roots) : Grown strict roots m m :=
  ⟨sound, .refl m, .refl m⟩

theorem Grown.trans {m' : Memory} (first : Grown strict roots base m)
    (second : Grown strict roots m m') : Grown strict roots base m' :=
  ⟨second.sound, first.extended.trans second.extended, first.retains.trans second.retains⟩

theorem Grown.adds {α : Type} {post : α → Memory → Prop} {x : Action Memory α}
    (grown : Grown strict roots base m)
    (safe : Safe strict roots (fun a t => m.Retains t ∧ post a t) x m) :
    Adds strict roots base (fun a t => m.Extends t ∧ post a t) x m := by
  refine safe.mono ?_ ?_
  · rintro e t ⟨why, rfl⟩
    exact ⟨why, grown⟩
  · rintro a t ⟨sound, moved, retains, answered⟩
    exact ⟨⟨sound, grown.extended.trans moved.toExtends, grown.retains.trans retains⟩,
      moved.toExtends, answered⟩

theorem Grown.push {y : Item} (grown : Grown strict roots base m)
    (target : m.heap.Knows (.object .struct id)) (known : m.heap.Knows y) :
    Adds strict roots base (fun _ t => m.Extends t) (push id y) m := by
  obtain ⟨ys, listed⟩ := target.list (.inr rfl)
  have pushed : Safe strict roots (fun _ t => m.Retains t ∧ True) (ListObject.push id y) m :=
    (push_safe grown.sound listed known).imp
      fun _ _ kept => ⟨kept.1, kept.2.1, kept.2.2, trivial⟩
  exact (grown.adds pushed).imp fun _ _ kept => ⟨kept.1, kept.2.1⟩

theorem Grown.create (grown : Grown strict roots base m)
    (owned : ∀ c, owner = some c → c < base.counters.length) :
    Adds strict roots base (fun a t => m.Extends t ∧ t.heap.Knows (.object .struct a))
      (create owner []) m := by
  have created := grown.adds (create_safe grown.sound (grown.counters owned)
    fun y hy => absurd hy List.not_mem_nil)
  exact created.imp fun _ _ kept => ⟨kept.1, kept.2.1, knows_of_list kept.2.2 (.inr rfl)⟩

theorem copyItems_adds (owned : ∀ c, owner = some c → c < base.counters.length) (xs : List Item)
    (room : Nat) (queue : List (ItemId × ItemId)) : ∀ {m : Memory}, Grown strict roots base m →
    m.heap.Knows (.object .struct id) → (∀ x ∈ xs, m.heap.Knows x) → Waiting m.heap queue →
    Adds strict roots base (fun r t => Waiting t.heap r.2) (copyItems owner id xs room queue)
      m := by
  fun_induction copyItems owner id xs room queue with
  | case1 =>
    intro m grown _ _ waiting
    exact .pure ⟨grown, waiting⟩
  | case2 =>
    intro m grown _ _ _
    exact .refuse ⟨⟨_, rfl⟩, grown⟩
  | case3 source xs room queue ih =>
    intro m grown target known waiting
    obtain ⟨first, others⟩ := List.forall_mem_cons.1 known
    refine (grown.create owned).bind ?_
    rintro copy t ⟨grown₁, moved₁, new⟩
    refine (grown₁.push (moved₁.heap.knows target) new).bind ?_
    rintro _ u ⟨grown₂, moved₂⟩
    have both := moved₁.trans moved₂
    refine ih copy grown₂ (both.heap.knows target) (fun y hy => both.heap.knows (others y hy))
      fun e he => ?_
    rcases List.mem_append.1 he with he | he
    · exact (waiting.extend both.heap) e he
    · obtain rfl := List.mem_singleton.1 he
      exact ⟨moved₂.heap.knows new, both.heap.knows first⟩
  | case4 x xs room queue _ ih =>
    intro m grown target known waiting
    obtain ⟨first, others⟩ := List.forall_mem_cons.1 known
    refine (grown.push target first).bind ?_
    rintro _ t ⟨grown₁, moved⟩
    exact ih grown₁ (moved.heap.knows target) (fun y hy => moved.heap.knows (others y hy))
      (waiting.extend moved.heap)

theorem copyQueue_adds (owned : ∀ c, owner = some c → c < base.counters.length) (fuel : Nat) :
    ∀ {m : Memory} {room : Nat} {queue : List (ItemId × ItemId)}, Grown strict roots base m →
    Waiting m.heap queue → Adds strict roots base (fun _ _ => True)
      (copyQueue owner fuel room queue) m := by
  induction fuel with
  | zero =>
    intro m room queue grown waiting
    exact .pure ⟨grown, trivial⟩
  | succ fuel ih =>
    intro m room queue grown waiting
    match queue with
    | [] => exact .pure ⟨grown, trivial⟩
    | (target, source) :: queue =>
      obtain ⟨first, others⟩ := List.forall_mem_cons.1 waiting
      obtain ⟨xs, listed⟩ := first.2.list (.inr rfl)
      refine .get_bind ?_
      rw [listItems_eq listed]
      refine Action.Ends.bind (copyItems_adds owned xs _ queue grown first.1
        (fun x hx => (holds grown.sound listed hx).known) others) ?_
      rintro r t ⟨grown₁, waiting₁⟩
      exact ih grown₁ waiting₁

theorem copyStruct_adds (sound : m.Sound strict roots) (known : m.heap.Knows (.object .struct id))
    (limit : Nat) :
    Adds strict roots m (fun a t => t.heap.Knows (.object .struct a)) (copyStruct id limit) m := by
  have owned : ∀ c, m.heap.owner id = some c → c < m.counters.length :=
    fun c => sound.heap.owners id c
  refine .get_bind ?_
  refine ((Grown.start sound).create owned).bind ?_
  rintro copy t ⟨grown, moved, new⟩
  have queued : Waiting t.heap [(copy, id)] := by
    intro e he
    obtain rfl := List.mem_singleton.1 he
    exact ⟨new, moved.heap.knows known⟩
  have filled : Adds strict roots t (fun _ _ => True)
      (copyQueue (m.heap.owner id) (limit - 1 + 1) (limit - 1) [(copy, id)]) t :=
    copyQueue_adds (grown.counters owned) (limit - 1 + 1) (.start grown.sound) queued
  -- the copies are made from where the first one stands empty
  have copied : Adds strict roots m (fun _ u => t.Extends u)
      (copyQueue (m.heap.owner id) (limit - 1 + 1) (limit - 1) [(copy, id)]) t :=
    filled.mono (fun _ _ refused => ⟨refused.1, grown.trans refused.2⟩)
      fun _ _ kept => ⟨grown.trans kept.1, kept.1.extended⟩
  refine copied.bind ?_
  rintro _ u ⟨whole, further⟩
  exact .pure ⟨whole, further.heap.knows new⟩

end ListObject

end LiveItems
