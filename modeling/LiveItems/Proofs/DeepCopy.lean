import LiveItems.Proofs.Container.Copy
import LiveItems.Proofs.Accounting
set_option autoImplicit false

/-!
# Deep copies

A struct is copied exactly when the tree it unfolds to fits under the limit. The copy unfolds to the
same tree, with a struct of its own for each occurrence of a struct and with the very items of the
source everywhere else. The loop that copies ends by itself, so its fuel is never what stops it.
-/

namespace LiveItems

open LiveItems.Action (Ends Follows)

namespace ListObject

open Memory

variable {strict : Prop} {roots : CounterId → Multiset Item} {base m t u : Memory}
  {owner : Option CounterId} {a s id copy : ItemId} {pairs queue new : List (ItemId × ItemId)}
  {e : ItemId × ItemId} {room : Nat} {r : Except Error Unit}

/-- The queue is worked off until it is empty or a copy is refused, however long that takes. -/
inductive Drains (owner : Option CounterId) :
    Nat → List (ItemId × ItemId) → Memory → Except Error Unit → Memory → Prop where
  | done {room : Nat} {m : Memory} : Drains owner room [] m (.ok ()) m
  | refused {room : Nat} {target source : ItemId} {queue : List (ItemId × ItemId)} {m t : Memory}
    {e : Error}
    (run : (copyItems owner target (m.heap.listItems source) room queue).apply m =
      (.error e, t)) :
    Drains owner room ((target, source) :: queue) m (.error e) t
  | next {room left : Nat} {target source : ItemId} {queue waiting : List (ItemId × ItemId)}
    {m t u : Memory} {r : Except Error Unit}
    (run : (copyItems owner target (m.heap.listItems source) room queue).apply m =
      (.ok (left, waiting), t))
    (rest : Drains owner left waiting t r u) :
    Drains owner room ((target, source) :: queue) m r u

/-- Each copy that is put in the queue takes the room of one item. -/
theorem copyItems_measure (owner : Option CounterId) (target : ItemId) (xs : List Item) (room : Nat)
    (queue : List (ItemId × ItemId)) : ∀ m : Memory,
    Ends (fun _ _ => True) (fun r _ => r.1 + r.2.length ≤ room + queue.length)
      (copyItems owner target xs room queue) m := by
  have any : ∀ {β : Type} (x : Action Memory β), Follows (fun _ _ => True) x := fun _ _ => trivial
  fun_induction copyItems owner target xs room queue with
  | case1 room queue => exact fun m => .pure le_rfl
  | case2 x xs queue => exact fun m => .refuse trivial
  | case3 source xs room queue ih =>
    refine fun m => (any _).onward fun copy t _ => (any _).onward fun _ u _ => ?_
    refine (ih copy u).imp fun r _ bound => ?_
    rw [List.length_append, List.length_singleton] at bound
    omega
  | case4 x xs room queue closed ih =>
    refine fun m => (any _).onward fun _ t _ => (ih t).imp fun r _ bound => ?_
    omega

/-- As much fuel as room and queue together is enough. -/
theorem copyQueue_drains (owner : Option CounterId) (fuel : Nat) :
    ∀ (room : Nat) (queue : List (ItemId × ItemId)) (m : Memory), room + queue.length ≤ fuel →
    ∃ r t, (copyQueue owner fuel room queue).apply m = (r, t) ∧ Drains owner room queue m r t := by
  induction fuel with
  | zero =>
    intro room queue m enough
    obtain rfl : queue = [] := List.eq_nil_of_length_eq_zero (by omega)
    exact ⟨.ok (), m, rfl, .done⟩
  | succ fuel ih =>
    intro room queue m enough
    match queue with
    | [] => exact ⟨.ok (), m, rfl, .done⟩
    | (target, source) :: queue =>
      have items : (items source).apply m = (.ok (m.heap.listItems source), m) := rfl
      rcases run : (copyItems owner target (m.heap.listItems source) room queue).apply m with
        ⟨e | ⟨left, waiting⟩, t⟩
      · refine ⟨.error e, t, ?_, .refused run⟩
        rw [copyQueue, Action.apply_after items, Action.apply_bind, run]
      · have bound := (copyItems_measure owner target _ room queue m).ok run
        rw [List.length_cons] at enough
        obtain ⟨r, u, others, drains⟩ := ih left waiting t (Nat.le_trans bound (by omega))
        refine ⟨r, u, ?_, .next run drains⟩
        rw [copyQueue, Action.apply_after items, Action.apply_after run, others]

structure Pending (base : Memory) (pairs queue : List (ItemId × ItemId)) (t : Memory) : Prop where
  queued : queue ⊆ pairs
  nodup : queue.Nodup
  empty : ∀ e ∈ queue, t.heap.listItems e.1 = []
  complete : ∀ e ∈ pairs, e ∉ queue →
    (t.heap.listItems e.1).length = (base.heap.listItems e.2).length

theorem Pending.advance (pending : Pending base pairs (e :: queue) t)
    (filled : Filled base owner pairs e (base.heap.listItems e.2) t new u) :
    Pending base (pairs ++ new) (queue ++ new) u := by
  have he : e ∈ pairs := pending.queued List.mem_cons_self
  have queued := (List.cons_subset.1 pending.queued).2
  have nodup := List.nodup_cons.1 pending.nodup
  have distinct := filled.copies.distinct
  have apart : ∀ f ∈ pairs, f ≠ e → f.1 ≠ e.1 := fun f hf ne same =>
    ne (List.inj_on_of_nodup_map distinct (List.mem_append_left new hf)
      (List.mem_append_left new he) same)
  refine ⟨List.append_subset.2 ⟨?_, List.subset_append_right pairs new⟩, ?_, fun f hf => ?_,
    fun f hf out => ?_⟩
  · exact List.Subset.trans queued (List.subset_append_left pairs new)
  · have all := List.nodup_append.1 (List.Nodup.of_map Prod.fst distinct)
    exact List.nodup_append.2 ⟨nodup.2, all.2.1, fun f hf => all.2.2 f (queued hf)⟩
  · rcases List.mem_append.1 hf with hf | hf
    · have ne : f ≠ e := fun same => nodup.1 (same ▸ hf)
      rw [filled.others f (queued hf) (apart f (queued hf) ne),
        pending.empty f (List.mem_cons_of_mem e hf)]
    · exact filled.empty f hf
  · obtain ⟨out, old⟩ := not_or.1 fun h => out (List.mem_append.2 h)
    have hf := (List.mem_append.1 hf).resolve_right old
    by_cases same : f = e
    · rw [same, filled.length, pending.empty e List.mem_cons_self, List.length_nil, Nat.zero_add]
    · rw [filled.others f hf (apart f hf same)]
      exact pending.complete f hf fun h => (List.mem_cons.1 h).elim same out

/-- How many items are still to be written, for the structs in the queue and all in them. -/
noncomputable def owed (h : Heap) (queue : List (ItemId × ItemId)) : ℕ∞ :=
  (queue.map fun e => h.spread e.2).sum

theorem owed_cons (filled : Filled base owner pairs e (base.heap.listItems e.2) t new u) :
    owed base.heap (e :: queue) =
      (base.heap.listItems e.2).length + owed base.heap (queue ++ new) := by
  have opened : (new.map fun f => base.heap.spread f.2).sum =
      ((nestedStructs (base.heap.listItems e.2)).map base.heap.spread).sum := by
    rw [← filled.sources, List.map_map]
    rfl
  rw [owed, owed, List.map_cons, List.sum_cons, List.map_append, List.sum_append, opened,
    base.heap.spread_eq e.2]
  ac_rfl

theorem Pending.fills (pending : Pending base pairs ((a, s) :: queue) t)
    (copies : Copies base owner pairs t) (sound : base.Sound strict roots) (room : Nat) :
    Ends (fun err u => err = .invalidOperation .cloneTooLarge ∧
        room < (base.heap.listItems s).length ∧ base.Untouched u)
      (fun r u => ∃ new left, r = (left, queue ++ new) ∧
        room = (base.heap.listItems s).length + left ∧
        Filled base owner pairs (a, s) (base.heap.listItems s) t new u)
      (copyItems owner a (t.heap.listItems s) room queue) t := by
  have he : (a, s) ∈ pairs := pending.queued List.mem_cons_self
  have empty : t.heap.listItems a = [] := pending.empty (a, s) List.mem_cons_self
  rw [copies.listItems ((copies.known (a, s) he).mem_ids rfl)]
  exact copyItems_fills sound _ room queue copies he (by rw [empty]; rfl)

/-- The loop ends with complete copies when there is room for all that is owed, and is refused
otherwise. -/
theorem Drains.outcome (sound : base.Sound strict roots) (drains : Drains owner room queue t r u) :
    ∀ {pairs : List (ItemId × ItemId)}, Copies base owner pairs t → Pending base pairs queue t →
    (r = .ok () ∧ owed base.heap queue ≤ room ∧
      ∃ new, Copies base owner (pairs ++ new) u ∧ Pending base (pairs ++ new) [] u) ∨
    (r = .error (.invalidOperation .cloneTooLarge) ∧ room < owed base.heap queue ∧
      base.Untouched u) := by
  induction drains with
  | done =>
    intro pairs copies pending
    refine .inl ⟨rfl, zero_le, [], ?_⟩
    rw [List.append_nil]
    exact ⟨copies, pending⟩
  | @refused room target source queue m t e run =>
    intro pairs copies pending
    obtain ⟨rfl, full, untouched⟩ := (pending.fills copies sound room).error run
    refine .inr ⟨rfl, ?_, untouched⟩
    rw [owed, List.map_cons, List.sum_cons, base.heap.spread_eq source, add_assoc]
    exact lt_of_lt_of_le (Nat.cast_lt.2 full) le_self_add
  | next run rest ih =>
    intro pairs copies pending
    obtain ⟨new, left, same, rfl, filled⟩ := (pending.fills copies sound _).ok run
    obtain ⟨rfl, rfl⟩ := Prod.mk.inj same
    rw [owed_cons filled, Nat.cast_add]
    rcases ih filled.copies (pending.advance filled) with
      ⟨rfl, enough, more, copied, complete⟩ | ⟨rfl, short, untouched⟩
    · rw [List.append_assoc] at copied complete
      exact .inl ⟨rfl, add_le_add_right enough _, new ++ more, copied, complete⟩
    · exact .inr ⟨rfl, (ENat.add_lt_add_iff_left (ENat.natCast_ne_top _)).2 short, untouched⟩

/-- The struct `a` has been made since `m` as a copy of the struct `s`: under an id that has never
been given, of the same length, writable and with the counter `owner`. -/
structure CopyOf (m t : Memory) (owner : Option CounterId) (a s : ItemId) : Prop where
  fresh : ∀ n ≤ m.heap.allocated, a ≠ m.heap.supply.id n
  unused : a ∉ m.heap.ids
  object : ∃ xs, t.heap.object? a = some { storage := .list xs, owner, readOnly := false } ∧
    xs.length = (m.heap.listItems s).length

/-- The struct `copy` unfolds to the tree that the struct `id` has unfolded to. Where the one has a
struct the other has a copy of it, and no copy is found in two places. All other items are the
same. -/
structure IsDeepCopy (m t : Memory) (id copy : ItemId) : Prop where
  alike : ∀ path, Option.Rel (StandsFor (CopyOf m t (m.heap.owner id)))
    (t.heap.itemAt (.object .struct copy) path) (m.heap.itemAt (.object .struct id) path)
  apart : ∀ p q a, t.heap.itemAt (.object .struct copy) p = some (.object .struct a) →
    t.heap.itemAt (.object .struct copy) q = some (.object .struct a) → p = q

namespace Copies

variable (copies : Copies base owner pairs t) (complete : Pending base pairs [] t)
include copies complete

theorem alike (path : List Nat) : ∀ {x y : Item}, StandsFor (fun a s => (a, s) ∈ pairs) x y →
    Option.Rel (StandsFor fun a s => (a, s) ∈ pairs) (t.heap.itemAt x path)
      (base.heap.itemAt y path) := by
  induction path with
  | nil =>
    intro x y stands
    rw [Heap.itemAt_nil, Heap.itemAt_nil]
    exact .some stands
  | cons i path ih =>
    intro x y stands
    cases stands with
    | shared closed =>
      rw [Heap.itemAt_cons_of_not_struct closed, Heap.itemAt_cons_of_not_struct closed]
      exact .none
    | @struct a s copied =>
      rw [Heap.itemAt_struct, Heap.itemAt_struct]
      cases written : (t.heap.listItems a)[i]? with
      | some x =>
        obtain ⟨y, held, stands⟩ := copies.mirrored (a, s) copied i x written
        rw [held]
        exact ih stands
      | none =>
        have length := complete.complete (a, s) copied List.not_mem_nil
        rw [List.getElem?_eq_none (length ▸ List.getElem?_eq_none_iff.1 written)]
        exact .none

theorem mem_of_itemAt (he : (a, s) ∈ pairs) {path : List Nat} {b : ItemId}
    (found : t.heap.itemAt (.object .struct a) path = some (.object .struct b)) :
    ∃ s, (b, s) ∈ pairs := by
  have alike := copies.alike complete path (.struct he)
  rw [found] at alike
  generalize base.heap.itemAt (.object .struct s) path = y at alike
  cases alike with
  | some stands =>
    cases stands with
    | struct copied => exact ⟨_, copied⟩
    | shared closed => exact absurd rfl (closed b)

theorem itemAt_concat_ne (first : pairs.head? = some (a, s)) (p : List Nat) (i : Nat) :
    t.heap.itemAt (.object .struct a) (p ++ [i]) ≠ some (.object .struct a) := by
  intro found
  obtain ⟨c, parent, held⟩ := Heap.exists_of_itemAt_concat found
  obtain ⟨s', hc⟩ := copies.mem_of_itemAt complete (List.mem_of_head? first) parent
  exact copies.unheld (a, s) first (c, s') hc (List.mem_of_getElem? held)

/-- Each copy is found at the end of one path, since it has been written once. -/
theorem itemAt_injective (first : pairs.head? = some (a, s)) (p : List Nat) :
    ∀ (q : List Nat) (b : ItemId), t.heap.itemAt (.object .struct a) p = some (.object .struct b) →
      t.heap.itemAt (.object .struct a) q = some (.object .struct b) → p = q := by
  have he := List.mem_of_head? first
  induction p using List.reverseRecOn with
  | nil =>
    intro q b found found'
    rw [Heap.itemAt_nil] at found
    rcases List.eq_nil_or_concat' q with rfl | ⟨q, j, rfl⟩
    · rfl
    · exact absurd (found'.trans found.symm) (copies.itemAt_concat_ne complete first q j)
  | append_singleton p i ih =>
    intro q b found found'
    rcases List.eq_nil_or_concat' q with rfl | ⟨q, j, rfl⟩
    · rw [Heap.itemAt_nil] at found'
      exact absurd (found.trans found'.symm) (copies.itemAt_concat_ne complete first p i)
    · obtain ⟨c, parent, held⟩ := Heap.exists_of_itemAt_concat found
      obtain ⟨d, parent', held'⟩ := Heap.exists_of_itemAt_concat found'
      obtain ⟨sc, hc⟩ := copies.mem_of_itemAt complete he parent
      obtain ⟨sd, hd⟩ := copies.mem_of_itemAt complete he parent'
      obtain ⟨same, rfl⟩ := copies.once (c, sc) hc (d, sd) hd i j b held held'
      obtain rfl : c = d := same
      rw [ih q c parent parent']

theorem copyOf (sound : base.Sound strict roots) (he : (a, s) ∈ pairs) :
    CopyOf base t owner a s where
  fresh _ := copies.fresh he
  unused := copies.unused sound he
  object := ⟨_, copies.made (a, s) he, complete.complete (a, s) he List.not_mem_nil⟩

theorem isDeepCopy (sound : base.Sound strict roots) (first : pairs.head? = some (copy, id))
    (owned : base.heap.owner id = owner) : IsDeepCopy base t id copy := by
  refine ⟨fun path => ?_, copies.itemAt_injective complete first⟩
  have alike := copies.alike complete path (.struct (List.mem_of_head? first))
  generalize t.heap.itemAt (.object .struct copy) path = x at alike ⊢
  generalize base.heap.itemAt (.object .struct id) path = y at alike ⊢
  cases alike with
  | some stands => exact .some (stands.mono fun _ _ hb => owned ▸ copies.copyOf complete sound hb)
  | none => exact .none

end Copies

end ListObject

namespace Session

open ListObject

variable {suspects : Prop} {m : Memory} {roots : CounterId → Multiset Item} {id : ItemId}

/-- The loop that copies ends by itself. The struct is copied when the items of the tree it unfolds
to are within the limit, of which one is taken for the struct itself, and is refused otherwise. A
struct that contains itself unfolds to an infinite tree. What was there before is not touched. -/
theorem Yields.copyStruct_deep (yields : Yields suspects m roots)
    (known : m.heap.Knows (.object .struct id)) (limits : Limits) :
    (∃ copy t r u, (create (m.heap.owner id) []).apply m = (.ok copy, t) ∧
      Drains (m.heap.owner id) (limits.maxLiveItems - 1) [(copy, id)] t r u ∧
      (copyStruct id limits.maxLiveItems).apply m = (r.map fun _ => copy, u)) ∧
    (m.heap.spread id ≤ (limits.maxLiveItems - 1 : Nat) →
      ∃ copy u, (copyStruct id limits.maxLiveItems).apply m = (.ok copy, u) ∧
        IsDeepCopy m u id copy ∧ m.Untouched u) ∧
    ((limits.maxLiveItems - 1 : Nat) < m.heap.spread id →
      ∃ u, (copyStruct id limits.maxLiveItems).apply m =
          (.error (.invalidOperation .cloneTooLarge), u) ∧ m.Untouched u) ∧
    ∀ p q s, q ≠ [] → m.heap.itemAt (.object .struct id) p = some (.object .struct s) →
      m.heap.itemAt (.object .struct s) q = some (.object .struct s) → m.heap.spread id = ⊤ := by
  have sound := yields.sound
  obtain ⟨copy, t, created, -, copies, empty, -⟩ :=
    (Copies.start m (m.heap.owner id)).create sound known fun _ owned => owned
  have pending : Pending m [(copy, id)] [(copy, id)] t :=
    ⟨List.Subset.refl _, List.nodup_singleton _, List.forall_mem_singleton.2 empty,
      fun e he out => absurd he out⟩
  obtain ⟨r, u, filled, drains⟩ := copyQueue_drains (m.heap.owner id) (limits.maxLiveItems - 1 + 1)
    (limits.maxLiveItems - 1) [(copy, id)] t le_rfl
  have run : (copyStruct id limits.maxLiveItems).apply m = (r.map fun _ => copy, u) := by
    rw [copyStruct, Action.apply_after (Action.apply_get m), Action.apply_after created,
      Action.apply_bind, filled]
    cases r <;> rfl
  have owes : owed m.heap [(copy, id)] = m.heap.spread id := add_zero _
  refine ⟨⟨copy, t, r, u, created, drains, run⟩, fun enough => ?_, fun short => ?_,
    fun p q s proper => m.heap.spread_eq_top proper⟩
  · rcases drains.outcome sound copies pending with
      ⟨rfl, -, new, copied, complete⟩ | ⟨-, short, -⟩
    · exact ⟨copy, u, run, copied.isDeepCopy complete sound rfl rfl, copied.toUntouched⟩
    · exact absurd enough (owes ▸ short).not_ge
  · rcases drains.outcome sound copies pending with
      ⟨-, enough, -⟩ | ⟨rfl, -, untouched⟩
    · exact absurd short (owes ▸ enough).not_gt
    · exact ⟨u, run, untouched⟩

/-- A struct that holds another one twice, and a struct that holds itself. -/
def doubled : List Step :=
  [.perform (.create "inner" (.list .struct [.leaf .null] (some 0))) none true,
    .perform (.create "array" (.list .array [] (some 0))) none true,
    .perform (.create "outer"
      (.list .struct [.named "inner", .named "inner", .named "array"] (some 0))) none true,
    .perform (.create "loop" (.list .struct [] (some 0))) none true,
    .perform (.onList "loop" (.push (.named "loop"))) none true]

/-- The five items that the one unfolds to need a limit of six; no limit is enough for the other. -/
theorem copyStruct_deep_nested :
    (∃ copy u, (copyStruct ((default : IdSupply).id 3) 6).apply
        (run doubled (start {} default)).2.memory = (.ok copy, u) ∧
      IsDeepCopy (run doubled (start {} default)).2.memory u ((default : IdSupply).id 3) copy) ∧
    (∃ u, (copyStruct ((default : IdSupply).id 3) 5).apply
        (run doubled (start {} default)).2.memory =
      (.error (.invalidOperation .cloneTooLarge), u)) ∧
    ∃ u, (copyStruct ((default : IdSupply).id 4) 2048).apply
        (run doubled (start {} default)).2.memory =
      (.error (.invalidOperation .cloneTooLarge), u) := by
  have grown : Grown True 1 (run doubled (start {} default)).2 :=
    started_grown ⟨first_lt_one, first_lt_one, first_lt_one, first_lt_one, trivial, trivial⟩
  have inner : (run doubled (start {} default)).2.memory.heap.storage?
      ((default : IdSupply).id 1) = some (.list [.leaf .null]) := rfl
  have outer : (run doubled (start {} default)).2.memory.heap.storage?
      ((default : IdSupply).id 3) = some (.list [.object .struct ((default : IdSupply).id 1),
        .object .struct ((default : IdSupply).id 1),
        .object .array ((default : IdSupply).id 2)]) := rfl
  have loop : (run doubled (start {} default)).2.memory.heap.storage?
      ((default : IdSupply).id 4) =
        some (.list [.object .struct ((default : IdSupply).id 4)]) := rfl
  have one : (run doubled (start {} default)).2.memory.heap.spread
      ((default : IdSupply).id 1) = 1 := by
    rw [Heap.spread_eq, listItems_eq inner]
    rfl
  have five : (run doubled (start {} default)).2.memory.heap.spread
      ((default : IdSupply).id 3) = 5 := by
    rw [Heap.spread_eq, listItems_eq outer]
    simp only [nestedStructs, List.map_cons, List.map_nil, List.sum_cons, List.sum_nil, one]
    rfl
  have six := Yields.copyStruct_deep (.during grown.reachable) (knows_of_list outer (.inr rfl))
    { maxLiveItems := 6 }
  have short := Yields.copyStruct_deep (.during grown.reachable) (knows_of_list outer (.inr rfl))
    { maxLiveItems := 5 }
  have endless := Yields.copyStruct_deep (.during grown.reachable) (knows_of_list loop (.inr rfl))
    { maxLiveItems := 2048 }
  have infinite := endless.2.2.2 [] [0] ((default : IdSupply).id 4) (by decide)
    (Heap.itemAt_nil ..) rfl
  obtain ⟨copy, u, copied, deep, -⟩ := six.2.1 (five ▸ le_rfl)
  obtain ⟨v, refused, -⟩ := short.2.2.1 (by rw [five]; exact Nat.cast_lt.2 (by decide : 4 < 5))
  obtain ⟨w, refused', -⟩ := endless.2.2.1 (by rw [infinite]; exact ENat.natCast_lt_top _)
  exact ⟨⟨copy, u, copied, deep⟩, ⟨v, refused⟩, w, refused'⟩

end Session

end LiveItems
