import LiveItems.Proofs.Container.Effects
import LiveItems.Proofs.Container.Unfold
set_option autoImplicit false

/-!
# Copies in the making

While a struct is copied, some copies are complete, one is being filled and the others wait in the
queue. Each pair of a copy and its source says for which struct the copy stands, so what has been
written so far can be compared with the source item by item. Nothing else is touched: a copy is
untracked, and an untracked container reports nothing.
-/

namespace LiveItems

open LiveItems.Action (Ends)

/-- A struct stands for one that it is a copy of, any other item for itself. -/
inductive StandsFor (copyOf : ItemId → ItemId → Prop) : Item → Item → Prop where
  | struct {a s : ItemId} (copied : copyOf a s) :
    StandsFor copyOf (.object .struct a) (.object .struct s)
  | shared {x : Item} (closed : ∀ s, x ≠ .object .struct s) : StandsFor copyOf x x

theorem StandsFor.mono {copyOf copyOf' : ItemId → ItemId → Prop} {x y : Item}
    (stands : StandsFor copyOf x y) (more : ∀ a s, copyOf a s → copyOf' a s) :
    StandsFor copyOf' x y := by
  cases stands with
  | struct copied => exact .struct (more _ _ copied)
  | shared closed => exact .shared closed

theorem getElem?_concat_cases {α : Type} {xs : List α} {x z : α} {i : Nat}
    (found : (xs ++ [x])[i]? = some z) : xs[i]? = some z ∨ i = xs.length ∧ z = x := by
  rcases Nat.lt_or_ge i xs.length with inside | outside
  · exact .inl (List.getElem?_append_left inside ▸ found)
  · rw [List.getElem?_append_right outside, List.getElem?_singleton] at found
    split at found
    · exact .inr ⟨by omega, (Option.some.inj found).symm⟩
    · exact absurd found (by simp)

theorem forall_mem_concat {α : Type} {p : α → Prop} {xs : List α} {y : α} (old : ∀ x ∈ xs, p x)
    (added : p y) : ∀ x ∈ xs ++ [y], p x :=
  List.forall_mem_append.2 ⟨old, List.forall_mem_singleton.2 added⟩

theorem drop_eq_cons {α : Type} {xs ys : List α} {x : α} {n : Nat}
    (rest : xs.drop n = x :: ys) : xs[n]? = some x ∧ xs.drop (n + 1) = ys := by
  rw [← List.head?_drop, ← List.tail_drop, rest]
  exact ⟨rfl, rfl⟩

namespace Heap

variable {h h' : Heap} {a : ItemId}

theorem listItems_congr (same : h'.object? a = h.object? a) : h'.listItems a = h.listItems a := by
  rw [listItems, storage?, same, listItems, storage?]

theorem listItems_of_object {xs : List Item} {owner : Option CounterId} {readOnly : Bool}
    (object : h.object? a = some { storage := .list xs, owner, readOnly }) :
    h.listItems a = xs := by
  rw [listItems, storage?, object, Option.map_some]

end Heap

namespace Memory

structure Untouched (m t : Memory) : Prop where
  objects : ∀ a ∈ m.heap.ids, t.heap.object? a = m.heap.object? a
  counters : t.counters = m.counters

theorem Untouched.owner {m t : Memory} (untouched : m.Untouched t) {a : ItemId}
    (ha : a ∈ m.heap.ids) : t.heap.owner a = m.heap.owner a := by
  rw [Heap.owner, untouched.objects a ha, Heap.owner]

theorem Untouched.listItems {m t : Memory} (untouched : m.Untouched t) {a : ItemId}
    (ha : a ∈ m.heap.ids) : t.heap.listItems a = m.heap.listItems a :=
  Heap.listItems_congr (untouched.objects a ha)

theorem Untouched.counter {m t : Memory} (untouched : m.Untouched t) (c : CounterId) :
    t.counter c = m.counter c := by
  rw [Memory.counter, untouched.counters, Memory.counter]

end Memory

namespace ListObject

open Memory

/-- Copies made since `base`, each with its source. The items written into a copy stand for the
first items of its source. A struct among them is written only once, and the first copy never. -/
structure Copies (base : Memory) (owner : Option CounterId) (pairs : List (ItemId × ItemId))
    (t : Memory) : Prop extends base.Untouched t where
  supply : t.heap.supply = base.heap.supply
  later : base.heap.allocated ≤ t.heap.allocated
  given : ∀ e ∈ pairs, ∃ n, base.heap.allocated < n ∧ n ≤ t.heap.allocated ∧
    e.1 = base.heap.supply.id n
  made : ∀ e ∈ pairs,
    t.heap.object? e.1 = some { storage := .list (t.heap.listItems e.1), owner }
  distinct : (pairs.map Prod.fst).Nodup
  known : ∀ e ∈ pairs, base.heap.Knows (.object .struct e.2)
  bound : ∀ e ∈ pairs, ∀ c, owner = some c → base.heap.owner e.2 = some c
  mirrored : ∀ e ∈ pairs, ∀ (i : Nat) (x : Item), (t.heap.listItems e.1)[i]? = some x →
    ∃ y, (base.heap.listItems e.2)[i]? = some y ∧ StandsFor (fun a s => (a, s) ∈ pairs) x y
  once : ∀ e ∈ pairs, ∀ f ∈ pairs, ∀ (i j : Nat) (a : ItemId),
    (t.heap.listItems e.1)[i]? = some (.object .struct a) →
    (t.heap.listItems f.1)[j]? = some (.object .struct a) → e.1 = f.1 ∧ i = j
  unheld : ∀ r ∈ pairs.head?, ∀ e ∈ pairs, .object .struct r.1 ∉ t.heap.listItems e.1

variable {strict : Prop} {roots : CounterId → Multiset Item} {base t u v : Memory}
  {owner : Option CounterId} {a b s : ItemId} {pairs : List (ItemId × ItemId)}
  {e f : ItemId × ItemId} {x y : Item}

theorem Copies.start (base : Memory) (owner : Option CounterId) :
    Copies base owner [] base where
  objects _ _ := rfl
  counters := rfl
  supply := rfl
  later := le_rfl
  given _ he := absurd he List.not_mem_nil
  made _ he := absurd he List.not_mem_nil
  distinct := List.nodup_nil
  known _ he := absurd he List.not_mem_nil
  bound _ he := absurd he List.not_mem_nil
  mirrored _ he := absurd he List.not_mem_nil
  once _ he := absurd he List.not_mem_nil
  unheld _ _ _ he := absurd he List.not_mem_nil

namespace Copies

variable (copies : Copies base owner pairs t)
include copies

theorem fresh (he : e ∈ pairs) {n : Nat} (old : n ≤ base.heap.allocated) :
    e.1 ≠ base.heap.supply.id n := by
  obtain ⟨k, after, -, same⟩ := copies.given e he
  intro reused
  have := base.heap.supply.injective _ _ (same.symm.trans reused)
  omega

theorem unused (sound : base.Sound strict roots) (he : e ∈ pairs) : e.1 ∉ base.heap.ids := by
  intro old
  obtain ⟨n, before, same⟩ := sound.heap.given _ old
  exact copies.fresh he before same

theorem owner_copy (he : e ∈ pairs) : t.heap.owner e.1 = owner := by
  rw [Heap.owner, copies.made e he]
  rfl

theorem source_eq (he : (a, s) ∈ pairs) {s' : ItemId} (he' : (a, s') ∈ pairs) : s = s' :=
  congrArg Prod.snd (List.inj_on_of_nodup_map copies.distinct he he' rfl)

theorem mem_of_written (he : e ∈ pairs) (written : .object .struct b ∈ t.heap.listItems e.1) :
    ∃ s, (b, s) ∈ pairs := by
  obtain ⟨i, at_i⟩ := List.getElem?_of_mem written
  obtain ⟨y, -, stands⟩ := copies.mirrored e he i _ at_i
  cases stands with
  | struct copied => exact ⟨_, copied⟩
  | shared closed => exact absurd rfl (closed b)

theorem untracked (sound : base.Sound strict roots) (he : e ∈ pairs) {c : CounterId}
    (owned : owner = some c) : e.1 ∉ (t.counter c).ids := by
  have hc := sound.heap.owners _ c (copies.bound e he c owned)
  rw [copies.counter c]
  exact fun tracked =>
    copies.unused sound he (Heap.mem_ids_of_belongs ((sound.accounts c hc).within _ tracked))

theorem fits (sound : base.Sound strict roots) (he : e ∈ pairs)
    (held : x ∈ base.heap.listItems e.2) {c : CounterId} (owned : owner = some c)
    (compound : x.isCompound) : t.heap.ownerOf x = some c := by
  obtain ⟨xs, listed⟩ := (copies.known e he).list (.inr rfl)
  rw [listItems_eq listed] at held
  have owned' := (holds sound listed held).fits c (copies.bound e he c owned) compound
  obtain ⟨k, hk, owned'⟩ := Option.bind_eq_some_iff.1 owned'
  rw [Heap.ownerOf, hk, Option.bind_some, copies.owner (Heap.mem_ids_of_owner owned'), owned']

theorem next_fresh (sound : base.Sound strict roots) :
    t.heap.supply.id (t.heap.allocated + 1) ∉ base.heap.ids ∧
      ∀ e ∈ pairs, e.1 ≠ t.heap.supply.id (t.heap.allocated + 1) := by
  rw [copies.supply]
  refine ⟨fun old => ?_, fun e he same => ?_⟩
  · obtain ⟨n, before, given⟩ := sound.heap.given _ old
    have := base.heap.supply.injective _ _ given
    have := copies.later
    omega
  · obtain ⟨n, -, before, given⟩ := copies.given e he
    have := base.heap.supply.injective _ _ (given.symm.trans same)
    omega

theorem create (sound : base.Sound strict roots) (known : base.heap.Knows (.object .struct s))
    (bound : ∀ c, owner = some c → base.heap.owner s = some c) :
    ∃ b u, (ListObject.create owner []).apply t = (.ok b, u) ∧ (∀ e ∈ pairs, e.1 ≠ b) ∧
      Copies base owner (pairs ++ [(b, s)]) u ∧ u.heap.listItems b = [] ∧
      ∀ a ≠ b, u.heap.listItems a = t.heap.listItems a := by
  let b := t.heap.supply.id (t.heap.allocated + 1)
  let o : Object := { storage := .list [], owner }
  let u : Memory := { t with heap := (t.heap.allocate o).2 }
  obtain ⟨new, apart⟩ := copies.next_fresh sound
  have object : ∀ a, u.heap.object? a = if a = b then some o else t.heap.object? a :=
    Heap.object?_allocate t.heap o
  have elsewhere : ∀ a ≠ b, u.heap.object? a = t.heap.object? a :=
    fun a ne => (object a).trans (if_neg ne)
  have here : u.heap.listItems b = [] :=
    Heap.listItems_of_object ((object b).trans (if_pos rfl))
  have kept : ∀ e ∈ pairs, u.heap.listItems e.1 = t.heap.listItems e.1 :=
    fun e he => Heap.listItems_congr (elsewhere e.1 (apart e he))
  have unwritten : ∀ {i : Nat} {x : Item}, (u.heap.listItems b)[i]? ≠ some x := by
    rw [here]
    simp
  refine ⟨b, u, rfl, apart, ?_, here, fun a ne => Heap.listItems_congr (elsewhere a ne)⟩
  exact {
    objects := fun a ha => by
      rw [elsewhere a (ne_of_mem_of_not_mem ha new), copies.objects a ha]
    counters := copies.counters
    supply := copies.supply
    later := Nat.le_succ_of_le copies.later
    given := by
      refine forall_mem_concat (fun e he => ?_)
        ⟨t.heap.allocated + 1, Nat.lt_succ_of_le copies.later, le_rfl, ?_⟩
      · obtain ⟨n, after, before, given⟩ := copies.given e he
        exact ⟨n, after, Nat.le_succ_of_le before, given⟩
      · exact congrArg (fun supply : IdSupply => supply.id _) copies.supply
    made := by
      refine forall_mem_concat (fun e he => ?_) ?_
      · rw [elsewhere e.1 (apart e he), kept e he, copies.made e he]
      · rw [object, if_pos rfl, here]
    distinct := by
      rw [List.map_append, List.map_singleton]
      refine List.nodup_append.2 ⟨copies.distinct, List.nodup_singleton b, fun a ha c hc => ?_⟩
      obtain ⟨e, he, rfl⟩ := List.mem_map.1 ha
      rw [List.mem_singleton.1 hc]
      exact apart e he
    known := forall_mem_concat copies.known known
    bound := forall_mem_concat copies.bound bound
    mirrored := by
      refine forall_mem_concat (fun e he i x written => ?_) fun i x written => ?_
      · rw [kept e he] at written
        obtain ⟨y, held, stands⟩ := copies.mirrored e he i x written
        exact ⟨y, held, stands.mono fun _ _ => List.mem_append_left _⟩
      · exact absurd written unwritten
    once := by
      refine forall_mem_concat (fun e he => forall_mem_concat (fun f hf => ?_) ?_) ?_
      · rw [kept e he, kept f hf]
        exact copies.once e he f hf
      · exact fun i j a _ written => absurd written unwritten
      · exact fun f _ i j a written => absurd written unwritten
    unheld := by
      refine fun r hr => forall_mem_concat (fun e he => ?_) ?_
      · obtain ⟨f, others, rfl⟩ := List.exists_cons_of_ne_nil (List.ne_nil_of_mem he)
        rw [kept e he]
        exact copies.unheld r hr e he
      · rw [here]
        exact List.not_mem_nil }

theorem push_apply (sound : base.Sound strict roots) (he : e ∈ pairs)
    (fits : ∀ c, owner = some c → x.isCompound → t.heap.ownerOf x = some c) :
    (ListObject.push e.1 x).apply t =
      (.ok (), t.storing e.1 (.list (t.heap.listItems e.1 ++ [x]))) := by
  have owned := copies.owner_copy he
  have writable : t.heap.isReadOnly e.1 = false := by
    rw [Heap.isReadOnly, copies.made e he]
    rfl
  rw [ListObject.push_apply (fun c h => fits c (owned.symm.trans h)) writable]
  refine reportAdded_untracked (fun c h compound => ?_) fun c h => ?_
  · rw [← fits c (owned.symm.trans ((Heap.owner_store ..).symm.trans h)) compound]
    exact congrArg (Option.bind _) (funext fun b => Heap.owner_store ..)
  · exact copies.untracked sound he (owned.symm.trans ((Heap.owner_store ..).symm.trans h))

theorem push (sound : base.Sound strict roots) (he : e ∈ pairs)
    (next : (base.heap.listItems e.2)[(t.heap.listItems e.1).length]? = some y)
    (stands : StandsFor (fun a s => (a, s) ∈ pairs) x y)
    (fits : ∀ c, owner = some c → x.isCompound → t.heap.ownerOf x = some c)
    (first : ∀ b, x = .object .struct b → (∀ r ∈ pairs.head?, b ≠ r.1) ∧
      ∀ f ∈ pairs, x ∉ t.heap.listItems f.1) :
    ∃ u, (ListObject.push e.1 x).apply t = (.ok (), u) ∧ Copies base owner pairs u ∧
      u.heap.listItems e.1 = t.heap.listItems e.1 ++ [x] ∧
      ∀ a ≠ e.1, u.heap.listItems a = t.heap.listItems a := by
  let ys := t.heap.listItems e.1 ++ [x]
  let u := t.storing e.1 (.list ys)
  have object : ∀ a, u.heap.object? a =
      if a = e.1 then some { storage := .list ys, owner } else t.heap.object? a := by
    intro a
    have stored : u.heap = t.heap.modify e.1 ({ · with storage := .list ys }) := rfl
    rw [stored, Heap.object?_modify, copies.made e he, Option.map_some]
  have elsewhere : ∀ a ≠ e.1, u.heap.object? a = t.heap.object? a :=
    fun a ne => (object a).trans (if_neg ne)
  have here : u.heap.listItems e.1 = ys :=
    Heap.listItems_of_object ((object e.1).trans (if_pos rfl))
  have others : ∀ a ≠ e.1, u.heap.listItems a = t.heap.listItems a :=
    fun a ne => Heap.listItems_congr (elsewhere a ne)
  -- an item of a copy is either an old one or the new one
  have old_or_new : ∀ f ∈ pairs, ∀ (i : Nat) (z : Item), (u.heap.listItems f.1)[i]? = some z →
      (t.heap.listItems f.1)[i]? = some z ∨
        f.1 = e.1 ∧ i = (t.heap.listItems e.1).length ∧ z = x := by
    intro f hf i z written
    by_cases same : f.1 = e.1
    · rw [same, here] at written
      exact (getElem?_concat_cases written).imp (fun old => same ▸ old) fun new => ⟨same, new⟩
    · rw [others f.1 same] at written
      exact .inl written
  refine ⟨u, copies.push_apply sound he fits, ?_, here, others⟩
  exact {
    objects := fun a ha => by
      rw [elsewhere a (ne_of_mem_of_not_mem ha (copies.unused sound he)), copies.objects a ha]
    counters := copies.counters
    supply := copies.supply
    later := copies.later
    given := copies.given
    made := fun f hf => by
      by_cases same : f.1 = e.1
      · rw [same, object, if_pos rfl, here]
      · rw [elsewhere f.1 same, others f.1 same, copies.made f hf]
    distinct := copies.distinct
    known := copies.known
    bound := copies.bound
    mirrored := fun f hf i z written => by
      rcases old_or_new f hf i z written with old | ⟨same, rfl, rfl⟩
      · exact copies.mirrored f hf i z old
      · have source : f.2 = e.2 := copies.source_eq (a := f.1) hf (same ▸ he)
        exact ⟨y, source ▸ next, stands⟩
    once := fun f hf g hg i j a written written' => by
      rcases old_or_new f hf i _ written with old | ⟨same, rfl, new⟩
      · rcases old_or_new g hg j _ written' with old' | ⟨same', rfl, new'⟩
        · exact copies.once f hf g hg i j a old old'
        · exact absurd (List.mem_of_getElem? old) (new' ▸ (first a new'.symm).2 f hf)
      · rcases old_or_new g hg j _ written' with old' | ⟨same', rfl, new'⟩
        · exact absurd (List.mem_of_getElem? old') (new ▸ (first a new.symm).2 g hg)
        · exact ⟨same.trans same'.symm, rfl⟩
    unheld := fun r hr f hf held => by
      obtain ⟨i, written⟩ := List.getElem?_of_mem held
      rcases old_or_new f hf i _ written with old | ⟨-, -, new⟩
      · exact copies.unheld r hr f hf (List.mem_of_getElem? old)
      · exact (first r.1 new.symm).1 r hr rfl }

end Copies

/-- The items `xs` have been written into the copy `e`. The structs among them have got the copies
`new`, which are empty. -/
structure Filled (base : Memory) (owner : Option CounterId) (pairs : List (ItemId × ItemId))
    (e : ItemId × ItemId) (xs : List Item) (t : Memory) (new : List (ItemId × ItemId))
    (u : Memory) : Prop where
  copies : Copies base owner (pairs ++ new) u
  sources : new.map Prod.snd = nestedStructs xs
  length : (u.heap.listItems e.1).length = (t.heap.listItems e.1).length + xs.length
  others : ∀ f ∈ pairs, f.1 ≠ e.1 → u.heap.listItems f.1 = t.heap.listItems f.1
  empty : ∀ f ∈ new, u.heap.listItems f.1 = []

variable {xs ys : List Item} {new more : List (ItemId × ItemId)}

theorem Copies.apart (copies : Copies base owner (pairs ++ new) u)
    (he : e ∈ pairs) (hf : f ∈ new) : f.1 ≠ e.1 := by
  have distinct := copies.distinct
  rw [List.map_append, List.nodup_append] at distinct
  exact (distinct.2.2 _ (List.mem_map_of_mem he) _ (List.mem_map_of_mem hf)).symm

theorem Filled.append (he : e ∈ pairs) (first : Filled base owner pairs e xs t new u)
    (second : Filled base owner (pairs ++ new) e ys u more v) :
    Filled base owner pairs e (xs ++ ys) t (new ++ more) v where
  copies := List.append_assoc pairs new more ▸ second.copies
  sources := by rw [List.map_append, first.sources, second.sources, nestedStructs_append]
  length := by rw [second.length, first.length, List.length_append, Nat.add_assoc]
  others f hf ne := by
    rw [second.others f (List.mem_append_left new hf) ne, first.others f hf ne]
  empty f hf := by
    rcases List.mem_append.1 hf with hf | hf
    · rw [second.others f (List.mem_append_right pairs hf) (first.copies.apart he hf),
        first.empty f hf]
    · exact second.empty f hf

namespace Copies

variable (copies : Copies base owner pairs t) (sound : base.Sound strict roots) (he : e ∈ pairs)
include copies sound he

theorem fill_shared (next : (base.heap.listItems e.2)[(t.heap.listItems e.1).length]? = some y)
    (closed : ∀ s, y ≠ .object .struct s) :
    ∃ u, (ListObject.push e.1 y).apply t = (.ok (), u) ∧
      Filled base owner pairs e [y] t [] u := by
  obtain ⟨u, run, pushed, here, elsewhere⟩ := copies.push sound he next (.shared closed)
    (fun c owned => copies.fits sound he (List.mem_of_getElem? next) owned)
    fun b opened => absurd opened (closed b)
  refine ⟨u, run, ?_, (nestedStructs_of_not_struct closed).symm, ?_, fun f _ => elsewhere f.1,
    fun f hf => absurd hf List.not_mem_nil⟩
  · rwa [List.append_nil]
  · rw [here, List.length_append]

theorem fill_struct
    (next : (base.heap.listItems e.2)[(t.heap.listItems e.1).length]? = some (.object .struct s)) :
    ∃ b t₁ u, (ListObject.create owner []).apply t = (.ok b, t₁) ∧
      (ListObject.push e.1 (.object .struct b)).apply t₁ = (.ok (), u) ∧
      Filled base owner pairs e [.object .struct s] t [(b, s)] u := by
  have held := List.mem_of_getElem? next
  obtain ⟨zs, listed⟩ := (copies.known e he).list (.inr rfl)
  rw [listItems_eq listed] at held
  have may := holds sound listed held
  obtain ⟨b, t₁, made, ne, created, empty, same⟩ := copies.create sound may.known
    fun c owned => may.fits c (copies.bound e he c owned) rfl
  have he₁ : e ∈ pairs ++ [(b, s)] := List.mem_append_left _ he
  have hb : (b, s) ∈ pairs ++ [(b, s)] := List.mem_append_right _ List.mem_cons_self
  rw [← same e.1 (ne e he)] at next
  have unwritten : ∀ f ∈ pairs ++ [(b, s)], .object .struct b ∉ t₁.heap.listItems f.1 := by
    refine forall_mem_concat (fun f hf written => ?_) ?_
    · rw [same f.1 (ne f hf)] at written
      obtain ⟨s', old⟩ := copies.mem_of_written hf written
      exact ne _ old rfl
    · rw [empty]
      exact List.not_mem_nil
  have apart : ∀ r ∈ (pairs ++ [(b, s)]).head?, b ≠ r.1 := by
    obtain ⟨p, others, rfl⟩ := List.exists_cons_of_ne_nil (List.ne_nil_of_mem he)
    intro r hr
    obtain rfl := Option.some.inj hr
    exact (ne p List.mem_cons_self).symm
  obtain ⟨u, run, pushed, here, elsewhere⟩ := created.push sound he₁ next (.struct hb)
    (fun c owned _ => (created.owner_copy hb).trans owned)
    fun d named => (Item.object.inj named).2 ▸ ⟨apart, unwritten⟩
  refine ⟨b, t₁, u, made, run, pushed, rfl, ?_, fun f hf apart => ?_, fun f hf => ?_⟩
  · rw [here, List.length_append, same e.1 (ne e he)]
    rfl
  · rw [elsewhere f.1 apart, same f.1 (ne f hf)]
  · obtain rfl := List.mem_singleton.1 hf
    rw [elsewhere b (ne e he).symm, empty]

end Copies

/-- The rest of a source is written into its copy when there is room for all of it. -/
theorem copyItems_fills (sound : base.Sound strict roots) (xs : List Item) (room : Nat)
    (queue : List (ItemId × ItemId)) :
    ∀ {pairs : List (ItemId × ItemId)} {t : Memory}, Copies base owner pairs t → (a, s) ∈ pairs →
    (base.heap.listItems s).drop (t.heap.listItems a).length = xs →
    Ends (fun err u => err = .invalidOperation .cloneTooLarge ∧ room < xs.length ∧ base.Untouched u)
      (fun r u => ∃ new left, r = (left, queue ++ new) ∧ room = xs.length + left ∧
        Filled base owner pairs (a, s) xs t new u)
      (copyItems owner a xs room queue) t := by
  fun_induction copyItems owner a xs room queue with
  | case1 room queue =>
    intro pairs t copies he rest
    refine .pure ⟨[], room, by rw [List.append_nil], (Nat.zero_add room).symm, ?_⟩
    exact ⟨by rwa [List.append_nil], rfl, rfl, fun _ _ _ => rfl,
      fun f hf => absurd hf List.not_mem_nil⟩
  | case2 x xs queue =>
    intro pairs t copies he rest
    exact .refuse ⟨rfl, Nat.succ_pos _, copies.toUntouched⟩
  | case3 source xs room queue ih =>
    intro pairs t copies he rest
    obtain ⟨next, rest⟩ := drop_eq_cons rest
    obtain ⟨b, t₁, u, made, run, first⟩ := copies.fill_struct sound he next
    refine .after made (.after run ?_)
    refine (ih b first.copies (List.mem_append_left _ he) (first.length ▸ rest)).mono ?_ ?_
    · rintro err v ⟨rfl, full, untouched⟩
      exact ⟨rfl, Nat.succ_lt_succ full, untouched⟩
    · rintro _ v ⟨new, left, rfl, rfl, second⟩
      exact ⟨(b, source) :: new, left, by rw [List.append_assoc]; rfl, (Nat.succ_add ..).symm,
        first.append he second⟩
  | case4 x xs room queue closed ih =>
    intro pairs t copies he rest
    obtain ⟨next, rest⟩ := drop_eq_cons rest
    obtain ⟨u, run, first⟩ := copies.fill_shared sound he next closed
    refine .after run ?_
    refine (ih first.copies (List.mem_append_left _ he) (first.length ▸ rest)).mono ?_ ?_
    · rintro err v ⟨rfl, full, untouched⟩
      exact ⟨rfl, Nat.succ_lt_succ full, untouched⟩
    · rintro _ v ⟨new, left, rfl, rfl, second⟩
      exact ⟨new, left, rfl, (Nat.succ_add ..).symm, first.append he second⟩

end ListObject

end LiveItems
