import Mathlib.Data.List.Basic
import Mathlib.Data.List.Nodup
import Mathlib.Data.Set.Operations
import Mathlib.Logic.Embedding.Basic
import LiveItems.OrderedMap.Lemmas
import Std.Data.ExtTreeMap
set_option autoImplicit false

namespace LiveItems

namespace OrderedMap

variable {α γ β δ : Type}

def rekey (f : α ↪ γ) (g : β → δ) (m : OrderedMap α β) : OrderedMap γ δ where
  entries := m.entries.map fun e => (f e.1, g e.2)
  nodup := by
    have keys : (m.entries.map fun e => (f e.1, g e.2)).toList.map Prod.fst
        = (m.entries.toList.map Prod.fst).map f := by
      rw [Array.toList_map, List.map_map, List.map_map]
      rfl
    rw [keys]
    exact List.Nodup.map f.injective m.nodup

theorem ext_toList {m n : OrderedMap α β} (same : m.toList = n.toList) : m = n :=
  ext (Array.toList_inj.1 same)

variable (f : α ↪ γ) (g : β → δ) (m : OrderedMap α β)

@[simp] theorem toList_rekey : (m.rekey f g).toList = m.toList.map fun e => (f e.1, g e.2) :=
  Array.toList_map

@[simp] theorem rekey_empty : ({} : OrderedMap α β).rekey f g = {} :=
  ext_toList (by rw [toList_rekey]; rfl)

@[simp] theorem keys_rekey : (m.rekey f g).keys = m.keys.map f := by
  rw [keys, toList_rekey, keys, List.map_map, List.map_map]
  rfl

@[simp] theorem values_rekey : (m.rekey f g).values = m.values.map g := by
  rw [values, toList_rekey, values, List.map_map, List.map_map]
  rfl

@[simp] theorem size_rekey : (m.rekey f g).size = m.size := Array.size_map ..

@[simp] theorem isEmpty_rekey : (m.rekey f g).isEmpty = m.isEmpty := by
  simp only [isEmpty, Array.isEmpty]
  exact congrArg (fun n => decide (n = 0)) (size_rekey f g m)

theorem filterKeys_rekey {p : α → Bool} {q : γ → Bool} (same : ∀ k, q (f k) = p k) :
    (m.rekey f g).filterKeys q = (m.filterKeys p).rekey f g := by
  refine ext ?_
  change (m.entries.map _).filter _ = (m.entries.filter _).map _
  rw [Array.filter_map]
  congr 2
  exact funext fun e => same e.1

variable [DecidableEq α] [DecidableEq γ] (k : α)

@[simp] theorem index?_rekey : (m.rekey f g).index? (f k) = m.index? k := by
  rw [index?, rekey, Array.findIdx?_map, index?]
  congr 1
  exact funext fun e => decide_eq_decide.2 f.injective.eq_iff

@[simp] theorem contains_rekey : (m.rekey f g).contains (f k) = m.contains k := by
  rw [contains, rekey, Array.any_map, contains]
  congr 1
  exact funext fun e => decide_eq_decide.2 f.injective.eq_iff

@[simp] theorem get?_rekey : (m.rekey f g).get? (f k) = (m.get? k).map g := by
  have test : (fun e : γ × δ => decide (e.1 = f k)) ∘ (fun e : α × β => (f e.1, g e.2))
      = fun e => decide (e.1 = k) := funext fun e => decide_eq_decide.2 f.injective.eq_iff
  rw [get?, rekey, Array.find?_map, test, get?, Option.map_map, Option.map_map]
  rfl

theorem insert_rekey (v : β) :
    (m.rekey f g).insert (f k) (g v) = (m.insert k v).rekey f g := by
  refine ext_toList ?_
  rw [toList_rekey]
  by_cases known : k ∈ m.keys
  · have known' : f k ∈ (m.rekey f g).keys := by
      rw [keys_rekey]
      exact List.mem_map_of_mem known
    rw [toList_insert_of_mem known, toList_insert_of_mem known', toList_rekey, List.map_map,
      List.map_map]
    refine List.map_congr_left fun e _ => ?_
    by_cases same : e.1 = k
    · simp [same]
    · simp [same, f.injective.ne same]
  · have known' : f k ∉ (m.rekey f g).keys := by
      rw [keys_rekey, List.mem_map_of_injective f.injective]
      exact known
    rw [toList_insert_of_not_mem known, toList_insert_of_not_mem known', toList_rekey,
      List.map_append, List.map_singleton]

theorem erase_rekey : (m.rekey f g).erase (f k) = (m.erase k).rekey f g := by
  refine ext_toList ?_
  rw [toList_erase, toList_rekey, toList_rekey, toList_erase, List.filter_map]
  congr 2
  exact funext fun e => decide_eq_decide.2 (not_congr f.injective.eq_iff)

theorem swapErase_rekey : (m.rekey f g).swapErase (f k) = (m.swapErase k).rekey f g := by
  cases found : m.index? k with
  | none => rw [swapErase_of_none found, swapErase_of_none ((index?_rekey f g m k).trans found)]
  | some i =>
    have bound := index?_bound found
    have last : m.entries.size - 1 < m.entries.size := by omega
    refine ext_toList ?_
    rw [toList_rekey, toList_swapErase_of_index found bound last,
      toList_swapErase_of_index ((index?_rekey f g m k).trans found)
        (by rwa [← size, size_rekey]) (by rwa [← size, size_rekey]), List.map_dropLast]
    simp only [rekey, Array.toList_swap, Array.toList_map, Array.getElem_map, Array.size_map,
      List.map_set]

end OrderedMap

namespace Table

open Std (ExtTreeMap TransOrd LawfulEqOrd)

variable {α γ β δ : Type} [Ord α] [TransOrd α] [LawfulEqOrd α] [Ord γ] [TransOrd γ]
  [LawfulEqOrd γ]

def rekey (f : α ↪ γ) (g : β → δ) (t : ExtTreeMap α β) : ExtTreeMap γ δ :=
  .ofList (t.toList.map fun e => (f e.1, g e.2))

variable (f : α ↪ γ) (g : β → δ) (t : ExtTreeMap α β) (k : α)

omit [TransOrd α] [TransOrd γ] in
theorem compare_image (a b : α) : (compare (f a) (f b) = .eq) = (compare a b = .eq) := by
  rw [Std.compare_eq_iff_eq, Std.compare_eq_iff_eq, f.apply_eq_iff_eq]

omit [TransOrd γ] in
theorem rekey_distinct : (t.toList.map fun e => (f e.1, g e.2)).Pairwise
    fun a b => ¬compare a.1 b.1 = .eq :=
  List.pairwise_map.2 (ExtTreeMap.distinct_keys_toList.imp fun apart same =>
    apart ((compare_image f _ _).mp same))

theorem getElem?_rekey_eq_some_iff {k : γ} {w : δ} :
    (rekey f g t)[k]? = some w ↔ ∃ a v, t[a]? = some v ∧ f a = k ∧ g v = w := by
  -- the new keys are as distinct as the old ones, so no entry hides another
  have placed : ∀ e ∈ t.toList, (rekey f g t)[f e.1]? = some (g e.2) := fun e among =>
    ExtTreeMap.getElem?_ofList_of_mem Std.ReflCmp.compare_self (rekey_distinct f g t)
      (List.mem_map.2 ⟨e, among, rfl⟩)
  constructor
  · intro found
    classical
    have : Std.LawfulBEqOrd γ := ⟨Std.compare_eq_iff_eq.trans beq_iff_eq.symm⟩
    have known : k ∈ rekey f g t := ExtTreeMap.mem_iff_isSome_getElem?.2 (by rw [found]; rfl)
    rw [rekey, ExtTreeMap.mem_ofList, List.contains_iff_mem, List.map_map] at known
    obtain ⟨⟨a, v⟩, among, rfl⟩ := List.mem_map.1 known
    exact ⟨a, v, ExtTreeMap.mem_toList_iff_getElem?_eq_some.1 among, rfl,
      Option.some.inj ((placed _ among).symm.trans found)⟩
  · rintro ⟨a, v, found, rfl, rfl⟩
    exact placed (a, v) (ExtTreeMap.mem_toList_iff_getElem?_eq_some.2 found)

@[simp] theorem getElem?_rekey : (rekey f g t)[f k]? = t[k]?.map g := by
  refine Option.ext fun w => ?_
  rw [getElem?_rekey_eq_some_iff, Option.map_eq_some_iff]
  constructor
  · rintro ⟨a, v, found, same, rfl⟩
    exact ⟨v, f.injective same ▸ found, rfl⟩
  · rintro ⟨v, found, rfl⟩
    exact ⟨k, v, found, rfl, rfl⟩

theorem getElem?_rekey_of_not_range {k : γ} (outside : k ∉ Set.range f) :
    (rekey f g t)[k]? = none := by
  refine Option.eq_none_iff_forall_ne_some.2 fun w found => ?_
  obtain ⟨a, v, -, rfl, -⟩ := (getElem?_rekey_eq_some_iff f g t).1 found
  exact outside ⟨a, rfl⟩

variable {f g t} in
theorem eq_rekey {u : ExtTreeMap γ δ} (inside : ∀ k, u[f k]? = t[k]?.map g)
    (outside : ∀ k, k ∉ Set.range f → u[k]? = none) : u = rekey f g t := by
  refine ExtTreeMap.ext_getElem? fun k => ?_
  by_cases image : k ∈ Set.range f
  · obtain ⟨a, rfl⟩ := image
    rw [inside, getElem?_rekey]
  · rw [outside k image, getElem?_rekey_of_not_range f g t image]

@[simp] theorem rekey_empty : rekey f g {} = {} :=
  (eq_rekey (fun _ => by simp) fun _ _ => by simp).symm

@[simp] theorem contains_rekey : (rekey f g t).contains (f k) = t.contains k := by
  rw [ExtTreeMap.contains_eq_isSome_getElem?, getElem?_rekey, Option.isSome_map,
    ExtTreeMap.contains_eq_isSome_getElem?]

theorem getD_rekey (v : β) : (rekey f g t).getD (f k) (g v) = g (t.getD k v) := by
  rw [ExtTreeMap.getD_eq_getD_getElem?, getElem?_rekey, ExtTreeMap.getD_eq_getD_getElem?,
    Option.getD_map]

@[simp] theorem size_rekey : (rekey f g t).size = t.size := by
  rw [rekey, ExtTreeMap.size_ofList (rekey_distinct f g t), List.length_map,
    ExtTreeMap.length_toList]

theorem insert_rekey (v : β) : (rekey f g t).insert (f k) (g v) = rekey f g (t.insert k v) := by
  refine eq_rekey (fun a => ?_) fun a outside => ?_
  · rw [ExtTreeMap.getElem?_insert, ExtTreeMap.getElem?_insert, getElem?_rekey]
    simp only [compare_image]
    split <;> rfl
  · have other : f k ≠ a := fun same => outside ⟨k, same⟩
    rw [ExtTreeMap.getElem?_insert, getElem?_rekey_of_not_range f g t outside,
      if_neg (mt Std.compare_eq_iff_eq.1 other)]

theorem erase_rekey : (rekey f g t).erase (f k) = rekey f g (t.erase k) := by
  refine eq_rekey (fun a => ?_) fun a outside => ?_
  · rw [ExtTreeMap.getElem?_erase, ExtTreeMap.getElem?_erase, getElem?_rekey]
    simp only [compare_image]
    split <;> rfl
  · rw [ExtTreeMap.getElem?_erase, getElem?_rekey_of_not_range f g t outside, ite_self]

theorem modify_rekey {h : β → β} {h' : δ → δ} (same : ∀ v, h' (g v) = g (h v)) :
    (rekey f g t).modify (f k) h' = rekey f g (t.modify k h) := by
  refine eq_rekey (fun a => ?_) fun a outside => ?_
  · rw [ExtTreeMap.getElem?_modify, ExtTreeMap.getElem?_modify, getElem?_rekey, getElem?_rekey]
    simp only [compare_image]
    split
    · cases t[k]? with
      | none => rfl
      | some v => exact congrArg some (same v)
    · rfl
  · have other : f k ≠ a := fun same => outside ⟨k, same⟩
    rw [ExtTreeMap.getElem?_modify, getElem?_rekey_of_not_range f g t outside,
      if_neg (mt Std.compare_eq_iff_eq.1 other)]

theorem modify_rekey_id (h : β → β) :
    (rekey f id t).modify (f k) h = rekey f id (t.modify k h) := modify_rekey f id t k fun _ => rfl

theorem foldl_modify_rekey (h : β → β) (ks : List α) (t : ExtTreeMap α β) :
    (ks.map f).foldl (fun t k => t.modify k h) (rekey f id t) =
      rekey f id (ks.foldl (fun t k => t.modify k h) t) := by
  induction ks generalizing t with
  | nil => rfl
  | cons k ks ih => rw [List.map_cons, List.foldl_cons, modify_rekey_id, ih, List.foldl_cons]

theorem foldl_insert_rekey (v : β) (ks : List α) (t : ExtTreeMap α β) :
    (ks.map f).foldl (fun t k => t.insert k v) (rekey f id t) =
      rekey f id (ks.foldl (fun t k => t.insert k v) t) := by
  induction ks generalizing t with
  | nil => rfl
  | cons k ks ih =>
    have first := insert_rekey f id t k v
    rw [List.map_cons, List.foldl_cons, List.foldl_cons, ← ih, ← first]
    rfl

theorem insert_map (u : ExtTreeMap α β) (k : α) (v : β) :
    (u.map fun _ => g).insert k (g v) = (u.insert k v).map fun _ => g := by
  refine ExtTreeMap.ext_getElem? fun a => ?_
  rw [ExtTreeMap.getElem?_insert, ExtTreeMap.getElem?_map, ExtTreeMap.getElem?_map,
    ExtTreeMap.getElem?_insert]
  split <;> rfl

theorem erase_map (u : ExtTreeMap α β) (k : α) :
    (u.map fun _ => g).erase k = (u.erase k).map fun _ => g := by
  refine ExtTreeMap.ext_getElem? fun a => ?_
  rw [ExtTreeMap.getElem?_erase, ExtTreeMap.getElem?_map, ExtTreeMap.getElem?_map,
    ExtTreeMap.getElem?_erase]
  split <;> rfl

end Table

end LiveItems
