import LiveItems.Item.Basic
import LiveItems.OrderedMap.Lemmas
set_option autoImplicit false

namespace LiveItems

abbrev Edges := OrderedMap ItemId Nat

namespace Edges

def multiplicity (es : Edges) (child : ItemId) : Nat := (es.get? child).getD 0

def add (es : Edges) (child : ItemId) : Edges := es.insert child (es.multiplicity child + 1)

def remove (es : Edges) (child : ItemId) : Edges :=
  match es.multiplicity child with
  | 0 | 1 => es.swapErase child
  | n + 2 => es.insert child (n + 1)

@[simp] theorem multiplicity_empty (a : ItemId) : multiplicity {} a = 0 := rfl

theorem multiplicity_insert (es : Edges) (child a : ItemId) (n : Nat) :
    multiplicity (es.insert child n) a = if a = child then n else es.multiplicity a := by
  rw [multiplicity, OrderedMap.get?_insert]
  by_cases h : a = child <;> simp [h, multiplicity]

theorem multiplicity_swapErase (es : Edges) (child a : ItemId) :
    multiplicity (es.swapErase child) a = if a = child then 0 else es.multiplicity a := by
  rw [multiplicity, OrderedMap.get?_swapErase]
  by_cases h : a = child <;> simp [h, multiplicity]

theorem multiplicity_add (es : Edges) (child a : ItemId) :
    (es.add child).multiplicity a = es.multiplicity a + if a = child then 1 else 0 := by
  rw [add, multiplicity_insert]
  by_cases h : a = child <;> simp [h]

theorem multiplicity_remove (es : Edges) (child a : ItemId) :
    (es.remove child).multiplicity a = es.multiplicity a - if a = child then 1 else 0 := by
  unfold remove
  split <;> rename_i h
  · rw [multiplicity_swapErase]
    by_cases ha : a = child <;> simp [ha, h]
  · rw [multiplicity_swapErase]
    by_cases ha : a = child <;> simp [ha, h]
  · rw [multiplicity_insert]
    by_cases ha : a = child <;> simp [ha, h]

theorem multiplicity_of_mem {es : Edges} {child : ItemId} {n : Nat} (h : (child, n) ∈ es.toList) :
    es.multiplicity child = n := by
  rw [multiplicity, OrderedMap.get?_eq_some_iff.2 h, Option.getD_some]

theorem multiplicity_of_not_mem {es : Edges} {child : ItemId} (h : child ∉ es.keys) :
    es.multiplicity child = 0 := by
  rw [multiplicity, OrderedMap.get?_eq_none_iff.2 h, Option.getD_none]

end Edges

end LiveItems
