set_option autoImplicit false

/-!
# Insertion-ordered maps

A map whose entries have an order: a new key goes to the end, and a key that is already there keeps
its place when its value changes. There are two ways to take an entry out. `erase` closes the gap,
so that all others keep their order; `swapErase` fills the gap with the last entry and moves no
other. No key occurs twice, which is part of the type.
-/

namespace LiveItems

structure OrderedMap (α β : Type) where
  entries : Array (α × β)
  nodup : (entries.toList.map Prod.fst).Nodup

namespace OrderedMap

variable {α β : Type}

instance : EmptyCollection (OrderedMap α β) := ⟨{ entries := #[], nodup := List.nodup_nil }⟩

instance : Inhabited (OrderedMap α β) := ⟨{}⟩

def toList (m : OrderedMap α β) : List (α × β) := m.entries.toList

@[simp] theorem toList_empty : ({} : OrderedMap α β).toList = [] := rfl

def keys (m : OrderedMap α β) : List α := m.toList.map Prod.fst

@[simp] theorem keys_empty : ({} : OrderedMap α β).keys = [] := rfl

def values (m : OrderedMap α β) : List β := m.toList.map Prod.snd

def size (m : OrderedMap α β) : Nat := m.entries.size

def isEmpty (m : OrderedMap α β) : Bool := m.entries.isEmpty

theorem nodup_keys (m : OrderedMap α β) : m.keys.Nodup := m.nodup

theorem ext {m n : OrderedMap α β} (h : m.entries = n.entries) : m = n := by
  cases m; cases n; cases h; rfl

def filterKeys (m : OrderedMap α β) (p : α → Bool) : OrderedMap α β where
  entries := m.entries.filter (fun e => p e.1)
  nodup := by
    rw [Array.toList_filter]
    exact m.nodup.sublist (List.filter_sublist.map _)

variable [DecidableEq α]

def index? (m : OrderedMap α β) (k : α) : Option Nat :=
  m.entries.findIdx? (fun e => e.1 = k)

def contains (m : OrderedMap α β) (k : α) : Bool := m.entries.any (fun e => e.1 = k)

def get? (m : OrderedMap α β) (k : α) : Option β :=
  (m.entries.find? (fun e => e.1 = k)).map Prod.snd

theorem index?_bound {m : OrderedMap α β} {k : α} {i : Nat} (h : m.index? k = some i) :
    i < m.entries.size := by
  obtain ⟨hi, -⟩ := Array.findIdx?_eq_some_iff_getElem.1 h
  exact hi

theorem key_at_index {m : OrderedMap α β} {k : α} {i : Nat} (h : m.index? k = some i) :
    (m.entries.toList.map Prod.fst)[i]? = some k := by
  obtain ⟨hi, hk, -⟩ := Array.findIdx?_eq_some_iff_getElem.1 h
  have hk : m.entries[i].1 = k := by simpa using hk
  simp [hi, hk]

theorem key_absent {m : OrderedMap α β} {k : α} (h : m.index? k = none) :
    k ∉ m.entries.toList.map Prod.fst := by
  have h' := Array.findIdx?_eq_none_iff.1 h
  intro hk
  obtain ⟨e, he, rfl⟩ := List.mem_map.1 hk
  simpa using h' e (by simpa using he)

/-- Gives the key a value: in its old place when it is there, else at the end. -/
def insert (m : OrderedMap α β) (k : α) (v : β) : OrderedMap α β :=
  match h : m.index? k with
  | some i =>
    { entries := m.entries.setIfInBounds i (k, v)
      nodup := by
        have hk : ((m.entries.setIfInBounds i (k, v)).toList.map Prod.fst)
            = m.entries.toList.map Prod.fst := by
          rw [Array.toList_setIfInBounds, List.map_set]
          refine List.ext_getElem? fun j => ?_
          by_cases hj : i = j
          · subst hj
            rw [List.getElem?_set_self (by simpa using index?_bound h), key_at_index h]
          · rw [List.getElem?_set_ne hj]
        rw [hk]
        exact m.nodup }
  | none =>
    { entries := m.entries.push (k, v)
      nodup := by
        rw [Array.toList_push, List.map_append, List.map_singleton, List.nodup_append]
        refine ⟨m.nodup, by simp, fun a ha b hb => ?_⟩
        obtain rfl := List.mem_singleton.1 hb
        exact fun hab => key_absent h (hab ▸ ha) }

/-- Takes the key out; the entries behind it move up. -/
def erase (m : OrderedMap α β) (k : α) : OrderedMap α β :=
  match m.index? k with
  | some i =>
    { entries := m.entries.eraseIdxIfInBounds i
      nodup := by
        rw [Array.toList_eraseIdxIfInBounds]
        exact m.nodup.sublist ((List.eraseIdx_sublist _ _).map _) }
  | none => m

/-- Takes the key out; the last entry moves into its place. -/
def swapErase (m : OrderedMap α β) (k : α) : OrderedMap α β :=
  match h : m.index? k with
  | some i =>
    { entries := (m.entries.swap i (m.entries.size - 1) (index?_bound h)
          (by have := index?_bound h; omega)).pop
      nodup := by
        rw [Array.toList_pop]
        refine List.Nodup.sublist ((List.dropLast_sublist _).map _) ?_
        exact ((Array.swap_perm _ _).toList.map Prod.fst).nodup_iff.2 m.nodup }
  | none => m

end OrderedMap

abbrev OrderedSet (α : Type) := OrderedMap α Unit

end LiveItems
