import LiveItems.OrderedMap
set_option autoImplicit false

namespace LiveItems.OrderedMap

variable {α β : Type}

@[simp] theorem length_toList (m : OrderedMap α β) : m.toList.length = m.size := by
  simp [toList, size]

theorem value_unique {m : OrderedMap α β} {k : α} {v w : β} (hv : (k, v) ∈ m.toList)
    (hw : (k, w) ∈ m.toList) : v = w := by
  obtain ⟨i, hi, hiv⟩ := List.mem_iff_getElem.1 hv
  obtain ⟨j, hj, hjw⟩ := List.mem_iff_getElem.1 hw
  have hi' : i < m.keys.length := by simpa [keys] using hi
  have hj' : j < m.keys.length := by simpa [keys] using hj
  have same : m.keys[i] = m.keys[j] := by simp [keys, hiv, hjw]
  have hij : i = j := (List.getElem_inj m.nodup_keys).1 same
  subst hij
  exact congrArg Prod.snd (hiv.symm.trans hjw)

theorem mem_keys_iff {m : OrderedMap α β} {k : α} : k ∈ m.keys ↔ ∃ v, (k, v) ∈ m.toList := by
  simp [keys]

@[simp] theorem toList_filterKeys (m : OrderedMap α β) (p : α → Bool) :
    (m.filterKeys p).toList = m.toList.filter fun e => p e.1 := by
  simp [filterKeys, toList]

variable [DecidableEq α]

theorem get?_eq_some_iff {m : OrderedMap α β} {k : α} {v : β} :
    m.get? k = some v ↔ (k, v) ∈ m.toList := by
  unfold get?
  constructor
  · intro h
    obtain ⟨⟨k', v'⟩, he, rfl⟩ := Option.map_eq_some_iff.1 h
    have hk : k' = k := by simpa using Array.find?_some he
    subst hk
    simpa [toList] using Array.mem_of_find?_eq_some he
  · intro h
    cases hf : m.entries.find? (fun e => e.1 = k) with
    | none =>
      have := Array.find?_eq_none.1 hf (k, v) (by simpa [toList] using h)
      simp at this
    | some e =>
      obtain ⟨k', v'⟩ := e
      have hk : k' = k := by simpa using Array.find?_some hf
      subst hk
      have hm : (k', v') ∈ m.toList := by simpa [toList] using Array.mem_of_find?_eq_some hf
      rw [Option.map_some, value_unique hm h]

theorem get?_eq_none_iff {m : OrderedMap α β} {k : α} : m.get? k = none ↔ k ∉ m.keys := by
  rw [Option.eq_none_iff_forall_ne_some, mem_keys_iff]
  simp [get?_eq_some_iff]

theorem contains_iff {m : OrderedMap α β} {k : α} : m.contains k = true ↔ k ∈ m.keys := by
  rw [contains, ← Array.any_toList, List.any_eq_true, keys, List.mem_map]
  simp [toList]

theorem index?_eq_some {m : OrderedMap α β} {k : α} {i : Nat} (h : m.index? k = some i) :
    ∃ hi : i < m.toList.length, (m.toList[i]).1 = k := by
  obtain ⟨hi, hk, -⟩ := Array.findIdx?_eq_some_iff_getElem.1 h
  exact ⟨by simpa [toList] using hi, by simpa [toList] using hk⟩

theorem index?_eq_none_iff {m : OrderedMap α β} {k : α} : m.index? k = none ↔ k ∉ m.keys := by
  constructor
  · exact key_absent
  · intro h
    cases hi : m.index? k with
    | none => rfl
    | some i =>
      obtain ⟨hb, hk⟩ := index?_eq_some hi
      exact absurd (List.mem_map.2 ⟨_, List.getElem_mem hb, hk⟩) h

theorem toList_insert_of_not_mem {m : OrderedMap α β} {k : α} {v : β} (h : k ∉ m.keys) :
    (m.insert k v).toList = m.toList ++ [(k, v)] := by
  have hi := index?_eq_none_iff.2 h
  unfold insert
  split
  · rename_i i hs
    rw [hs] at hi
    cases hi
  · simp [toList]

theorem toList_insert_of_mem {m : OrderedMap α β} {k : α} {v : β} (h : k ∈ m.keys) :
    (m.insert k v).toList = m.toList.map fun e => if e.1 = k then (k, v) else e := by
  unfold insert
  split
  · rename_i i hs
    obtain ⟨hb, hk⟩ := index?_eq_some hs
    rw [toList, Array.toList_setIfInBounds]
    refine List.ext_getElem (by simp [toList]) fun j hj hj' => ?_
    rw [List.getElem_set, List.getElem_map]
    have hjl : j < m.toList.length := by simpa using hj'
    by_cases hij : i = j
    · subst hij
      simp [hk]
    · have hne : (m.toList[j]).1 ≠ k := by
        intro hjk
        have hb' : i < m.keys.length := by simpa [keys] using hb
        have hj'' : j < m.keys.length := by simpa [keys] using hjl
        have same : m.keys[i] = m.keys[j] := by simp [keys, hk, hjk]
        exact hij ((List.getElem_inj m.nodup_keys).1 same)
      rw [if_neg hij, if_neg hne]
      rfl
  · rename_i hn
    exact absurd h (index?_eq_none_iff.1 hn)

theorem keys_insert (m : OrderedMap α β) (k : α) (v : β) :
    (m.insert k v).keys = if k ∈ m.keys then m.keys else m.keys ++ [k] := by
  split
  · rename_i h
    rw [keys, toList_insert_of_mem h, List.map_map, keys]
    refine List.map_congr_left fun e _ => ?_
    by_cases he : e.1 = k <;> simp [he]
  · rename_i h
    rw [keys, toList_insert_of_not_mem h]
    simp [keys]

theorem mem_toList_insert {m : OrderedMap α β} {k : α} {v : β} {e : α × β} :
    e ∈ (m.insert k v).toList ↔ e = (k, v) ∨ (e ∈ m.toList ∧ e.1 ≠ k) := by
  by_cases h : k ∈ m.keys
  · rw [toList_insert_of_mem h, List.mem_map]
    constructor
    · rintro ⟨e', he', rfl⟩
      by_cases hk : e'.1 = k
      · exact .inl (by simp [hk])
      · exact .inr (by simp [hk, he'])
    · rintro (rfl | ⟨he, hk⟩)
      · obtain ⟨w, hw⟩ := mem_keys_iff.1 h
        exact ⟨_, hw, by simp⟩
      · exact ⟨e, he, by simp [hk]⟩
  · rw [toList_insert_of_not_mem h, List.mem_append, List.mem_singleton]
    constructor
    · rintro (he | rfl)
      · exact .inr ⟨he, fun hk => h (mem_keys_iff.2 ⟨e.2, hk ▸ he⟩)⟩
      · exact .inl rfl
    · rintro (rfl | ⟨he, -⟩)
      · exact .inr rfl
      · exact .inl he

theorem get?_insert (m : OrderedMap α β) (k a : α) (v : β) :
    (m.insert k v).get? a = if a = k then some v else m.get? a := by
  refine Option.ext fun w => ?_
  rw [get?_eq_some_iff, mem_toList_insert]
  by_cases h : a = k
  · subst h
    simp [eq_comm]
  · simp [h, get?_eq_some_iff]

theorem toList_erase (m : OrderedMap α β) (k : α) :
    (m.erase k).toList = m.toList.filter fun e => e.1 ≠ k := by
  unfold erase
  split
  · rename_i i hs
    obtain ⟨hb, hk⟩ := index?_eq_some hs
    rw [toList, Array.toList_eraseIdxIfInBounds]
    change m.toList.eraseIdx i = _
    have split : m.toList = m.toList.take i ++ m.toList[i] :: m.toList.drop (i + 1) := by simp
    have distinct := m.nodup
    rw [← toList, split, List.map_append, List.map_cons, List.nodup_append] at distinct
    obtain ⟨-, tail, apart⟩ := distinct
    rw [List.eraseIdx_eq_take_drop_succ]
    conv => rhs; rw [split]
    rw [List.filter_append, List.filter_cons_of_neg (by simpa using hk)]
    congr 1
    · refine (List.filter_eq_self.2 fun e he => ?_).symm
      simpa using fun h => apart e.1 (List.mem_map_of_mem he) k (by simp [hk]) h
    · refine (List.filter_eq_self.2 fun e he => ?_).symm
      have := (List.nodup_cons.1 tail).1
      rw [decide_eq_true_eq]
      exact fun h => this (List.mem_map.2 ⟨e, he, h.trans hk.symm⟩)
  · rename_i hn
    refine (List.filter_eq_self.2 fun e he => ?_).symm
    rw [decide_eq_true_eq]
    exact fun h => index?_eq_none_iff.1 hn (mem_keys_iff.2 ⟨e.2, h ▸ he⟩)

theorem keys_erase (m : OrderedMap α β) (k : α) :
    (m.erase k).keys = m.keys.filter fun a => a ≠ k := by
  rw [keys, toList_erase, keys, List.filter_map]
  rfl

theorem mem_toList_erase {m : OrderedMap α β} {k : α} {e : α × β} :
    e ∈ (m.erase k).toList ↔ e ∈ m.toList ∧ e.1 ≠ k := by
  simp [toList_erase]

theorem get?_erase (m : OrderedMap α β) (k a : α) :
    (m.erase k).get? a = if a = k then none else m.get? a := by
  refine Option.ext fun w => ?_
  rw [get?_eq_some_iff, mem_toList_erase]
  by_cases h : a = k <;> simp [h, get?_eq_some_iff]

theorem toList_erase_of_index {m : OrderedMap α β} {k : α} {i : Nat} (h : m.index? k = some i) :
    (m.erase k).toList = m.toList.eraseIdx i := by
  unfold erase
  split
  · rename_i j hj
    obtain rfl := Option.some.inj (h.symm.trans hj)
    simp [toList]
  · rename_i hn
    rw [hn] at h
    cases h

/-- The erased entry has changed places with the last one and then gone. -/
theorem toList_swapErase_of_index {m : OrderedMap α β} {k : α} {i : Nat}
    (h : m.index? k = some i) (hi : i < m.entries.size) (hl : m.entries.size - 1 < m.entries.size) :
    (m.swapErase k).toList = (m.entries.swap i (m.entries.size - 1) hi hl).toList.dropLast := by
  unfold swapErase
  split
  · rename_i j hj
    obtain rfl := Option.some.inj (h.symm.trans hj)
    simp [toList]
  · rename_i hn
    rw [hn] at h
    cases h

theorem swapErase_of_none {m : OrderedMap α β} {k : α} (absent : m.index? k = none) :
    m.swapErase k = m := by
  unfold swapErase
  split
  · rename_i i hi
    rw [absent] at hi
    cases hi
  · rfl

theorem swapErase_perm_erase (m : OrderedMap α β) (k : α) :
    (m.swapErase k).toList.Perm (m.erase k).toList := by
  cases h : m.index? k with
  | none =>
    have absent : ∀ e ∈ m.toList, e.1 ≠ k := fun e he hk =>
      index?_eq_none_iff.1 h (mem_keys_iff.2 ⟨e.2, hk ▸ he⟩)
    rw [swapErase_of_none h, toList_erase, List.filter_eq_self.2 (by simpa using absent)]
  | some i =>
    have hi := index?_bound h
    have hl : m.entries.size - 1 < m.entries.size := by omega
    rw [toList_swapErase_of_index h hi hl, toList_erase_of_index h]
    have perm := (Array.swap_perm hi hl).toList
    have nonempty : (m.entries.swap i (m.entries.size - 1) hi hl).toList ≠ [] := by
      intro e
      have := congrArg List.length e
      simp at this
      simp [this] at hi
    have last : (m.entries.swap i (m.entries.size - 1) hi hl).toList.getLast nonempty
        = m.entries[i] := by
      simp [List.getLast_eq_getElem]
    rw [← List.dropLast_concat_getLast nonempty, last] at perm
    have around : (m.entries[i] :: m.entries.toList.eraseIdx i).Perm m.entries.toList := by
      have split : m.entries.toList =
          m.entries.toList.take i ++ m.entries[i] :: m.entries.toList.drop (i + 1) := by
        simp [← Array.getElem_toList]
      rw [List.eraseIdx_eq_take_drop_succ]
      conv => rhs; rw [split]
      exact List.perm_middle.symm
    exact ((List.perm_append_singleton _ _).symm.trans (perm.trans around.symm)).cons_inv

theorem mem_toList_swapErase {m : OrderedMap α β} {k : α} {e : α × β} :
    e ∈ (m.swapErase k).toList ↔ e ∈ m.toList ∧ e.1 ≠ k := by
  rw [(swapErase_perm_erase m k).mem_iff, mem_toList_erase]

theorem get?_swapErase (m : OrderedMap α β) (k a : α) :
    (m.swapErase k).get? a = if a = k then none else m.get? a := by
  refine Option.ext fun w => ?_
  rw [get?_eq_some_iff, mem_toList_swapErase]
  by_cases h : a = k <;> simp [h, get?_eq_some_iff]

theorem mem_keys_insert {m : OrderedMap α β} {k a : α} {v : β} :
    a ∈ (m.insert k v).keys ↔ a = k ∨ a ∈ m.keys := by
  rw [keys_insert]
  split
  · rename_i h
    exact ⟨.inr, fun o => o.elim (fun e => e ▸ h) id⟩
  · simp [or_comm]

theorem mem_keys_swapErase {m : OrderedMap α β} {k a : α} :
    a ∈ (m.swapErase k).keys ↔ a ∈ m.keys ∧ a ≠ k := by
  simp only [mem_keys_iff, mem_toList_swapErase]
  exact ⟨fun ⟨v, h, ne⟩ => ⟨⟨v, h⟩, ne⟩, fun ⟨⟨v, h⟩, ne⟩ => ⟨v, h, ne⟩⟩

end LiveItems.OrderedMap
