import LiveItems.Proofs.Counter.Linking
set_option autoImplicit false

namespace LiveItems

namespace Heap

def ids (h : Heap) : Finset ItemId := h.objects.keys.toFinset

def Closed (h : Heap) : Prop := ∀ p, ∀ x ∈ h.children p, ∀ id, x.id? = some id → id ∈ h.ids

theorem mem_ids {h : Heap} {id : ItemId} : id ∈ h.ids ↔ ∃ o, h.object? id = some o := by
  rw [ids, List.mem_toFinset, Std.ExtTreeMap.mem_keys, object?, ← Option.isSome_iff_exists,
    Std.ExtTreeMap.isSome_getElem?_eq_contains, Std.ExtTreeMap.mem_iff_contains]

theorem card_ids (h : Heap) : h.ids.card = h.objects.size := by
  rw [ids, List.toFinset_card_of_nodup Std.ExtTreeMap.nodup_keys, Std.ExtTreeMap.length_keys]

theorem Closed.mem {h : Heap} (closed : h.Closed) {p a : ItemId}
    (ha : 0 < occurrences a (h.children p)) : a ∈ h.ids := by
  obtain ⟨x, hx, id⟩ := occurrences_pos.1 ha
  exact closed p x hx a id

end Heap

namespace Counter

structure Unread (c : Counter) (p : ItemId) : Prop where
  tracked : p ∈ c.ids
  flow : ∀ a, c.flow p a = 0
  leaves : c.leafCount p = 0

/-- The storage of the objects in `pending`, and of everything below them that had no entry, has
been read. The count is exact unless a sum has left the word. -/
structure Registers (h : Heap) (pending : List ItemId) (c c' : Counter) : Prop where
  subset : c.ids ⊆ c'.ids
  others : ∀ p ∈ c.ids, p ∉ pending → (c.entry p).Agrees (c'.entry p)
  flow : ∀ p ∈ c'.ids, p ∉ c.ids ∨ p ∈ pending → ∀ a, c'.flow p a = occurrences a (h.children p)
  leaves : ∀ p ∈ c'.ids, p ∉ c.ids ∨ p ∈ pending → c'.leafCount p = leafOccurrences (h.children p)
  grows : ∀ p a, c.flow p a ≤ c'.flow p a
  roots : ∀ a, c'.rootCount a = c.rootCount a
  references : ∀ a, c.referenceCount a ≤ c'.referenceCount a
  held : ∀ a ∈ c'.ids, a ∉ c.ids → 0 < c'.referenceCount a
  unwrapped : c'.Unwrapped → c.Unwrapped
  weight : c'.Unwrapped → c'.count + c.weight = c.count + c'.weight
  count : c'.Unwrapped → c.count ≤ c'.count
  highest : c'.Unwrapped → ∀ n, c'.count ≤ n → max c'.highest n = max c.highest n
  stats : c'.stats = c.stats
  candidates : ∀ a, a ∈ c'.candidates.keys ↔ a ∈ c.candidates.keys ∨
    (c.referenceCount a = 0 ∧ c.rootCount a = 0 ∧ 0 < c'.referenceCount a)
  least : ∀ S : Set ItemId, (∀ a ∈ pending, a ∈ S) → (∀ p ∈ S, ∀ a, 0 < c'.flow p a → a ∈ S) →
    ∀ a ∈ c'.ids, a ∉ c.ids → a ∈ S

theorem Registers.nothing (h : Heap) (c : Counter) : Registers h [] c c := by
  refine ⟨Finset.Subset.refl _, fun _ _ _ => .refl _, fun p hp new => ?_, fun p hp new => ?_,
    fun _ _ => le_rfl, fun _ => rfl, fun _ => le_rfl, fun a ha new => absurd ha new, id,
    fun _ => rfl, fun _ => le_rfl, fun _ _ _ => rfl, rfl,
    fun a => ?_, fun _ _ _ a ha new => absurd ha new⟩
  · exact absurd hp (by simpa using new)
  · exact absurd hp (by simpa using new)
  · refine ⟨.inl, fun ha => ha.elim (fun ha => ha) ?_⟩
    rintro ⟨none, -, some⟩
    omega

theorem Registers.cons {h : Heap} {id : ItemId} {new pending : List ItemId} {c d c' : Counter}
    (first : Links id (h.children id) new c d) (others : Registers h (new ++ pending) d c')
    (unread : c.Unread id) (once : id ∉ pending) :
    Registers h (id :: pending) c c' := by
  have id_d : id ∈ d.ids := first.subset unread.tracked
  have id_done : id ∉ new ++ pending := by
    rw [List.mem_append, not_or]
    exact ⟨fun hn => ((first.fresh id).1 hn).1 unread.tracked, once⟩
  have later : ∀ p, p ∉ c.ids ∨ p ∈ pending → p ∉ d.ids ∨ p ∈ new ++ pending := by
    intro p hp
    rw [first.mem_ids, List.mem_append]
    by_cases hn : p ∈ new
    · exact .inr (.inl hn)
    · exact hp.imp (fun hp => not_or.2 ⟨hp, hn⟩) .inr
  have read := others.others id id_d id_done
  constructor
  · exact first.subset.trans others.subset
  · intro p hp hw
    rw [List.mem_cons, not_or] at hw
    refine (first.others p hw.1).trans (others.others p (first.subset hp) ?_)
    rw [List.mem_append, not_or]
    exact ⟨fun hn => ((first.fresh p).1 hn).1 hp, hw.2⟩
  · intro p hp hw a
    by_cases same : p = id
    · subst same
      rw [flow_agrees read, first.flow, unread.flow, Nat.zero_add]
    · have kept := later p (hw.imp_right fun hw => (List.mem_cons.1 hw).resolve_left same)
      exact others.flow p hp kept a
  · intro p hp hw
    by_cases same : p = id
    · subst same
      rw [leafCount_agrees read, first.leaves, unread.leaves, Nat.zero_add]
    · have kept := later p (hw.imp_right fun hw => (List.mem_cons.1 hw).resolve_left same)
      exact others.leaves p hp kept
  · intro p a
    have := first.flow_eq p a
    have := others.grows p a
    omega
  · intro a
    rw [others.roots, first.roots]
  · intro a
    have := first.references a
    have := others.references a
    omega
  · intro a ha hn
    by_cases hd : a ∈ d.ids
    · have := ((first.fresh a).1 ((first.mem_ids.1 hd).resolve_left hn)).2
      have := first.references a
      have := others.references a
      omega
    · exact others.held a ha hd
  · exact fun exact => first.unwrapped (others.unwrapped exact)
  · intro exact
    have := first.weight unread.tracked
    have := first.count (others.unwrapped exact)
    have := others.weight exact
    omega
  · intro exact
    have := first.count (others.unwrapped exact)
    have := others.count exact
    omega
  · intro exact n hn
    rw [others.highest exact n hn,
      first.highest (others.unwrapped exact) n ((others.count exact).trans hn)]
  · rw [others.stats, first.stats]
  · intro a
    have more := others.references a
    rw [others.candidates, first.candidates, first.references, first.roots]
    rw [first.references] at more
    constructor
    · rintro ((h | h) | h)
      · exact .inl h
      · exact .inr ⟨h.1, h.2.1, by omega⟩
      · exact .inr ⟨by omega, h.2⟩
    · rintro (known | ⟨none, rootless, some⟩)
      · exact .inl (.inl known)
      · by_cases linked : 0 < occurrences a (h.children id)
        · exact .inl (.inr ⟨none, rootless, linked⟩)
        · exact .inr ⟨by omega, rootless, some⟩
  · intro S hS closed a ha hn
    have new_mem : ∀ b ∈ new, b ∈ S := by
      intro b hb
      refine closed id (hS id (List.mem_cons_self ..)) b ?_
      have := ((first.fresh b).1 hb).2
      rw [flow_agrees read, first.flow]
      omega
    by_cases hd : a ∈ d.ids
    · exact new_mem a ((first.mem_ids.1 hd).resolve_left hn)
    · refine others.least S (fun b hb => ?_) closed a ha hd
      exact (List.mem_append.1 hb).elim (new_mem b) fun hb => hS b (List.mem_cons_of_mem _ hb)

theorem Links.unread {parent p : ItemId} {xs : List Item} {new : List ItemId} {c d : Counter}
    (links : Links parent xs new c d) (hp : parent ∈ c.ids) (hn : p ∈ new) : d.Unread p := by
  have fresh := ((links.fresh p).1 hn).1
  have none := entry_of_not_mem fresh
  have agrees := links.others p fun same => fresh (same ▸ hp)
  refine ⟨links.mem_ids.2 (.inr hn), fun a => ?_, ?_⟩
  · rw [flow_agrees agrees, Counter.flow_eq, none, Edges.multiplicity_empty]
  · rw [leafCount_agrees agrees, leafCount, none]

/-- What gets an entry is taken from the untracked objects of the heap. -/
theorem Links.measure {h : Heap} {parent : ItemId} {xs : List Item} {new : List ItemId}
    {c d : Counter} (links : Links parent xs new c d) (stored : ∀ a ∈ new, a ∈ h.ids) :
    (h.ids \ d.ids).card + new.length = (h.ids \ c.ids).card := by
  have apart : h.ids \ d.ids = (h.ids \ c.ids) \ new.toFinset := by
    rw [links.ids, Finset.sdiff_union_distrib, Finset.sdiff_sdiff_left']
  have subset : new.toFinset ⊆ h.ids \ c.ids := by
    intro a ha
    have ha := List.mem_toFinset.1 ha
    exact Finset.mem_sdiff.2 ⟨stored a ha, ((links.fresh a).1 ha).1⟩
  rw [apart, ← List.toFinset_card_of_nodup links.nodup]
  exact Finset.card_sdiff_add_card_eq_card subset

theorem scan_links {h : Heap} (closed : h.Closed) {c : Counter} {id : ItemId} (tracked : id ∈ c.ids)
    (pending : List ItemId) :
    ∃ new d, scan h id (c, pending) = (d, new ++ pending) ∧ Links id (h.children id) new c d ∧
      (h.ids \ d.ids).card + new.length = (h.ids \ c.ids).card := by
  obtain ⟨new, d, read, links⟩ := foldl_links (h.children id) c pending tracked
  exact ⟨new, d, read, links, links.measure fun a ha => closed.mem ((links.fresh a).1 ha).2⟩

theorem expand_registers {h : Heap} (closed : h.Closed) (fuel : Nat) :
    ∀ (pending : List ItemId) (c : Counter), pending.Nodup →
      (∀ p ∈ pending, c.Unread p) → (h.ids \ c.ids).card + pending.length ≤ fuel →
      Registers h pending c (expand h fuel (c, pending)) ∧
        ((expand h fuel (c, pending)).Unwrapped → ∀ owed, Coherent owed c →
          Coherent owed (expand h fuel (c, pending))) := by
  induction fuel with
  | zero =>
    intro pending c _ _ small
    obtain rfl : pending = [] := List.length_eq_zero_iff.1 (by omega)
    exact ⟨.nothing h c, fun _ _ hc => hc⟩
  | succ fuel ih =>
    intro pending c nodup unread small
    cases pending with
    | nil => exact ⟨.nothing h c, fun _ _ hc => hc⟩
    | cons id pending =>
      rw [List.nodup_cons] at nodup
      have waiting := unread id (List.mem_cons_self ..)
      obtain ⟨new, d, read, links, fewer⟩ := scan_links closed waiting.tracked pending
      have unread_d : ∀ p ∈ new ++ pending, d.Unread p := by
        intro p hp
        have ne : p ≠ id := by
          rintro rfl
          rcases List.mem_append.1 hp with hp | hp
          · exact ((links.fresh p).1 hp).1 waiting.tracked
          · exact nodup.1 hp
        rcases List.mem_append.1 hp with hp | hp
        · exact links.unread waiting.tracked hp
        · have agrees := links.others p ne
          have before := unread p (List.mem_cons_of_mem _ hp)
          refine ⟨links.subset before.tracked, fun a => ?_, ?_⟩
          · rw [flow_agrees agrees, before.flow]
          · rw [leafCount_agrees agrees, before.leaves]
      have nodup_d : (new ++ pending).Nodup := links.nodup_append nodup.2 fun p hp =>
        (unread p (List.mem_cons_of_mem _ hp)).tracked
      -- what comes up has been untracked so far, and one object less waits
      have smaller : (h.ids \ d.ids).card + (new ++ pending).length ≤ fuel := by
        rw [List.length_append]
        rw [List.length_cons] at small
        omega
      obtain ⟨registers, coherent⟩ := ih (new ++ pending) d nodup_d unread_d smaller
      have step : expand h (fuel + 1) (c, id :: pending) = expand h fuel (d, new ++ pending) := by
        rw [expand, read]
      rw [step]
      refine ⟨.cons links registers waiting nodup.1, fun exact owed hc => ?_⟩
      exact coherent exact owed (hc.link links waiting.tracked (registers.unwrapped exact))

variable {h : Heap} {c : Counter}

theorem ids_gainRoots (c : Counter) (id : ItemId) (n : Nat) : (c.gainRoots id n).ids = c.ids :=
  ids_modifyEntry ..

theorem entry_gainRoots {id : ItemId} {n : Nat} (hid : id ∈ c.ids)
    (exact : (c.gainRoots id n).Unwrapped) (a : ItemId) : (c.gainRoots id n).entry a =
      { c.entry a with roots := (c.entry a).roots + if a = id then n else 0 } := by
  have added : c.sums.sum (c.rootCount id) n = c.rootCount id + n := Sums.sum_eq exact
  rw [rootCount_eq] at added
  change (c.modifyEntry id _).entry a = _
  rw [entry_modifyEntry _ hid]
  split
  · subst_vars
    rw [added]
  · rfl

theorem unread_insertEntry {id : ItemId} (new : id ∉ c.ids) : (c.insertEntry id).Unread id := by
  have none := (entry_insertEntry new id).trans (entry_of_not_mem new)
  refine ⟨?_, fun a => ?_, ?_⟩
  · rw [ids_insertEntry]
    exact Finset.mem_insert_self id _
  · rw [flow_eq, none, Edges.multiplicity_empty]
  · rw [leafCount, none]

theorem track_registers (closed : h.Closed) (c : Counter) (id : ItemId) :
    (id ∈ c.ids ∧ c.track h id = c ∨
        id ∉ c.ids ∧ Registers h [id] (c.insertEntry id) (c.track h id)) ∧
      ((c.track h id).Unwrapped → ∀ owed, Coherent owed c → Coherent owed (c.track h id)) := by
  by_cases hid : id ∈ c.ids
  · have same : c.track h id = c := by rw [track, if_pos (mem_ids.1 hid)]
    exact ⟨.inl ⟨hid, same⟩, fun _ _ hc => same.symm ▸ hc⟩
  · have eq : c.track h id = expand h (h.objects.size + 1) (c.insertEntry id, [id]) := by
      rw [track, if_neg fun tracked => hid (mem_ids.2 tracked)]
    obtain ⟨registers, coherent⟩ := expand_registers closed (h.objects.size + 1) [id]
      (c.insertEntry id) (List.nodup_singleton id)
      (fun p hp => (List.mem_singleton.1 hp).symm ▸ unread_insertEntry hid) (by
        have := Finset.card_le_card (Finset.sdiff_subset (s := h.ids) (t := (c.insertEntry id).ids))
        rw [h.card_ids] at this
        rw [List.length_singleton]
        omega)
    rw [← eq] at coherent registers
    refine ⟨.inr ⟨hid, registers⟩, fun exact owed hc => ?_⟩
    exact coherent exact owed (hc.insertEntry hid (registers.unwrapped exact))

theorem addOccurrence_registers (closed : h.Closed) {parent : ItemId} (hp : parent ∈ c.ids)
    {x : Item} (stored : ∀ id, x.id? = some id → id ∈ h.ids) :
    ∃ new d, Links parent [x] new c d ∧ Registers h new d (c.addOccurrence h x parent) ∧
      ((c.addOccurrence h x parent).Unwrapped → ∀ owed, Coherent owed c →
        Coherent owed (c.addOccurrence h x parent)) := by
  obtain ⟨new, d, eq, links⟩ := link_links hp x []
  rw [List.append_nil] at eq
  have read : c.addOccurrence h x parent = expand h (h.objects.size + 1) (d, new) := by
    rw [addOccurrence, if_pos (mem_ids.1 hp), eq]
  have mem_new : ∀ a ∈ new, a ∉ c.ids ∧ a ∈ h.ids := by
    intro a ha
    obtain ⟨fresh, held⟩ := (links.fresh a).1 ha
    obtain ⟨y, hy, id⟩ := occurrences_pos.1 held
    obtain rfl := List.mem_singleton.1 (Multiset.mem_coe.1 hy)
    exact ⟨fresh, stored a id⟩
  obtain ⟨registers, coherent⟩ := expand_registers closed (h.objects.size + 1) new d
    links.nodup (fun p hn => links.unread hp hn) (by
      have := links.measure fun a ha => (mem_new a ha).2
      have := Finset.card_le_card (Finset.sdiff_subset (s := h.ids) (t := c.ids))
      rw [h.card_ids] at this
      omega)
  rw [← read] at coherent registers
  refine ⟨new, d, links, registers, fun exact owed hc => ?_⟩
  exact coherent exact owed (hc.link links hp (registers.unwrapped exact))

end Counter

end LiveItems
