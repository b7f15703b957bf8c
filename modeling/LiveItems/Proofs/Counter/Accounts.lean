import LiveItems.Proofs.Counter.Mirrors
import LiveItems.Proofs.Counter.Peak
set_option autoImplicit false

namespace LiveItems.Counter

def Enlisted (c : Counter) : Prop := ∀ a ∈ c.candidates.keys, a ∈ c.ids

def Spares (contents : ItemId → Multiset Item) (c c' : Counter) : Prop :=
  ∀ a ∈ c.ids, Relation.TransGen (fun p b => 0 < occurrences b (contents p)) a a → a ∈ c'.ids

structure Accounts (strict : Prop) (S : Set ItemId) (contents : ItemId → Multiset Item)
    (roots : Multiset Item) (c : Counter) : Prop where
  coherent : Coherent (fun _ => 0) c
  mirrors : Mirrors strict ∅ [] contents roots c
  within : ∀ a ∈ c.ids, a ∈ S
  enlisted : c.Enlisted

variable {strict : Prop} {S : Set ItemId} {contents contents' : ItemId → Multiset Item}
  {roots : Multiset Item} {h : Heap} {c c' : Counter}

theorem Enlisted.registers {pending : List ItemId} (enlisted : c.Enlisted)
    (registers : Registers h pending c c') : c'.Enlisted := by
  intro a ha
  rcases (registers.candidates a).1 ha with known | ⟨-, -, referenced⟩
  · exact registers.subset (enlisted a known)
  · exact mem_ids_of_references referenced

theorem Enlisted.links {parent : ItemId} {xs : List Item} {new : List ItemId}
    (enlisted : c.Enlisted) (links : Links parent xs new c c') : c'.Enlisted := by
  intro a ha
  rcases (links.candidates a).1 ha with known | ⟨-, -, held⟩
  · exact links.subset (enlisted a known)
  · refine mem_ids_of_references ?_
    rw [links.references]
    exact Nat.add_pos_right _ held

theorem Enlisted.sheds {seeds touched : Set ItemId} {gone : Finset ItemId} (enlisted : c.Enlisted)
    (sheds : Sheds seeds touched gone c c') : c'.Enlisted := by
  intro a ha
  rcases (sheds.candidates a).1 ha with ⟨known, stays⟩ | ⟨tracked, -⟩
  · exact sheds.mem_ids.2 ⟨enlisted a known, stays⟩
  · exact tracked

theorem Enlisted.track (enlisted : c.Enlisted) (closed : h.Closed) (id : ItemId) :
    (c.track h id).Enlisted := by
  obtain ⟨⟨-, same⟩ | ⟨-, registers⟩, -⟩ := track_registers closed c id
  · rwa [same]
  · refine Enlisted.registers (fun a ha => ?_) registers
    rw [ids_insertEntry]
    exact Finset.mem_insert_of_mem (enlisted a ha)

theorem addOccurrence_untracked {parent : ItemId} (hp : parent ∉ c.ids) (x : Item) :
    c.addOccurrence h x parent = c := by
  rw [Counter.addOccurrence, if_neg fun tracked => hp (mem_ids.2 tracked)]

section Growth

variable (closed : h.Closed)
include closed

theorem track_subset (id : ItemId) : c.ids ⊆ (c.track h id).ids := by
  obtain ⟨⟨-, same⟩ | ⟨-, registers⟩, -⟩ := track_registers closed c id
  · rw [same]
  · refine Finset.Subset.trans ?_ registers.subset
    rw [ids_insertEntry]
    exact Finset.subset_insert id _

theorem addRoots_subset (x : Item) (n : Nat) : c.ids ⊆ (c.addRoots h x n).ids := by
  cases x with
  | leaf l => exact Finset.Subset.refl _
  | object k id =>
    have ids : (c.addRoots h (.object k id) n).ids = (c.track h id).ids := ids_gainRoots _ id n
    rw [ids]
    exact track_subset closed id

theorem suspect_subset (x : Item) : c.ids ⊆ (c.suspect h x).ids := by
  cases x with
  | leaf l => exact Finset.Subset.refl _
  | object k id =>
    have ids : (c.suspect h (.object k id)).ids = (c.track h id).ids := by
      rw [Counter.suspect, Item.id?]
      simp only
      split <;> rfl
    rw [ids]
    exact track_subset closed id

theorem addOccurrence_subset {x : Item} (known : ∀ id, x.id? = some id → id ∈ h.ids)
    (parent : ItemId) : c.ids ⊆ (c.addOccurrence h x parent).ids := by
  by_cases hp : parent ∈ c.ids
  · obtain ⟨new, d, links, registers, -⟩ := addOccurrence_registers closed hp known
    exact links.subset.trans registers.subset
  · rw [addOccurrence_untracked hp]

end Growth

theorem Spares.refl (contents : ItemId → Multiset Item) (c : Counter) : Spares contents c c :=
  fun _ ha _ => ha

theorem Spares.trans {d : Counter} (first : Spares contents c d) (second : Spares contents d c') :
    Spares contents c c' := fun a ha cycle => second a (first a ha cycle) cycle

theorem Spares.mono (spares : Spares contents c c') (less : ∀ p, contents' p ⊆ contents p) :
    Spares contents' c c' := by
  refine fun a ha cycle => spares a ha (Relation.TransGen.mono (fun p b edge => ?_) _ _ cycle)
  obtain ⟨x, hx, hid⟩ := occurrences_pos.1 edge
  exact occurrences_pos.2 ⟨x, less p hx, hid⟩

theorem Spares.of_subset (subset : c.ids ⊆ c'.ids) : Spares contents c c' :=
  fun _ ha _ => subset ha

/-- Every object on a cycle is held by another one there, so none of them is the first to go. -/
theorem Mirrors.spares {extra : Set ItemId} {touched : Set ItemId} {gone : Finset ItemId}
    {owed : ItemId → Nat} (m : Mirrors strict extra [] contents roots c) (hc : Coherent owed c)
    (sheds : Sheds ∅ touched gone c c') : Spares contents c c' := by
  intro a ha cycle
  have flow : ∀ p ∈ c.ids, ∀ b, c.flow p b = occurrences b (contents p) :=
    fun p hp b => m.flow p hp (by simp) b
  refine sheds.mem_ids.2 ⟨ha, fun hg => ?_⟩
  -- the objects between two visits of `a`
  let K : Set ItemId := {x | Relation.ReflTransGen (fun p b => 0 < occurrences b (contents p)) a x ∧
    Relation.ReflTransGen (fun p b => 0 < occurrences b (contents p)) x a}
  have tracked : ∀ x ∈ K, x ∈ c.ids := by
    rintro x ⟨path, -⟩
    induction path with
    | refl => exact ha
    | @tail p b _ edge ih => exact hc.closed ((flow p ih b).symm ▸ edge)
  have pred : ∀ x ∈ K, ∃ p ∈ K, 0 < c.flow p x := by
    rintro x ⟨there, back⟩
    obtain ⟨p, before, edge⟩ := Relation.TransGen.tail'_iff.1 (cycle.trans_left there)
    have hp : p ∈ K := ⟨before, .head edge back⟩
    exact ⟨p, hp, (flow p (tracked p hp) x).symm ▸ edge⟩
  refine sheds.least {x | x ∉ K} (Set.empty_subset _) (fun x _ _ _ preds hx => ?_) a hg
    ⟨.refl, .refl⟩
  obtain ⟨p, hp, edge⟩ := pred x hx
  exact preds p edge hp

theorem ids_fresh : fresh.ids = ∅ := by
  ext a
  simp [mem_ids_iff]

theorem accounts_fresh (strict : Prop) (S : Set ItemId) (contents : ItemId → Multiset Item) :
    Accounts strict S contents 0 fresh := by
  have none : ∀ a, a ∉ fresh.ids := by simp [ids_fresh]
  have entry : ∀ a, fresh.entry a = {} := fun a => entry_of_not_mem (none a)
  refine ⟨⟨fun p a ha => ?_, fun a => ?_, ?_⟩, ⟨fun p hp => absurd hp (none p),
    fun p hp => absurd hp (none p), fun a => ?_, ?_, fun a ha => absurd ha (none a),
    fun _ a ha => absurd ha (none a)⟩, fun a ha => absurd ha (none a), fun a ha => ?_⟩
  · rw [edges_eq, entry] at ha
    simp at ha
  · rw [referenceCount_eq, entry, inflow, ids_fresh]
    rfl
  · rw [weight, ids_fresh]
    rfl
  · rw [rootCount_eq, entry, occurrences_zero]
  · rw [weight, ids_fresh]
    rfl
  · exact absurd ha List.not_mem_nil

theorem Accounts.congr {S' : Set ItemId} (acc : Accounts strict S contents roots c)
    (same : ∀ p ∈ c.ids, contents p = contents' p) (within : ∀ a ∈ c.ids, a ∈ S') :
    Accounts strict S' contents' roots c := by
  obtain ⟨hc, m, -, enlisted⟩ := acc
  refine ⟨hc, ⟨fun p hp hw a => ?_, fun p hp hw => ?_, m.rooted, m.count, m.covered, m.firm⟩,
    within, enlisted⟩
  · rw [← same p hp]
    exact m.flow p hp hw a
  · rw [← same p hp]
    exact m.leaves p hp hw

theorem Accounts.update_untracked {id : ItemId} {held : Multiset Item} (rest : Multiset Item)
    (acc : Accounts strict S (Function.update contents id held) roots c) (out : id ∉ c.ids) :
    Accounts strict S (Function.update contents id rest) roots c := by
  refine acc.congr (fun p hp => ?_) acc.within
  have ne : p ≠ id := by
    rintro rfl
    exact out hp
  rw [Function.update_of_ne ne, Function.update_of_ne ne]

theorem Accounts.resetPeak (acc : Accounts strict S contents roots c) :
    Accounts strict S contents roots c.resetPeak := by
  obtain ⟨hc, m, within, enlisted⟩ := acc
  exact ⟨hc.congr rfl rfl, ⟨m.flow, m.leaves, m.rooted, m.count, m.covered, m.firm⟩, within,
    enlisted⟩

theorem Mirrors.mono {extra extra' : Set ItemId} (m : Mirrors strict extra [] contents roots c)
    (sub : extra ⊆ extra') : Mirrors strict extra' [] contents roots c := by
  refine ⟨m.flow, m.leaves, m.rooted, m.count, fun a ha => ?_, fun hs a ha he => ?_⟩
  · obtain ⟨r, source, path⟩ := m.covered a ha
    exact ⟨r, source.imp_right (Or.imp_right fun hr => sub hr), path⟩
  · exact m.firm hs a ha fun h => he (sub h)

theorem unwrapped_of_suspect {k : ObjectKind} {id : ItemId} :
    (c.suspect h (.object k id)).Unwrapped → (c.track h id).Unwrapped := by
  rw [Counter.suspect, Item.id?]
  simp only
  split <;> exact fun exact => exact

/-- Registration stays among objects that hold each other. -/
theorem Mirrors.within {extra : Set ItemId} {pending : List ItemId} {d : Counter}
    (m : Mirrors strict extra [] contents roots d) (registers : Registers h pending c d)
    (tracked : ∀ a ∈ c.ids, a ∈ S) (waiting : ∀ p ∈ pending, p ∈ c.ids)
    (inside : ∀ p ∈ S, ∀ a, 0 < occurrences a (contents p) → a ∈ S) : ∀ a ∈ d.ids, a ∈ S := by
  intro a ha
  by_cases old : a ∈ c.ids
  · exact tracked a old
  · refine registers.least S (fun p hp => tracked p (waiting p hp)) (fun p hp b edge => ?_) a ha old
    rw [m.flow p (mem_ids_of_flow edge) (by simp)] at edge
    exact inside p hp b edge

section Register

variable (acc : Accounts strict S contents roots c) (closed : h.Closed)
  (stored : ∀ p, p ∉ c.ids → contents p = h.children p)
include acc closed stored

theorem Accounts.track (inside : ∀ p ∈ S, ∀ a, 0 < occurrences a (contents p) → a ∈ S)
    {id : ItemId} (hid : id ∈ S) (exact : (c.track h id).Unwrapped) :
    Coherent (fun _ => 0) (c.track h id) ∧
      Mirrors strict {id} [] contents roots (c.track h id) ∧ id ∈ (c.track h id).ids ∧
      ∀ a ∈ (c.track h id).ids, a ∈ S := by
  obtain ⟨⟨old, same⟩ | ⟨new, registers⟩, coherent⟩ := track_registers closed c id
  · rw [same]
    exact ⟨acc.coherent, acc.mirrors.mono (Set.empty_subset _), old, acc.within⟩
  · have entered : id ∈ (c.insertEntry id).ids := by
      rw [ids_insertEntry]
      exact Finset.mem_insert_self id _
    have waiting : ∀ p ∈ [id], p ∈ (c.insertEntry id).ids := fun p hp =>
      (List.mem_singleton.1 hp).symm ▸ entered
    have begun := acc.mirrors.insertEntry new (registers.unwrapped exact)
    have mirrors := begun.registers registers exact waiting fun p hp => by
      rw [ids_insertEntry, Finset.mem_insert, not_or, List.mem_singleton] at hp
      exact stored p (hp.elim (fun hp => hp.2) fun e => e ▸ new)
    refine ⟨coherent exact _ acc.coherent, mirrors, registers.subset entered,
      mirrors.within registers (fun a ha => ?_) waiting inside⟩
    rw [ids_insertEntry] at ha
    rcases Finset.mem_insert.1 ha with rfl | ha
    · exact hid
    · exact acc.within a ha

theorem Accounts.addRoots (inside : ∀ p ∈ S, ∀ a, 0 < occurrences a (contents p) → a ∈ S)
    {x : Item} (hx : ∀ id, x.id? = some id → id ∈ S) {n : Nat} (hn : n ≠ 0)
    (exact : (c.addRoots h x n).Unwrapped) :
    Accounts strict S contents (Multiset.replicate n x + roots) (c.addRoots h x n) := by
  cases x with
  | leaf l =>
    change Accounts strict S contents _ (c.increase n)
    have counted : (c.increase n).count = c.count + n := count_increase exact
    obtain ⟨hc, m, within, enlisted⟩ := acc
    refine ⟨hc.of_edges rfl (fun _ => rfl) (fun _ => rfl) ?_, ⟨m.flow, m.leaves, fun a => ?_, ?_,
      m.covered, m.firm⟩, within, enlisted⟩
    · have := hc.weight_le
      rw [counted]
      change c.weight ≤ c.count + n
      omega
    · rw [occurrences_add, occurrences_replicate, if_neg (by simp [Item.id?]), Nat.zero_add]
      exact m.rooted a
    · rw [leafOccurrences_add, leafOccurrences_replicate, Item.id?, if_pos rfl]
      have := m.count
      rw [counted]
      change c.count + n = c.weight + _
      omega
  | object k id =>
    have rooted : ((c.track h id).gainRoots id n).Unwrapped := exact
    obtain ⟨coherent, mirrors, tracked, within⟩ :=
      acc.track closed stored inside (hx id rfl) ((grows_gainRoots _ id n).unwrapped rooted)
    have ids : (c.addRoots h (.object k id) n).ids = (c.track h id).ids := ids_gainRoots _ id n
    have entry := entry_gainRoots tracked rooted
    have gained := mirrors.gainRoots (k := k) hn (fun a ha => ha) tracked rooted
    refine ⟨coherent.of_edges ids (fun a => ?_) (fun a => ?_) ?_, gained,
      fun a ha => within a (ids ▸ ha), fun a ha => ?_⟩
    · change (((c.track h id).gainRoots id n).entry a).edges = _
      rw [entry]
    · change (((c.track h id).gainRoots id n).entry a).references = _
      rw [entry]
    · have := gained.count
      change (((c.track h id).gainRoots id n).dropCandidate id).weight ≤
        (((c.track h id).gainRoots id n).dropCandidate id).count
      omega
    · rw [ids]
      have known := (mem_candidates_dropCandidate _ id a).1 ha
      exact acc.enlisted.track closed id a known.1

theorem Accounts.suspect (inside : ∀ p ∈ S, ∀ a, 0 < occurrences a (contents p) → a ∈ S)
    {x : Item} (hx : ∀ id, x.id? = some id → id ∈ S) (lax : ¬strict)
    (exact : (c.suspect h x).Unwrapped) :
    Accounts strict S contents roots (c.suspect h x) := by
  cases x with
  | leaf l => exact acc
  | object k id =>
    obtain ⟨coherent, m, tracked, within⟩ :=
      acc.track closed stored inside (hx id rfl) (unwrapped_of_suspect (k := k) exact)
    have step : c.suspect h (.object k id) =
      if (c.track h id).rootCount id = 0 then (c.track h id).addCandidate id
      else c.track h id := rfl
    have enlisted := acc.enlisted.track closed id
    rw [step]
    split
    · refine ⟨coherent.addCandidate id, ⟨m.flow, m.leaves, m.rooted, m.count, fun a ha => ?_,
        fun hs => absurd hs lax⟩, within, fun a ha => ?_⟩
      · obtain ⟨r, source, path⟩ := m.covered a ha
        refine ⟨r, ?_, path⟩
        rw [mem_candidates_addCandidate]
        rcases source with rooted | known | rfl
        · exact .inl rooted
        · exact .inr (.inl (.inr known))
        · exact .inr (.inl (.inl rfl))
      · rcases (mem_candidates_addCandidate _ id a).1 ha with rfl | known
        · exact tracked
        · exact enlisted a known
    · rename_i rooted
      refine ⟨coherent, ⟨m.flow, m.leaves, m.rooted, m.count, fun a ha => ?_,
        fun hs => absurd hs lax⟩, within, enlisted⟩
      obtain ⟨r, source | known | rfl, path⟩ := m.covered a ha
      · exact ⟨r, .inl source, path⟩
      · exact ⟨r, .inr (.inl known), path⟩
      · exact ⟨r, .inl (Nat.pos_of_ne_zero rooted), path⟩

theorem Accounts.addOccurrence {x : Item} (known : ∀ id, x.id? = some id → id ∈ h.ids)
    {parent : ItemId} (hp : parent ∈ c.ids)
    (inside : ∀ p ∈ S, ∀ a,
      0 < occurrences a (Function.update contents parent (x ::ₘ contents parent) p) → a ∈ S)
    (exact : (c.addOccurrence h x parent).Unwrapped) :
    Accounts strict S (Function.update contents parent (x ::ₘ contents parent)) roots
      (c.addOccurrence h x parent) := by
  obtain ⟨new, d, links, registers, coherent⟩ := addOccurrence_registers closed hp known
  have fresh : ∀ p ∈ new, p ∉ c.ids := fun p hn => ((links.fresh p).1 hn).1
  have waiting : ∀ p ∈ new, p ∈ d.ids := fun p hn => (links.unread hp hn).tracked
  have linked := acc.mirrors.link links hp (registers.unwrapped exact)
  have mirrors := linked.registers registers exact waiting fun p hn => by
    have out : p ∉ c.ids := hn.elim (fun hd hc => hd (links.subset hc)) (fresh p)
    have ne : p ≠ parent := by
      rintro rfl
      exact out hp
    rw [Function.update_of_ne ne]
    exact stored p out
  refine ⟨coherent exact _ acc.coherent, mirrors,
    mirrors.within registers (fun a ha => ?_) waiting inside,
    (acc.enlisted.links links).registers registers⟩
  rw [links.mem_ids] at ha
  rcases ha with ha | ha
  · exact acc.within a ha
  · refine inside parent (acc.within parent hp) a ?_
    rw [Function.update_self, ← Multiset.singleton_add, occurrences_add]
    have : 0 < occurrences a ([x] : List Item) := ((links.fresh a).1 ha).2
    exact Nat.lt_of_lt_of_le this (Nat.le_add_right _ _)

end Register

theorem Accounts.removeRoot {x : Item} (acc : Accounts strict S contents (x ::ₘ roots) c) :
    ∃ c', (removeRoot x).apply c = (.ok (), c') ∧ Accounts strict S contents roots c' ∧
      Spares contents c c' := by
  obtain ⟨hc, m, within, enlisted⟩ := acc
  cases x with
  | leaf l =>
    have count := m.count
    rw [leafOccurrences_cons_leaf] at count
    refine ⟨{ c with count := c.count - 1 }, ?_, ⟨hc.of_edges rfl (fun _ => rfl) (fun _ => rfl) ?_,
      ⟨m.flow, m.leaves, fun a => ?_, ?_, m.covered, m.firm⟩, within, enlisted⟩,
      .of_subset (Finset.Subset.refl _)⟩
    · have enough : ¬c.count < 1 := by omega
      simp only [Counter.removeRoot, Item.id?, apply_decrease, if_neg enough]
    · change c.weight ≤ c.count - 1
      omega
    · rw [← occurrences_cons_leaf a l]
      exact m.rooted a
    · change c.count - 1 = c.weight + _
      omega
  | object k id =>
    have rooted := m.rooted id
    rw [occurrences_cons_object, if_pos rfl] at rooted
    have positive : 0 < c.rootCount id := by omega
    obtain ⟨gone, c', run, coherent, sheds, held⟩ := removeRoot_sheds (k := k) hc positive
    have dropped : (c.dropRoot id).ids = c.ids := by
      rw [dropRoot, ids_setEntry, Finset.insert_eq_of_mem (mem_ids_of_roots (by omega))]
    have sub : c'.ids ⊆ c.ids := fun a ha => dropped ▸ (sheds.mem_ids.1 ha).1
    have listed : (c.dropRoot id).Enlisted := fun a ha => dropped.symm ▸ enlisted a ha
    refine ⟨c', run, ⟨coherent, m.dropRoot.sheds sheds (fun a ha => ha) ?_,
      fun a ha => within a (sub ha), listed.sheds sheds⟩, fun a ha => ?_⟩
    · rintro a rfl
      exact held
    · exact m.dropRoot.spares (hc.dropRoot (mem_ids_of_roots positive)) sheds a (dropped ▸ ha)

theorem Accounts.removeOccurrence {x : Item} {rest : Multiset Item} {p : ItemId}
    (acc : Accounts strict S contents roots c) (hp : p ∈ c.ids) (held : contents p = x ::ₘ rest) :
    ∃ c', (removeOccurrence x p).apply c = (.ok (), c') ∧
      Accounts strict S (Function.update contents p rest) roots c' ∧
      Spares (Function.update contents p rest) c c' := by
  obtain ⟨hc, m, within, enlisted⟩ := acc
  cases x with
  | leaf l =>
    have leaves := m.leaves p hp (by simp)
    rw [held, leafOccurrences_cons_leaf] at leaves
    have some_left : 0 < c.leafCount p := by omega
    have ids : (c.dropLeaf p).ids = c.ids := by
      change (c.setEntry p _).ids = c.ids
      rw [ids_setEntry, Finset.insert_eq_of_mem hp]
    exact ⟨c.dropLeaf p, removeOccurrence_leaf hc some_left,
      ⟨hc.dropLeaf some_left, m.dropLeaf hp held, fun a ha => within a (ids ▸ ha),
        fun a ha => ids.symm ▸ enlisted a ha⟩, .of_subset (Finset.subset_of_eq ids.symm)⟩
  | object k id =>
    have flow := m.flow p hp (by simp) id
    rw [held, occurrences_cons_object, if_pos rfl] at flow
    have edge : 0 < c.flow p id := by omega
    obtain ⟨gone, c', run, coherent, sheds⟩ := removeOccurrence_sheds (k := k) hc edge
    have dropped : (c.dropEdge p id).ids = c.ids := by
      rw [dropEdge, ids_setEntry, Finset.insert_eq_of_mem hp]
    have sub : c'.ids ⊆ c.ids := fun a ha => dropped ▸ (sheds.mem_ids.1 ha).1
    have listed : (c.dropEdge p id).Enlisted := fun a ha => dropped.symm ▸ enlisted a ha
    refine ⟨c', run, ⟨coherent, (m.dropEdge hp held).sheds sheds (fun a ha => ha) ?_,
      fun a ha => within a (sub ha), listed.sheds sheds⟩, fun a ha =>
      (m.dropEdge hp held).spares (hc.dropEdge edge) sheds a (dropped ▸ ha)⟩
    rintro a rfl ha h0 loose
    have before := sheds.held a ha h0 loose
    have same : (c.dropEdge p a).referenceCount a = c.referenceCount a := by
      rw [referenceCount_eq, referenceCount_eq, dropEdge, entry_setEntry]
      split <;> subst_vars <;> rfl
    have references := hc.references a
    have le := flow_le_inflow c p a
    omega

theorem Accounts.sweep (acc : Accounts strict S contents roots c) :
    ∃ c' collected, Pass.sweep.apply { counter := c } = (.ok (), { counter := c', collected }) ∧
      Accounts strict S contents roots c' ∧ Pass.Swept c collected c' := by
  obtain ⟨c', collected, run, swept⟩ := Pass.sweep_swept acc.coherent acc.mirrors.covered
  exact ⟨c', collected, run, ⟨swept.coherent, acc.mirrors.swept swept,
    fun a ha => acc.within a ((swept.ids a).1 ha).1,
    fun a ha => absurd ha (Pass.isEmpty_iff.1 swept.candidates a)⟩, swept⟩

end LiveItems.Counter
