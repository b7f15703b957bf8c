import LiveItems.Proofs.Accounting
import LiveItems.Proofs.Counter.Rooting
import LiveItems.Proofs.Reachability
set_option autoImplicit false

/-!
# Registration reads what is new

With an object, each untracked object gets an entry that storage leads to from there by way of
untracked objects, and no other. The storage of each of them is read once, also when it leads in
circles, and the loop comes to its end by itself, so its fuel is never what stops it. What has been
tracked before gains the references that come from there, and nothing else in its entry changes.
The main statement is `Yields.registration_exact`.
-/

namespace LiveItems

/-- The entry records the items, occurrence by occurrence, and has no zero edges. -/
structure Entry.Records (e : Entry) (xs : Multiset Item) : Prop where
  edges : ∀ a, e.edges.get? a = if occurrences a xs = 0 then none else some (occurrences a xs)
  leaves : e.leaves = leafOccurrences xs

namespace Counter

variable {h : Heap} {c d e : Counter} {id a : ItemId} {pending order : List ItemId}

/-- The storage of what waits is read, the first object first, and what gets an entry meanwhile
waits before the others. The objects whose storage is read are in `order`, however many there
are. -/
inductive Expands (h : Heap) : List ItemId → Counter → List ItemId → Counter → Prop where
  | done (c : Counter) : Expands h [] c [] c
  | scan {id : ItemId} {pending pending' order : List ItemId} {c d e : Counter}
    (read : scan h id (c, pending) = (d, pending')) (rest : Expands h pending' d order e) :
    Expands h (id :: pending) c (id :: order) e

/-- As much fuel as objects wait or are untracked in the heap is enough, since each round has one of
them less. -/
theorem expand_expands (closed : h.Closed) (fuel : Nat) :
    ∀ (pending : List ItemId) (c : Counter), (∀ p ∈ pending, p ∈ c.ids) →
      (h.ids \ c.ids).card + pending.length ≤ fuel →
      ∃ order, Expands h pending c order (expand h fuel (c, pending)) := by
  induction fuel with
  | zero =>
    intro pending c _ enough
    obtain rfl : pending = [] := List.length_eq_zero_iff.1 (by omega)
    exact ⟨[], .done c⟩
  | succ fuel ih =>
    intro pending c tracked enough
    cases pending with
    | nil => exact ⟨[], .done c⟩
    | cons id pending =>
      obtain ⟨new, d, read, links, fewer⟩ :=
        scan_links closed (tracked id List.mem_cons_self) pending
      have entered : ∀ p ∈ new ++ pending, p ∈ d.ids :=
        links.waiting fun p hp => tracked p (List.mem_cons_of_mem id hp)
      have smaller : (h.ids \ d.ids).card + (new ++ pending).length ≤ fuel := by
        rw [List.length_append]
        rw [List.length_cons] at enough
        omega
      obtain ⟨order, others⟩ := ih (new ++ pending) d entered smaller
      refine ⟨id :: order, .scan read ?_⟩
      rw [expand, read]
      exact others

/-- Read is what has been waiting and what gets an entry, and each of these once. -/
theorem Expands.distinct (expands : Expands h pending c order e) (nodup : pending.Nodup)
    (tracked : ∀ p ∈ pending, p ∈ c.ids) :
    order.Nodup ∧ c.ids ⊆ e.ids ∧ ∀ a, a ∈ order ↔ a ∈ pending ∨ a ∈ e.ids ∧ a ∉ c.ids := by
  induction expands with
  | done c => exact ⟨nodup, Finset.Subset.refl _, by simp⟩
  | @scan id pending pending' order c d e read rest ih =>
    have here := tracked id List.mem_cons_self
    obtain ⟨new, d', eq, links⟩ := foldl_links (h.children id) c pending here
    obtain ⟨rfl, rfl⟩ := Prod.mk.inj (eq.symm.trans read)
    have known : ∀ p ∈ pending, p ∈ c.ids := fun p hp => tracked p (List.mem_cons_of_mem id hp)
    have fresh : ∀ a ∈ new, a ∉ c.ids := fun a ha => ((links.fresh a).1 ha).1
    obtain ⟨once, grown, read_iff⟩ :=
      ih (links.nodup_append (List.nodup_cons.1 nodup).2 known) (links.waiting known)
    refine ⟨List.nodup_cons.2 ⟨fun again => ?_, once⟩, links.subset.trans grown, fun a => ?_⟩
    · -- the object has an entry already and does not wait a second time
      rcases (read_iff id).1 again with waits | ⟨-, new⟩
      · rcases List.mem_append.1 waits with waits | waits
        · exact fresh id waits here
        · exact (List.nodup_cons.1 nodup).1 waits
      · exact new (links.mem_ids.2 (.inl here))
    · rw [List.mem_cons, read_iff, List.mem_append, List.mem_cons, links.mem_ids]
      by_cases ha : a ∈ new
      · have entered : a ∈ e.ids := grown (links.mem_ids.2 (.inr ha))
        simp only [ha, entered, fresh a ha, true_or, or_true, not_false_eq_true, and_true]
      · simp only [ha, false_or, or_false, or_assoc]

/-- Untracked, and reachable through storage from `id` by way of untracked objects. -/
def Uncovers (c : Counter) (h : Heap) (id a : ItemId) : Prop :=
  c.isTracked a = false ∧
    Relation.ReflTransGen (fun p b => c.isTracked p = false ∧ h.Stores p b) id a

/-- The counter `d` is `c` with an entry for each object in `new`, made from what is stored there.
What `c` tracks keeps its entry but for the references from the new ones, and what has got its first
reference and has no root is a candidate. -/
structure Enters (h : Heap) (new : List ItemId) (c d : Counter) : Prop where
  tracked : ∀ a, d.isTracked a = true ↔ c.isTracked a = true ∨ a ∈ new
  entered : ∀ a ∈ new, ∃ e, d.get? a = some e ∧ e.Records (h.children a) ∧ e.roots = 0 ∧
    e.references = (new.map fun p => occurrences a (h.children p)).sum
  kept : ∀ a e, c.get? a = some e → d.get? a = some
    { e with references := e.references + (new.map fun p => occurrences a (h.children p)).sum }
  candidates : ∀ a, a ∈ d.candidates.keys ↔ a ∈ c.candidates.keys ∨
    (c.referenceCount a = 0 ∧ d.referenceCount a ≠ 0 ∧ c.rootCount a = 0)
  count : d.count = c.count + (new.length + (new.map fun a => leafOccurrences (h.children a)).sum)
  peak : d.peak = max c.peak d.count
  stats : d.stats = c.stats

theorem Coherent.records {owed : ItemId → Nat} {p : ItemId} {xs : Multiset Item}
    (hc : Coherent owed c) (flow : ∀ a, c.flow p a = occurrences a xs)
    (leaves : c.leafCount p = leafOccurrences xs) : (c.entry p).Records xs := by
  refine ⟨fun a => ?_, leaves⟩
  rw [← flow a, flow_eq]
  refine Edges.get?_eq (fun b key => ?_) a
  rw [← flow_eq]
  exact hc.positive p b (edges_eq c p ▸ key)

theorem fresh_or_first {p : ItemId} (fresh : p ∉ c.ids) :
    p ∉ (c.insertEntry id).ids ∨ p ∈ [id] := by
  rw [ids_insertEntry, Finset.mem_insert, List.mem_singleton]
  tauto

section Track

variable (registers : Registers h [id] (c.insertEntry id) d)
include registers

theorem Registers.insert_subset : insert id c.ids ⊆ d.ids := by
  rw [← ids_insertEntry]
  exact registers.subset

theorem Registers.ids_subset : c.ids ⊆ d.ids :=
  (Finset.subset_insert id _).trans registers.insert_subset

theorem Registers.agrees (new : id ∉ c.ids) {p : ItemId} (hp : p ∈ c.ids) :
    (c.entry p).Agrees (d.entry p) := by
  have known : p ∈ (c.insertEntry id).ids := by
    rw [ids_insertEntry]
    exact Finset.mem_insert_of_mem hp
  have agrees := registers.others p known fun waits => new (List.mem_singleton.1 waits ▸ hp)
  rwa [entry_insertEntry new] at agrees

theorem Registers.flow_new {p : ItemId} (hp : p ∈ d.ids) (fresh : p ∉ c.ids) (a : ItemId) :
    d.flow p a = occurrences a (h.children p) :=
  registers.flow p hp (fresh_or_first fresh) a

theorem Registers.leaves_new {p : ItemId} (hp : p ∈ d.ids) (fresh : p ∉ c.ids) :
    d.leafCount p = leafOccurrences (h.children p) :=
  registers.leaves p hp (fresh_or_first fresh)

/-- From an untracked object, registration goes where storage leads to, up to what is tracked. -/
theorem Registers.uncovers (new : id ∉ c.ids) (hc : Coherent (fun _ => 0) c)
    (hd : Coherent (fun _ => 0) d) : a ∈ d.ids ∧ a ∉ c.ids ↔ c.Uncovers h id a := by
  have untracked : ∀ p, c.isTracked p = false ↔ p ∉ c.ids := fun p => by
    rw [Counter.mem_ids, Bool.not_eq_true]
  constructor
  · rintro ⟨tracked, fresh⟩
    refine ⟨(untracked a).2 fresh, ?_⟩
    by_cases first : a = id
    · exact first ▸ .refl
    -- what is tracked already leads nowhere else, so no way comes back from there
    let S : Set ItemId := {b | b ∈ c.ids ∨
      Relation.ReflTransGen (fun p b => c.isTracked p = false ∧ h.Stores p b) id b}
    refine (registers.least S (fun b hb => ?_) (fun p hp b edge => ?_) a tracked ?_).resolve_left
      fresh
    · exact .inr (List.mem_singleton.1 hb ▸ .refl)
    · by_cases old : p ∈ c.ids
      · rw [flow_agrees (registers.agrees new old)] at edge
        exact .inl (hc.closed edge)
      · have path := hp.resolve_left old
        rw [registers.flow_new (mem_ids_of_flow edge) old, ← Heap.stores_iff] at edge
        exact .inr (path.tail ⟨(untracked p).2 old, edge⟩)
    · rw [ids_insertEntry, Finset.mem_insert, not_or]
      exact ⟨first, fresh⟩
  · rintro ⟨fresh, path⟩
    refine ⟨?_, (untracked a).1 fresh⟩
    clear fresh
    induction path with
    | refl => exact registers.insert_subset (Finset.mem_insert_self id _)
    | @tail p b _ edge ih =>
      refine hd.closed (p := p) ?_
      rw [registers.flow_new ih ((untracked p).1 edge.1), ← Heap.stores_iff]
      exact edge.2

theorem Registers.sum_ids (distinct : order.Nodup) (mem : ∀ a, a ∈ order ↔ a ∈ d.ids ∧ a ∉ c.ids)
    (f : ItemId → Nat) : ∑ p ∈ d.ids, f p = ∑ p ∈ c.ids, f p + (order.map f).sum := by
  have apart : d.ids \ c.ids = order.toFinset := by
    ext a
    rw [Finset.mem_sdiff, List.mem_toFinset, mem]
  rw [← Finset.sum_sdiff registers.ids_subset, apart, List.sum_toFinset _ distinct, Nat.add_comm]

section Sums

variable (new : id ∉ c.ids) (distinct : order.Nodup)
  (mem : ∀ a, a ∈ order ↔ a ∈ d.ids ∧ a ∉ c.ids)
include new distinct mem

theorem Registers.references_new (hc : Coherent (fun _ => 0) c) (hd : Coherent (fun _ => 0) d)
    (a : ItemId) : d.referenceCount a =
      c.referenceCount a + (order.map fun p => occurrences a (h.children p)).sum := by
  have old : ∑ p ∈ c.ids, d.flow p a = c.inflow a :=
    Finset.sum_congr rfl fun p hp => flow_agrees (registers.agrees new hp) a
  have fresh : (order.map fun p => d.flow p a) = order.map fun p => occurrences a (h.children p) :=
    List.map_congr_left fun p hp =>
      registers.flow_new ((mem p).1 hp).1 ((mem p).1 hp).2 a
  rw [hd.references, hc.references, inflow, registers.sum_ids distinct mem, old, fresh]
  rfl

theorem Registers.count_new (exact : d.Unwrapped) : d.count =
    c.count + (order.length + (order.map fun p => leafOccurrences (h.children p)).sum) := by
  have old : ∑ p ∈ c.ids, (1 + d.leafCount p) = c.weight :=
    Finset.sum_congr rfl fun p hp => by rw [leafCount_agrees (registers.agrees new hp)]
  have fresh : (order.map fun p => 1 + d.leafCount p) =
      order.map fun p => 1 + leafOccurrences (h.children p) :=
    List.map_congr_left fun p hp => by
      rw [registers.leaves_new ((mem p).1 hp).1 ((mem p).1 hp).2]
  have ones : (order.map fun _ => 1).sum = order.length := by simp
  have weight : d.weight =
      c.weight + (order.length + (order.map fun p => leafOccurrences (h.children p)).sum) := by
    rw [Counter.weight, registers.sum_ids distinct mem, old, fresh, List.sum_map_add, ones]
  have one : (c.insertEntry id).count = c.count + 1 := count_increase (registers.unwrapped exact)
  have both := registers.weight exact
  rw [weight_insertEntry new, weight, one] at both
  omega

theorem Registers.enters (hc : Coherent (fun _ => 0) c) (hd : Coherent (fun _ => 0) d)
    (exact : d.Unwrapped) : Enters h order c d := by
  have references := registers.references_new new distinct mem hc hd
  have roots : ∀ a, d.rootCount a = c.rootCount a := fun a => by
    rw [registers.roots, rootCount_insertEntry new]
  have counted := registers.count_new new distinct mem exact
  exact {
    tracked := fun a => by
      rw [← Counter.mem_ids, ← Counter.mem_ids, mem]
      have known : a ∈ c.ids → a ∈ d.ids := fun ha => registers.ids_subset ha
      tauto
    entered := fun p hp => by
      obtain ⟨tracked, fresh⟩ := (mem p).1 hp
      have none := entry_of_not_mem fresh
      refine ⟨d.entry p, get?_of_mem tracked, hd.records (registers.flow_new tracked fresh)
        (registers.leaves_new tracked fresh), ?_, ?_⟩
      · rw [← rootCount_eq, roots, rootCount_eq, none]
      · rw [← referenceCount_eq, references, referenceCount_eq, none]
        exact Nat.zero_add _
    kept := fun a e found => by
      have tracked := registers.ids_subset (mem_ids_of_get? found)
      have agrees := registers.agrees new (mem_ids_of_get? found)
      have grown := references a
      rw [entry_of_get? found] at agrees
      rw [referenceCount_eq, referenceCount_eq, entry_of_get? found] at grown
      rw [get?_of_mem tracked, ← grown, ← agrees.roots, ← agrees.edges, ← agrees.leaves]
    candidates := fun a => by
      rw [registers.candidates, referenceCount_insertEntry new, rootCount_insertEntry new,
        Nat.pos_iff_ne_zero]
      exact or_congr_right (and_congr_right fun _ => and_comm)
    count := counted
    peak := by
      have one : (c.insertEntry id).count = c.count + 1 :=
        count_increase (registers.unwrapped exact)
      have least := registers.count exact
      have through := registers.highest exact d.count le_rfl
      change max d.highest d.count = max (max c.highest (c.insertEntry id).count) d.count at through
      rw [one] at least through
      change max d.highest d.count = max (max c.highest c.count) d.count
      omega
    stats := registers.stats }

end Sums

end Track

theorem track_enters (closed : h.Closed) (hc : Coherent (fun _ => 0) c) (small : c.sums = .small)
    (new : id ∉ c.ids) :
    ∃ order, Expands h [id] (c.insertEntry id) order (c.track h id) ∧ order.Nodup ∧
      (∀ a, a ∈ order ↔ c.Uncovers h id a) ∧ Enters h order c (c.track h id) := by
  obtain ⟨⟨old, -⟩ | ⟨-, registers⟩, coherent⟩ := track_registers closed c id
  · exact absurd old new
  have exact : (c.track h id).Unwrapped := (grows_track h id c).unwrapped_of_small small
  have hd := coherent exact _ hc
  have entered : ∀ p ∈ [id], p ∈ (c.insertEntry id).ids := fun p hp => by
    rw [ids_insertEntry, List.mem_singleton.1 hp]
    exact Finset.mem_insert_self id _
  have enough : (h.ids \ (c.insertEntry id).ids).card + [id].length ≤ h.objects.size + 1 := by
    have := Finset.card_le_card (Finset.sdiff_subset (s := h.ids) (t := (c.insertEntry id).ids))
    rw [h.card_ids] at this
    exact Nat.succ_le_succ this
  obtain ⟨order, expands⟩ :=
    expand_expands closed (h.objects.size + 1) [id] (c.insertEntry id) entered enough
  have run : expand h (h.objects.size + 1) (c.insertEntry id, [id]) = c.track h id := by
    rw [track, if_neg fun tracked => new (mem_ids.2 tracked)]
  rw [run] at expands
  obtain ⟨distinct, -, read⟩ := expands.distinct (List.nodup_singleton id) entered
  have mem : ∀ a, a ∈ order ↔ a ∈ (c.track h id).ids ∧ a ∉ c.ids := by
    intro a
    have first : a = id → a ∈ (c.track h id).ids ∧ a ∉ c.ids := by
      rintro rfl
      exact ⟨registers.insert_subset (Finset.mem_insert_self a _), new⟩
    rw [read, List.mem_singleton, ids_insertEntry, Finset.mem_insert]
    tauto
  exact ⟨order, expands, distinct, fun a => (mem a).trans (registers.uncovers new hc hd),
    registers.enters new distinct mem hc hd exact⟩

end Counter

namespace Session

variable {suspects : Prop} {m : Memory} {roots : CounterId → Multiset Item} {c : CounterId}
  {id : ItemId}

/-- In every state of a balanced run, registering an object that the counter does not track comes to
its end. The storage of each untracked object to which storage leads by way of such objects is read
once, and an entry is made from it. -/
theorem Yields.registration_exact (yields : Yields suspects m roots) (hc : c < m.counters.length)
    (untracked : (m.counter c).isTracked id = false) :
    ∃ new, Counter.Expands m.heap [id] ((m.counter c).insertEntry id) new
        ((m.counter c).track m.heap id) ∧ new.Nodup ∧
      (∀ a, a ∈ new ↔ (m.counter c).Uncovers m.heap id a) ∧
      Counter.Enters m.heap new (m.counter c) ((m.counter c).track m.heap id) := by
  have sound := yields.sound
  refine Counter.track_enters sound.heap.closed (sound.accounts c hc).coherent (sound.small c)
    fun tracked => ?_
  exact Bool.false_ne_true (untracked.symm.trans (Counter.mem_ids.1 tracked))

/-- An array on a stack, which two arrays hold that hold each other, one of them twice and beside a
buffer and a leaf. -/
def tangled : List Step :=
  [.perform (.create "kept" (.list .array [.leaf .null] (some 0))) none true,
    .perform (.onEngine (.push (.named "kept"))) none true,
    .perform (.create "buffer" (.buffer [])) none true,
    .perform (.create "inner" (.list .array
      [.named "buffer", .named "kept", .named "kept", .leaf .null] (some 0))) none true,
    .perform (.create "outer" (.list .array [.named "inner", .named "kept"] (some 0))) none true,
    .perform (.onList "inner" (.push (.named "outer"))) none true]

theorem tangled_grown : Grown True 1 (run tangled (start {} default)).2 :=
  started_grown ⟨first_lt_one, trivial, trivial, first_lt_one, first_lt_one, trivial, trivial⟩

/-- The outer array is read first, then the inner one and the buffer. The array on the stack is not
read again; it has three references more. -/
theorem registration_exact_tangled :
    let m := (run tangled (start {} default)).2.memory
    let d := (m.counter 0).track m.heap 4
    ∃ new, Counter.Expands m.heap [4] ((m.counter 0).insertEntry 4) new d ∧ new.Nodup ∧
      (∀ a, a ∈ new ↔ (m.counter 0).Uncovers m.heap 4 a) ∧
      Counter.Enters m.heap new (m.counter 0) d ∧ d.tracked.keys = [1, 2, 3, 4] ∧
      (d.get? 1).map (·.references) = some 3 ∧ d.candidates.keys = [3, 2, 4] ∧
      (m.counter 0).count = 2 ∧ d.count = 6 := by
  have untracked : ((run tangled (start {} default)).2.memory.counter 0).isTracked 4 = false := by
    decide +kernel
  obtain ⟨new, expands, distinct, uncovers, enters⟩ :=
    Yields.registration_exact (.during tangled_grown.reachable) tangled_grown.counters untracked
  refine ⟨new, expands, distinct, uncovers, enters, ?_, ?_, ?_, ?_, ?_⟩ <;> decide +kernel

end Session

end LiveItems
