import LiveItems.Proofs.Container.Effects
import LiveItems.Proofs.Counter.Rooting
set_option autoImplicit false

namespace LiveItems

/-- An addition to a container: an item at the end of a list or inside it, or a new key of a map
with its value. -/
inductive Addition where
  | push (x : Item)
  | insert (index : Nat) (x : Item)
  | put (k v : Item)

namespace Addition

open Memory

def perform (id : ItemId) : Addition → Action Memory Unit
  | push x => ListObject.push id x
  | insert index x => ListObject.insert id index x
  | put k v => do
    let _ ← MapObject.set id k v
    pure ()

def items : Addition → List Item
  | push x => [x]
  | insert _ x => [x]
  | put k v => [k, v]

/-- The item that has to suit the container. Keys are leaves. -/
def value : Addition → Item
  | push x => x
  | insert _ x => x
  | put _ v => v

def stored (h : Heap) (id : ItemId) : Addition → Storage
  | push x => .list (h.listItems id ++ [x])
  | insert index x => .list ((h.listItems id).insertIdx index x)
  | put k v => .map ((h.mapEntries id).insert k v)

def Form (h : Heap) (id : ItemId) : Addition → Prop
  | push _ => ∃ xs, h.storage? id = some (.list xs)
  | insert index _ => ∃ xs, h.storage? id = some (.list xs) ∧ index ≤ xs.length
  | put k _ => MapObject.IsKey k ∧ ∃ es, h.storage? id = some (.map es) ∧ es.get? k = none

/-- The addition is accepted: there is a place for the item or the key is new, the item belongs to
the counter of the container, and the container takes changes. -/
structure Valid (h : Heap) (id : ItemId) (a : Addition) : Prop where
  form : a.Form h id
  known : h.Knows a.value
  fits : ∀ c, h.owner id = some c → a.value.isCompound → h.ownerOf a.value = some c
  writable : h.isReadOnly id = false

def made (h : Heap) (id : ItemId) (a : Addition) : Heap := h.store id (a.stored h id)

def AllValid (id : ItemId) : List Addition → Heap → Prop
  | [], _ => True
  | a :: rest, h => a.Valid h id ∧ AllValid id rest (a.made h id)

def allMade (id : ItemId) : List Addition → Heap → Heap
  | [], h => h
  | a :: rest, h => allMade id rest (a.made h id)

variable {strict : Prop} {roots : CounterId → Multiset Item} {m : Memory} {id : ItemId}
  {c : CounterId} {a : Addition}

theorem key_isLeaf {k : Item} (key : MapObject.IsKey k) : ∃ l, k = .leaf l := by
  cases k with
  | leaf l => exact ⟨l, rfl⟩
  | object kind b => cases kind <;> exact absurd key.primitive Bool.false_ne_true

/-- What comes in is stored first and reported next. -/
theorem Valid.perform_apply (valid : a.Valid m.heap id) :
    (a.perform id).apply m =
      (a.items.forM (reportAdded id)).apply (m.storing id (a.stored m.heap id)) := by
  cases a with
  | push x =>
    exact (ListObject.push_apply valid.fits valid.writable).trans
      (Action.apply_forM_singleton _ x _).symm
  | insert index x =>
    obtain ⟨xs, listed, inside⟩ := valid.form
    rw [← ListObject.listItems_eq listed] at inside
    exact (ListObject.insert_apply valid.fits valid.writable inside).trans
      (Action.apply_forM_singleton _ x _).symm
  | put k v =>
    obtain ⟨key, es, mapped, absent⟩ := valid.form
    rw [← MapObject.mapEntries_eq mapped] at absent
    exact MapObject.set_new_apply key valid.fits valid.writable absent

theorem Valid.safe (sound : m.Sound strict roots) (valid : a.Valid m.heap id) :
    Safe strict roots (fun _ _ => True) (a.perform id) m := by
  cases a with
  | push x =>
    obtain ⟨xs, listed⟩ := valid.form
    exact (ListObject.push_safe sound listed valid.known).imp fun _ _ h => ⟨h.1, h.2.1, trivial⟩
  | insert index x =>
    obtain ⟨xs, listed, -⟩ := valid.form
    exact ListObject.insert_safe sound listed valid.known index
  | put k v =>
    obtain ⟨-, es, mapped, -⟩ := valid.form
    exact (MapObject.set_safe sound mapped valid.known).bind
      fun _ _ h => .pure ⟨h.1, h.2.1, trivial⟩

theorem Valid.items_fit (valid : a.Valid m.heap id) (owned : m.heap.owner id = some c) :
    ∀ x ∈ a.items, (∀ b, x.id? = some b → b ∈ (a.made m.heap id).ids) ∧
      (x.isCompound → (a.made m.heap id).ownerOf x = some c) := by
  have value : (∀ b, a.value.id? = some b → b ∈ (a.made m.heap id).ids) ∧
      (a.value.isCompound → (a.made m.heap id).ownerOf a.value = some c) := by
    refine ⟨fun b hb => Heap.mem_ids_modify.2 (valid.known.mem_ids hb), fun compound => ?_⟩
    have same : (a.made m.heap id).ownerOf a.value = m.heap.ownerOf a.value :=
      congrArg (Option.bind _) (funext fun b => Heap.owner_store ..)
    rw [same, valid.fits c owned compound]
  cases a with
  | push x => exact List.forall_mem_singleton.2 value
  | insert index x => exact List.forall_mem_singleton.2 value
  | put k v =>
    obtain ⟨l, rfl⟩ := key_isLeaf valid.form.1
    refine List.forall_mem_cons.2 ⟨⟨fun b hb => absurd hb (by simp [Item.id?]), fun compound => ?_⟩,
      List.forall_mem_singleton.2 value⟩
    exact absurd compound (by cases l <;> exact Bool.false_ne_true)

/-- What additions to the container `id`, of the counter `c`, do to the counters: nothing to the
others, and nothing to `c` unless the container is tracked. -/
structure Reported (id : ItemId) (c : CounterId) (m t : Memory) : Prop where
  counters : t.counters.length = m.counters.length
  others : ∀ d, d ≠ c → t.counter d = m.counter d
  untracked : id ∉ (m.counter c).ids → t.counter c = m.counter c
  admits : ∀ e, Counter.Admits id e (m.counter c) → Counter.Admits id e (t.counter c)

theorem Reported.refl (id : ItemId) (c : CounterId) (m : Memory) : Reported id c m m :=
  ⟨rfl, fun _ _ => rfl, fun _ => rfl, fun _ admits => admits⟩

theorem Reported.trans {t u : Memory} (first : Reported id c m t) (second : Reported id c t u) :
    Reported id c m u := by
  refine ⟨second.counters.trans first.counters,
    fun d ne => (second.others d ne).trans (first.others d ne), fun out => ?_,
    fun e admits => second.admits e (first.admits e admits)⟩
  have same := first.untracked out
  rw [second.untracked (same ▸ out), same]

theorem foldl_untracked {h : Heap} {e : Counter} (out : id ∉ e.ids) (xs : List Item) :
    xs.foldl (fun e x => e.addOccurrence h x id) e = e := by
  induction xs with
  | nil => rfl
  | cons x xs ih => rw [List.foldl_cons, Counter.addOccurrence_untracked out, ih]

theorem Valid.step (sound : m.Sound strict roots) (owned : m.heap.owner id = some c)
    (valid : a.Valid m.heap id) :
    ∃ t, (a.perform id).apply m = (.ok (), t) ∧ t.Sound strict roots ∧ m.Extends t ∧
      t.heap = a.made m.heap id ∧ Reported id c m t := by
  have hc := sound.heap.owners id c owned
  have fit := valid.items_fit owned
  have run := valid.perform_apply.trans (reportAllAdded_apply (m := m.storing id _) a.items hc
    ((Heap.owner_store ..).trans owned) fun x hx => (fit x hx).2)
  have after := (Valid.safe sound valid).ok run
  have read : ∀ e d, ((m.storing id (a.stored m.heap id)).setCounter c e).counter d =
      if d = c then e else m.counter d := fun _ d => counter_setCounter (m := m.storing id _) hc d
  refine ⟨_, run, after.1, after.2.1.toExtends, rfl, length_setCounter .., fun d ne => ?_,
    fun out => ?_, fun e admits => ?_⟩
  · rw [read, if_neg ne]
  · rw [read, if_pos rfl]
    exact foldl_untracked out a.items
  · rw [read, if_pos rfl]
    exact admits.occurrences after.1.heap.closed a.items fun x hx => (fit x hx).1

theorem allValid_run (as : List Addition) : ∀ {m : Memory}, m.Sound strict roots →
    m.heap.owner id = some c → AllValid id as m.heap →
    ∃ t, (as.forM (perform id)).apply m = (.ok (), t) ∧ t.Sound strict roots ∧ m.Extends t ∧
      t.heap = allMade id as m.heap ∧ Reported id c m t := by
  induction as with
  | nil => exact fun sound _ _ => ⟨_, rfl, sound, .refl _, rfl, .refl id c _⟩
  | cons a as ih =>
    intro m sound owned valid
    obtain ⟨t, run, sound₁, ext, made, reported⟩ := Valid.step sound owned valid.1
    have owned₁ : t.heap.owner id = some c := by
      rw [made, Addition.made, Heap.owner_store, owned]
    obtain ⟨u, others, sound₂, ext', made', reported'⟩ := ih sound₁ owned₁ (made ▸ valid.2)
    refine ⟨u, ?_, sound₂, ext.trans ext', ?_, reported.trans reported'⟩
    · rw [Action.apply_forM_cons, run]
      exact others
    · rw [made', made, allMade]

end Addition

namespace Memory

variable {strict : Prop} {roots : CounterId → Multiset Item} {m : Memory} {c : CounterId}
  {kind : ObjectKind} {id : ItemId}

theorem Sound.addFirstRoot (sound : m.Sound strict roots) (known : m.heap.Knows (.object kind id))
    (owned : m.heap.owner id = some c) (out : id ∉ (m.counter c).ids) :
    ∃ t, (Memory.addRoot c (.object kind id)).apply m = (.ok (), t) ∧
      t.Sound strict (rootsOf c [.object kind id] + roots) ∧ m.Elsewhere c t ∧
      Counter.Admits id (m.counter c) (t.counter c) := by
  have hc := sound.heap.owners id c owned
  have run := addRoot_apply (m := m) (c := c) (x := .object kind id) fun _ => owned
  rcases sound.addRoot hc known with ⟨why, refused⟩ | ⟨t, added, sound', -⟩
  · rw [refused] at run
    exact absurd (congrArg Prod.fst run) (by simp)
  · obtain rfl := congrArg Prod.snd (added.symm.trans run)
    refine ⟨_, run, sound', elsewhere_setCounter m c _, ?_⟩
    rw [counter_setCounter hc, if_pos rfl]
    exact .root sound.heap.closed (sound.small c) out kind

end Memory

namespace Session

open Memory

variable {suspects : Prop} {m : Memory} {roots : CounterId → Multiset Item} {c : CounterId}
  {kind : ObjectKind} {id : ItemId} {as : List Addition}

/-- Whether a container that its counter does not track is filled before it gets a root or after
that makes no difference to what is stored and recorded. -/
theorem Yields.registration_lazy (yields : Yields suspects m roots)
    (known : m.heap.Knows (.object kind id)) (owned : m.heap.owner id = some c)
    (untracked : (m.counter c).isTracked id = false)
    (valid : Addition.AllValid id as m.heap) :
    ∃ t u, (do
        as.forM (Addition.perform id)
        addRoot c (.object kind id) : Action Memory Unit).apply m = (.ok (), t) ∧
      (do
        addRoot c (.object kind id)
        as.forM (Addition.perform id) : Action Memory Unit).apply m = (.ok (), u) ∧
      u.heap = t.heap ∧ u.counters.length = t.counters.length ∧
      (∀ d, d ≠ c → u.counter d = t.counter d) ∧
      (t.counter c).SameRecords (u.counter c) ∧ (u.counter c).peak = (t.counter c).peak ∧
      (u.counter c).stats = (t.counter c).stats ∧
      ∀ a, a ∈ (u.counter c).candidates.keys ↔ a ∈ (t.counter c).candidates.keys := by
  have sound := yields.sound
  have hc := sound.heap.owners id c owned
  have out : id ∉ (m.counter c).ids := fun tracked =>
    Bool.false_ne_true (untracked.symm.trans (Counter.mem_ids.1 tracked))
  -- the additions first: the counter hears of none of them
  obtain ⟨t, filled, sound₁, ext₁, made₁, reported₁⟩ := Addition.allValid_run as sound owned valid
  have same := reported₁.untracked out
  have owned₁ : t.heap.owner id = some c := ext₁.heap.owner id (Heap.mem_ids_of_owner owned) ▸ owned
  obtain ⟨t', rooted₁, sound₁', elsewhere₁, admits₁⟩ :=
    sound₁.addFirstRoot (ext₁.heap.knows known) owned₁ (same ▸ out)
  rw [same] at admits₁
  -- the root first: each addition is accounted for by itself
  obtain ⟨u, rooted₂, sound₂, elsewhere₂, admits₂⟩ := sound.addFirstRoot known owned out
  obtain ⟨u', filled₂, sound₂', -, made₂, reported₂⟩ := Addition.allValid_run as sound₂
    (elsewhere₂.heap ▸ owned) (elsewhere₂.heap ▸ valid)
  have heap : u'.heap = t'.heap := by rw [made₂, elsewhere₁.heap, made₁, elsewhere₂.heap]
  have lengths : u'.counters.length = t'.counters.length := by
    rw [reported₂.counters, elsewhere₁.counters, reported₁.counters, elsewhere₂.counters]
  refine ⟨t', u', (Action.apply_after filled _).trans rooted₁,
    (Action.apply_after rooted₂ _).trans filled₂, heap, lengths, fun d ne => ?_, ?_⟩
  · rw [reported₂.others d ne, elsewhere₂.others d ne, elsewhere₁.others d ne,
      reported₁.others d ne]
  · have hc' : c < t'.counters.length := by rwa [elsewhere₁.counters, reported₁.counters]
    have acc₁ := sound₁'.accounts c hc'
    have acc₂ := sound₂'.accounts c (lengths ▸ hc')
    have contents : u'.contents = t'.contents := by
      funext p
      rw [contents, contents, heap]
    rw [contents, heap] at acc₂
    exact admits₁.same (reported₂.admits _ admits₂) acc₁ acc₂

/-- An array that nothing holds, and an array that holds it. -/
def nested : List Step :=
  [.perform (.create "inner" (.list .array [] (some 0))) none true,
    .perform (.create "outer" (.list .array [.named "inner"] (some 0))) none true]

/-- The inner array gets itself and the outer one. -/
theorem registration_lazy_nested : ∃ t u, (do
        [.push (.object .array ((default : IdSupply).id 1)),
          .insert 0 (.object .array ((default : IdSupply).id 2))].forM
            (Addition.perform ((default : IdSupply).id 1))
        addRoot 0 (.object .array ((default : IdSupply).id 1)) : Action Memory Unit).apply
          (run nested (start {} default)).2.memory = (.ok (), t) ∧
      (do
        addRoot 0 (.object .array ((default : IdSupply).id 1))
        [.push (.object .array ((default : IdSupply).id 1)),
          .insert 0 (.object .array ((default : IdSupply).id 2))].forM
            (Addition.perform ((default : IdSupply).id 1)) : Action Memory Unit).apply
          (run nested (start {} default)).2.memory = (.ok (), u) ∧
      (t.counter 0).SameRecords (u.counter 0) := by
  have grown : Grown True 1 (run nested (start {} default)).2 :=
    started_grown ⟨first_lt_one, first_lt_one, trivial⟩
  have inner : (run nested (start {} default)).2.memory.heap.storage?
      ((default : IdSupply).id 1) = some (.list []) := rfl
  have outer : (Addition.allMade ((default : IdSupply).id 1)
        [.push (.object .array ((default : IdSupply).id 1))]
        (run nested (start {} default)).2.memory.heap).storage?
      ((default : IdSupply).id 2) =
        some (.list [.object .array ((default : IdSupply).id 1)]) := rfl
  have known : (run nested (start {} default)).2.memory.heap.Knows
      (.object .array ((default : IdSupply).id 1)) := ListObject.knows_of_list inner (.inl rfl)
  have valid : Addition.AllValid ((default : IdSupply).id 1)
      [.push (.object .array ((default : IdSupply).id 1)),
        .insert 0 (.object .array ((default : IdSupply).id 2))]
      (run nested (start {} default)).2.memory.heap :=
    ⟨⟨⟨[], rfl⟩, known, fun _ owned _ => owned, rfl⟩,
      ⟨⟨_, rfl, Nat.zero_le _⟩, ListObject.knows_of_list outer (.inl rfl),
        fun c owned _ => owned, rfl⟩, trivial⟩
  obtain ⟨t, u, late, early, -, -, -, records, -⟩ := Yields.registration_lazy
    (.during grown.reachable) (c := 0) known rfl (by decide +kernel) valid
  exact ⟨t, u, late, early, records⟩

end Session

end LiveItems
