import LiveItems.Proofs.Container.Effects
import LiveItems.Proofs.Session.Reachable
set_option autoImplicit false

namespace LiveItems

namespace MapObject

open Memory OrderedMap

/-- A map that held `es` in a balanced run, after calls that have set, removed or cleared. The log
has those that have succeeded, the latest first. What else happens to the memory in between leaves
the map alone. -/
inductive History (suspects : Prop) (id : ItemId) (es : OrderedMap Item Item) :
    List (Change Item Item) → Memory → Prop where
  | start {m : Memory} {roots : CounterId → Multiset Item} : Session.Yields suspects m roots →
      m.heap.storage? id = some (.map es) → History suspects id es [] m
  | succeeded {log : List (Change Item Item)} {m t : Memory} {change : Change Item Item}
      {a : Option Item} : History suspects id es log m →
      (∀ v, change.value? = some v → m.heap.Knows v) →
      (perform id change).apply m = (.ok a, t) → History suspects id es (change :: log) t
  | failed {log : List (Change Item Item)} {m t : Memory} {change : Change Item Item} {e : Error} :
      History suspects id es log m → (∀ v, change.value? = some v → m.heap.Knows v) →
      (perform id change).apply m = (.error e, t) → History suspects id es log t
  | elsewhere {log : List (Change Item Item)} {m t : Memory} {roots : CounterId → Multiset Item} :
      History suspects id es log m → Session.Yields suspects t roots →
      t.heap.storage? id = m.heap.storage? id → History suspects id es log t

/-- All that can be seen of a map is what the log says of it. -/
structure Recalls (id : ItemId) (es : OrderedMap Item Item) (log : List (Change Item Item))
    (m : Memory) : Prop where
  distinct : (m.heap.mapEntries id).keys.Nodup
  present : ∀ k, k ∈ (m.heap.mapEntries id).keys ↔ (es.written log k).isSome
  ordered : (m.heap.mapEntries id).keys.Pairwise fun a b => es.since log a < es.since log b
  values : (m.heap.mapEntries id).values.map some =
    (m.heap.mapEntries id).keys.map (es.written log)
  get? : ∀ k, IsKey k → (get? id k).apply m = (.ok (es.written log k), m)
  contains : ∀ k, IsKey k → (contains id k).apply m = (.ok (es.written log k).isSome, m)
  previous : ∀ change a t, (perform id change).apply m = (.ok a, t) →
    a = change.key?.bind (es.written log)
  apart : ∀ change j k a t, change.key? = some j → j.type ≠ k.type →
    (perform id change).apply m = (.ok a, t) →
    (t.heap.mapEntries id).get? k = (m.heap.mapEntries id).get? k
  children : ∀ i, (m.heap.children id)[2 * i]? = (m.heap.mapEntries id).keys[i]? ∧
    (m.heap.children id)[2 * i + 1]? = (m.heap.mapEntries id).values[i]?
  childCount : m.heap.childCountOf (.object .map id) = (m.heap.children id).length

variable {suspects strict : Prop} {m : Memory} {id : ItemId} {es : OrderedMap Item Item} {k : Item}
  {log : List (Change Item Item)} {roots : CounterId → Multiset Item}

theorem perform_safe (sound : m.Sound strict roots) (mapped : m.heap.storage? id = some (.map es))
    {change : Change Item Item} (known : ∀ v, change.value? = some v → m.heap.Knows v) :
    Safe strict roots (fun _ _ => True) (perform id change) m := by
  cases change with
  | set k v => exact (set_safe sound mapped (known v rfl)).imp fun _ _ h => ⟨h.1, h.2.1, trivial⟩
  | remove k => exact (remove_safe sound mapped).imp fun _ _ h => ⟨h.1, h.2.1, trivial⟩
  | clear => exact (clear_safe sound mapped).bind fun _ _ h => .pure h

theorem get?_apply (key : IsKey k) (mapped : m.heap.storage? id = some (.map es)) :
    (get? id k).apply m = (.ok (es.get? k), m) := by
  rw [get?, Action.apply_bind, mustBeKey_ok key, ← mapEntries_eq mapped]
  rfl

theorem contains_apply (key : IsKey k) (mapped : m.heap.storage? id = some (.map es)) :
    (contains id k).apply m = (.ok (es.contains k), m) := by
  rw [contains, Action.apply_bind, mustBeKey_ok key, ← mapEntries_eq mapped]
  rfl

theorem get?_change_of_ne {change : Change Item Item} {j : Item} (about : change.key? = some j)
    (ne : k ≠ j) : (es.change change).get? k = es.get? k := by
  cases change with
  | set j' v =>
    obtain rfl := Option.some.inj about
    rw [OrderedMap.change, get?_insert, if_neg ne]
  | remove j' =>
    obtain rfl := Option.some.inj about
    rw [OrderedMap.change, get?_erase, if_neg ne]
  | clear => exact absurd about (by simp [Change.key?])

/-- The map is what the log makes of the map at the beginning. -/
theorem History.replayed (history : History suspects id es log m) :
    ∃ roots, m.Sound (¬suspects) roots ∧ m.heap.storage? id = some (.map (es.replay log)) := by
  induction history with
  | start yields mapped => exact ⟨_, yields.sound, mapped⟩
  | succeeded _ known run ih =>
    obtain ⟨roots, sound, mapped⟩ := ih
    exact ⟨roots, ((perform_safe sound mapped known).ok run).1,
      ((perform_effect mapped _).ok run).2⟩
  | failed _ known run ih =>
    obtain ⟨roots, sound, mapped⟩ := ih
    obtain ⟨-, rfl⟩ := (perform_safe sound mapped known).error run
    exact ⟨roots, sound, mapped⟩
  | elsewhere _ yields same ih =>
    obtain ⟨-, -, mapped⟩ := ih
    exact ⟨_, yields.sound, same.trans mapped⟩

theorem recalls_replay (mapped : m.heap.storage? id = some (.map (es.replay log))) :
    Recalls id es log m := by
  have entries := mapEntries_eq mapped
  have children : m.heap.children id = (Storage.map (es.replay log)).children := by
    rw [Heap.children, mapped]
  have written : (es.replay log).get? = es.written log := funext (es.get?_replay log)
  refine ⟨nodup_keys _, fun k => ?_, ?_, ?_, fun k key => ?_, fun k key => ?_,
    fun change a t run => ?_, fun change j k a t about types run => ?_, fun i => ?_, ?_⟩
  · rw [entries, mem_keys_replay]
  · rw [entries]
    exact es.keys_replay_pairwise log
  · rw [entries, ← written]
    exact values_eq_get? _
  · rw [get?_apply key mapped, written]
  · have same : (es.replay log).contains k = (es.written log k).isSome :=
      Bool.eq_iff_iff.2 (contains_iff.trans (es.mem_keys_replay))
    rw [contains_apply key mapped, same]
  · rw [← written]
    exact ((perform_effect mapped change).ok run).1
  · have ne : k ≠ j := fun same => types (congrArg Item.type same.symm)
    rw [entries, mapEntries_eq ((perform_effect mapped change).ok run).2,
      get?_change_of_ne about ne]
  · rw [entries, children]
    exact getElem?_flatMap_pair (es.replay log).toList i
  · rw [children, Heap.length_children]
    simp [Heap.childCountOf, Item.id?, mapped]

/-- A map keeps its keys in the order in which they came in, with what was set last. -/
theorem History.recalls (history : History suspects id es log m) : Recalls id es log m := by
  obtain ⟨-, -, mapped⟩ := history.replayed
  exact recalls_replay mapped

/-- A map that belongs to a counter and is held by a stack. -/
def mapping : List Step :=
  [.perform (.create "map" (.map (some 0))) none true,
    .perform (.onEngine (.push (.named "map"))) none true]

theorem recalls_mapping :
    Recalls ((default : IdSupply).id 1) {}
      [.remove (.leaf (.integer 1)), .set (.leaf (.integer 1)) (.leaf (.boolean true))]
      ((perform ((default : IdSupply).id 1) (.remove (.leaf (.integer 1)))).attempt
        ((perform ((default : IdSupply).id 1) (.set .null .null)).attempt
          ((perform ((default : IdSupply).id 1)
            (.set (.leaf (.integer 1)) (.leaf (.boolean true)))).attempt
              (Session.run mapping (Session.start {} default)).2.memory))) := by
  have grown : Session.Grown True 1 (Session.run mapping (Session.start {} default)).2 :=
    Session.started_grown ⟨Session.first_lt_one, trivial, trivial⟩
  have started : History True ((default : IdSupply).id 1) {} []
      (Session.run mapping (Session.start {} default)).2.memory :=
    .start (.during grown.reachable) rfl
  have leaf : ∀ (m : Memory) (k : Item) (l : Leaf) (v : Item),
      (Change.set k (.leaf l)).value? = some v → m.heap.Knows v := by
    intro m k l v same
    exact Option.some.inj same ▸ .leaf _ _
  have nothing : ∀ (m : Memory) (k v : Item),
      (Change.remove k : Change Item Item).value? = some v → m.heap.Knows v := by
    intro m k v same
    exact absurd same (by simp [Change.value?])
  -- a value for a key, a key that is refused, and the key taken out
  have set := started.succeeded (a := none)
    (leaf _ (.leaf (.integer 1)) (.boolean true)) (Prod.ext (by decide +kernel) rfl)
  have refused := set.failed (e := .invalidOperation (.keyType .any))
    (leaf _ .null .null) (Prod.ext (by decide +kernel) rfl)
  have removed := refused.succeeded (a := some (.leaf (.boolean true)))
    (nothing _ (.leaf (.integer 1))) (Prod.ext (by decide +kernel) rfl)
  exact removed.recalls

end MapObject

end LiveItems
