import LiveItems.Container.Map
import LiveItems.OrderedMap.Replay
import LiveItems.Proofs.Memory.Agree
import LiveItems.Proofs.Container.List
import LiveItems.Proofs.Container.Map
set_option autoImplicit false

namespace LiveItems

open LiveItems.Action (Ends Follows)

theorem Action.Follows.onward {σ α β : Type} {step : σ → σ → Prop} {x : Action σ β}
    {f : β → Action σ α} {done : α → σ → Prop} {s : σ} (follows : Follows step x)
    (next : ∀ b t, step s t → Ends (fun _ _ => True) done (f b) t) :
    Ends (fun _ _ => True) done (x >>= f) s := by
  have first : Ends (fun _ _ => True) (fun _ t => step s t) x s := by
    have moved := follows s
    rcases run : x.apply s with ⟨e | b, t⟩
    · exact .of_error run trivial
    · rw [run] at moved
      exact .of_ok run moved
  exact first.bind next

namespace Action

variable {σ α β : Type} {s t : σ}

theorem apply_after {x : Action σ β} {b : β} (run : x.apply s = (.ok b, t)) (f : β → Action σ α) :
    (x >>= f).apply s = (f b).apply t := by
  rw [apply_bind, run]

theorem apply_forM_singleton (f : β → Action σ Unit) (b : β) (s : σ) :
    ([b].forM f).apply s = (f b).apply s := by
  rw [apply_forM_cons]
  rcases (f b).apply s with ⟨e | _, t⟩ <;> rfl

end Action

namespace Memory

variable {m : Memory} {c : CounterId} {id : ItemId} {x : Item}

theorem mustShareOwner_ok {owner : Option CounterId}
    (fits : ∀ c, owner = some c → x.isCompound → m.heap.ownerOf x = some c) :
    (mustShareOwner owner x).apply m = (.ok (), m) := by
  cases owner with
  | none => rfl
  | some c =>
    have shared : ¬(x.isCompound = true ∧ m.heap.ownerOf x ≠ some c) :=
      fun foreign => foreign.2 (fits c rfl foreign.1)
    rw [mustShareOwner, Action.apply_after (Action.apply_get m), if_neg shared]
    rfl

theorem mustAccept_ok
    (fits : ∀ c, m.heap.owner id = some c → x.isCompound → m.heap.ownerOf x = some c) :
    (mustAccept id x).apply m = (.ok (), m) := by
  rw [mustAccept, Action.apply_after (Action.apply_get m)]
  exact mustShareOwner_ok fits

theorem mustBeWritable_ok (writable : m.heap.isReadOnly id = false) :
    (mustBeWritable id).apply m = (.ok (), m) := by
  rw [mustBeWritable, Action.apply_bind, Action.apply_get]
  simp only [writable, Bool.false_eq_true, if_false]
  rfl

theorem sameHeap_mustBelong (c : CounterId) (x : Item) : Follows SameHeap (mustBelong c x) := by
  rw [mustBelong]
  split
  · refine .get_bind fun m => ?_
    split
    · split
      · exact .pure ()
      · exact .refuse _
    · exact .refuse _
  · exact .pure ()

theorem sameHeap_reportAdded (id : ItemId) (x : Item) : Follows SameHeap (reportAdded id x) := by
  refine .get_bind fun m => ?_
  split
  · exact (sameHeap_mustBelong _ x).bind fun _ => .modify fun m => sameHeap_setCounter m _ _
  · exact .pure ()

theorem sameHeap_reportRemoved (id : ItemId) (x : Item) :
    Follows SameHeap (reportRemoved id x) := by
  refine .get_bind fun m => ?_
  split
  · exact sameHeap_onCounter _ _
  · exact .pure ()

theorem addRoot_apply (owned : x.isCompound → m.heap.ownerOf x = some c) :
    (addRoot c x).apply m = (.ok (), m.setCounter c ((m.counter c).addRoots m.heap x 1)) := by
  have unfolded : addRoot c x = (mustBelong c x >>= fun _ =>
      updateCounter c fun h => Counter.addRoots h x 1) := rfl
  rw [unfolded, Action.apply_after (mustBelong_ok owned)]
  rfl

theorem reportAdded_apply (owned : m.heap.owner id = some c)
    (fits : x.isCompound → m.heap.ownerOf x = some c) :
    (reportAdded id x).apply m =
      (.ok (), m.setCounter c ((m.counter c).addOccurrence m.heap x id)) := by
  rw [reportAdded, Action.apply_bind, Action.apply_get]
  simp only [owned]
  rw [addOccurrence, Action.apply_after (mustBelong_ok fits)]
  rfl

theorem reportAdded_untracked
    (fits : ∀ c, m.heap.owner id = some c → x.isCompound → m.heap.ownerOf x = some c)
    (out : ∀ c, m.heap.owner id = some c → id ∉ (m.counter c).ids) :
    (reportAdded id x).apply m = (.ok (), m) := by
  cases owned : m.heap.owner id with
  | none =>
    rw [reportAdded, Action.apply_bind, Action.apply_get]
    simp only [owned]
    rfl
  | some c =>
    rw [reportAdded_apply owned (fits c owned), Counter.addOccurrence_untracked (out c owned),
      setCounter_self]

theorem reportAllAdded_apply (xs : List Item) : ∀ {m : Memory}, c < m.counters.length →
    m.heap.owner id = some c → (∀ x ∈ xs, x.isCompound → m.heap.ownerOf x = some c) →
    (xs.forM (reportAdded id)).apply m = (.ok (), m.setCounter c
      (xs.foldl (fun d x => d.addOccurrence m.heap x id) (m.counter c))) := by
  induction xs with
  | nil =>
    intro m _ _ _
    rw [List.foldl_nil, setCounter_self]
    rfl
  | cons x xs ih =>
    intro m hc owned fits
    obtain ⟨first, others⟩ := List.forall_mem_cons.1 fits
    have hc' : c < (m.setCounter c ((m.counter c).addOccurrence m.heap x id)).counters.length := by
      rwa [length_setCounter]
    rw [Action.apply_forM_cons, reportAdded_apply owned first]
    refine (ih hc' owned others).trans ?_
    rw [counter_setCounter hc, if_pos rfl, setCounter, setCounter, setCounter, List.set_set]
    rfl

end Memory

namespace ListObject

open Memory

variable {m : Memory} {id : ItemId} {x : Item}

theorem push_apply
    (fits : ∀ c, m.heap.owner id = some c → x.isCompound → m.heap.ownerOf x = some c)
    (writable : m.heap.isReadOnly id = false) :
    (push id x).apply m =
      (reportAdded id x).apply (m.storing id (.list (m.heap.listItems id ++ [x]))) := by
  rw [push, Action.apply_after (mustAccept_ok fits),
    Action.apply_after (mustBeWritable_ok writable)]
  rfl

theorem insert_apply
    (fits : ∀ c, m.heap.owner id = some c → x.isCompound → m.heap.ownerOf x = some c)
    (writable : m.heap.isReadOnly id = false) {index : Nat}
    (inside : index ≤ (m.heap.listItems id).length) :
    (insert id index x).apply m = (reportAdded id x).apply
      (m.storing id (.list ((m.heap.listItems id).insertIdx index x))) := by
  rw [insert, Action.apply_after (mustAccept_ok fits),
    Action.apply_after (mustBeWritable_ok writable)]
  have items : (items id).apply m = (.ok (m.heap.listItems id), m) := rfl
  rw [Action.apply_after items, if_neg (Nat.not_lt.2 inside)]
  rfl

end ListObject

namespace MapObject

open Memory

structure IsKey (k : Item) : Prop where
  primitive : k.type.isPrimitive
  short : k.keySize ≤ maxKeySize

variable {m : Memory} {id : ItemId} {es : OrderedMap Item Item} {k v : Item}

theorem mustBeKey_ok (key : IsKey k) (m : Memory) : (mustBeKey k).apply m = (.ok (), m) := by
  have short : ¬k.keySize > maxKeySize := Nat.not_lt.2 key.short
  simp only [mustBeKey, key.primitive, Bool.not_true, Bool.false_eq_true, if_false, if_neg short]
  rfl

theorem set_new_apply (key : IsKey k)
    (fits : ∀ c, m.heap.owner id = some c → v.isCompound → m.heap.ownerOf v = some c)
    (writable : m.heap.isReadOnly id = false) (absent : (m.heap.mapEntries id).get? k = none) :
    (do
      let _ ← set id k v
      pure () : Action Memory Unit).apply m = ([k, v].forM (reportAdded id)).apply
        (m.storing id (.map ((m.heap.mapEntries id).insert k v))) := by
  have entries : (entries id).apply m = (.ok (m.heap.mapEntries id), m) := rfl
  have run : (set id k v).apply m = (do
      reportAdded id k
      reportAdded id v
      pure none : Action Memory (Option Item)).apply
        (m.storing id (.map ((m.heap.mapEntries id).insert k v))) := by
    rw [set, Action.apply_after (mustBeKey_ok key m), Action.apply_after (mustAccept_ok fits),
      Action.apply_after (mustBeWritable_ok writable), Action.apply_after entries, absent]
    rfl
  rw [Action.apply_bind, run, Action.apply_bind, Action.apply_forM_cons]
  rcases (reportAdded id k).apply _ with ⟨e | _, t⟩
  · rfl
  · simp only
    rw [Action.apply_bind, Action.apply_forM_singleton]
    rcases (reportAdded id v).apply t with ⟨e | _, u⟩ <;> rfl

def perform (id : ItemId) : OrderedMap.Change Item Item → Action Memory (Option Item)
  | .set k v => set id k v
  | .remove k => remove id k
  | .clear => do
    clear id
    pure none

abbrev Effect (es : OrderedMap Item Item) (id : ItemId) (change : OrderedMap.Change Item Item)
    (m : Memory) : Prop :=
  Ends (fun _ _ => True)
    (fun a t => a = change.key?.bind es.get? ∧ t.heap.storage? id = some (.map (es.change change)))
    (perform id change) m

theorem storage?_changed (mapped : m.heap.storage? id = some (.map es)) {s : Storage} {t : Memory}
    (same : (m.storing id s).SameHeap t) : t.heap.storage? id = some s := by
  rw [same.heap, storing, Heap.storage?_store, if_pos rfl, mapped, Option.map_some]

theorem set_effect (mapped : m.heap.storage? id = some (.map es)) (k v : Item) :
    Effect es id (.set k v) m := by
  refine ((mustBeKey_ends m k).worsen fun _ _ _ => trivial).bind ?_
  rintro _ t ⟨rfl, -⟩
  refine ((mustAccept_ends t id v).worsen fun _ _ _ => trivial).bind ?_
  rintro _ t ⟨rfl, -⟩
  refine ((mustBeWritable_ends t id).worsen fun _ _ _ => trivial).bind ?_
  rintro _ t rfl
  refine .get_bind ?_
  rw [mapEntries_eq mapped]
  refine .after (t := t.storing id (.map (es.insert k v))) rfl ?_
  cases found : es.get? k with
  | none =>
    refine (sameHeap_reportAdded id k).onward fun _ u first => ?_
    refine (sameHeap_reportAdded id v).onward fun _ w second => ?_
    exact .pure ⟨found.symm, storage?_changed mapped (trans_of SameHeap first second)⟩
  | some old =>
    refine (sameHeap_reportAdded id v).onward fun _ u first => ?_
    refine (sameHeap_reportRemoved id old).onward fun _ w second => ?_
    exact .pure ⟨found.symm, storage?_changed mapped (trans_of SameHeap first second)⟩

theorem remove_effect (mapped : m.heap.storage? id = some (.map es)) (k : Item) :
    Effect es id (.remove k) m := by
  refine ((mustBeKey_ends m k).worsen fun _ _ _ => trivial).bind ?_
  rintro _ t ⟨rfl, -⟩
  refine ((mustBeWritable_ends t id).worsen fun _ _ _ => trivial).bind ?_
  rintro _ t rfl
  refine .get_bind ?_
  rw [mapEntries_eq mapped]
  cases found : es.get? k with
  | none =>
    have unchanged : es.erase k = es :=
      OrderedMap.ext (Array.toList_inj.1 (OrderedMap.erase_absent found))
    refine .pure ⟨found.symm, ?_⟩
    rw [OrderedMap.change, unchanged, mapped]
  | some old =>
    refine .after (t := t.storing id (.map (es.erase k))) rfl ?_
    refine (sameHeap_reportRemoved id k).onward fun _ u first => ?_
    refine (sameHeap_reportRemoved id old).onward fun _ w second => ?_
    exact .pure ⟨found.symm, storage?_changed mapped (trans_of SameHeap first second)⟩

theorem clear_effect (mapped : m.heap.storage? id = some (.map es)) : Effect es id .clear m := by
  rw [Effect, perform, clear, bind_assoc]
  refine ((mustBeWritable_ends m id).worsen fun _ _ _ => trivial).bind ?_
  rintro _ t rfl
  rw [bind_assoc]
  refine .get_bind ?_
  rw [mapEntries_eq mapped, bind_assoc]
  refine .after (t := t.storing id (.map {})) rfl ?_
  refine (Follows.forM (sameHeap_reportRemoved id) _).onward fun _ u same => ?_
  exact .pure ⟨rfl, storage?_changed mapped same⟩

theorem perform_effect (mapped : m.heap.storage? id = some (.map es))
    (change : OrderedMap.Change Item Item) : Effect es id change m := by
  cases change with
  | set k v => exact set_effect mapped k v
  | remove k => exact remove_effect mapped k
  | clear => exact clear_effect mapped

end MapObject

end LiveItems
