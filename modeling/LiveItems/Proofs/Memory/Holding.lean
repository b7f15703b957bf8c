import LiveItems.Container.Basic
import LiveItems.Proofs.Memory.Sound
set_option autoImplicit false

/-!
# Memories in the middle of a change

A container changes its storage first and reports each item after that. In between, the counters
account for what the container held before, with what has been reported so far. Reports never fail.
What has been taken out is reported last, so what is stored is accounted for by then.
-/

namespace LiveItems

namespace Memory

/-- The counters account for `held` as what the container `id` holds, and for what all others do. -/
structure Holding (strict : Prop) (id : ItemId) (held : Multiset Item)
    (roots : CounterId → Multiset Item) (m : Memory) : Prop where
  accounted : m.Accounted strict (Function.update m.contents id held) roots
  may : ∀ x ∈ held, m.heap.MayHold id x

variable {strict : Prop} {roots : CounterId → Multiset Item} {m m' : Memory} {id : ItemId}
  {held rest : Multiset Item} {x : Item}

theorem Holding.sound (holding : m.Holding strict id (m.contents id) roots) :
    m.Sound strict roots := by
  have acc := holding.accounted
  rwa [Function.update_eq_self] at acc

def storing (m : Memory) (id : ItemId) (s : Storage) : Memory :=
  { m with heap := m.heap.store id s }

theorem contents_storing (stored : ∃ s, m.heap.storage? id = some s) (s : Storage) (p : ItemId) :
    (m.storing id s).contents p =
      if p = id then (s.children : Multiset Item) else m.contents p := by
  rw [contents, storing, Heap.children_store m.heap id p s (Option.isSome_iff_exists.2 stored)]
  split <;> rfl

theorem Sound.store (sound : m.Sound strict roots) {old s : Storage}
    (stored : m.heap.storage? id = some old) (suits : ∀ kind, old.Suits kind → s.Suits kind)
    (may : ∀ x ∈ s.children, m.heap.MayHold id x) :
    (m.storing id s).Holding strict id (m.contents id) roots ∧
      m.heap.Extends (m.heap.store id s) := by
  have kept : ∀ o, m.heap.object? id = some o →
      ({ o with storage := s } : Object).owner = o.owner := fun _ _ => rfl
  have fits : ∀ o, m.heap.object? id = some o → ∀ kind, o.storage.Suits kind →
      ({ o with storage := s } : Object).storage.Suits kind := by
    intro o ho kind hk
    have same : m.heap.storage? id = some o.storage := by rw [Heap.storage?, ho, Option.map_some]
    rw [stored] at same
    exact suits kind (Option.some.inj same ▸ hk)
  have ext : m.heap.Extends (m.heap.store id s) := Heap.Extends.modify kept fits
  have wf : (m.heap.store id s).WellFormed m.counters.length :=
    sound.heap.modify kept fits fun _ _ => may
  have within : ∀ c p, p ∈ m.heap.Belongs c → p ∈ (m.heap.store id s).Belongs c :=
    fun c p => ext.belongs
  refine ⟨⟨⟨wf, fun c hc => ?_, sound.small, fun c y hy => ext.knows (sound.known c y hy),
    sound.outside⟩, fun y hy => ext.mayHold (Heap.mem_ids_of_storage stored)
      (sound.heap.holds id y (Multiset.mem_coe.1 hy))⟩, ext⟩
  have account := sound.accounts c hc
  refine account.congr (fun p _ => ?_) fun p hp => within c p (account.within p hp)
  rw [Function.update_apply]
  split
  · rename_i e
    rw [e]
  · rename_i ne
    rw [contents_storing ⟨old, stored⟩, if_neg ne]

theorem not_belongs_other {c d : CounterId} (holding : m.heap.MayHold id x)
    (owned : m.heap.owner id = some c) (ne : d ≠ c) : id ∉ m.heap.Belongs d := by
  rintro (owned' | ⟨data, stored⟩)
  · exact ne (Option.some.inj (owned'.symm.trans owned))
  · exact holding.container data stored

theorem Holding.unowned (holding : m.Holding strict id held roots)
    (may : ∀ x ∈ rest, m.heap.MayHold id x) (unowned : ∀ c, id ∉ m.heap.Belongs c) :
    m.Holding strict id rest roots := by
  obtain ⟨acc, -⟩ := holding
  refine ⟨⟨acc.heap, fun c hc => ?_, acc.small, acc.known, acc.outside⟩, may⟩
  have account := acc.accounts c hc
  exact account.update_untracked rest fun tracked => unowned c (account.within id tracked)

theorem unowned_of_owner (may : m.heap.MayHold id x) (none : m.heap.owner id = none)
    (c : CounterId) : id ∉ m.heap.Belongs c := by
  rintro (owned | ⟨data, stored⟩)
  · rw [none] at owned
    exact absurd owned (by simp)
  · exact may.container data stored

theorem Holding.setCounter (holding : m.Holding strict id held roots) {c : CounterId} {e : Counter}
    (may : m.heap.MayHold id x) (owned : m.heap.owner id = some c)
    (account : e.Accounts strict (m.heap.Belongs c) (Function.update m.contents id rest) (roots c))
    (small : e.sums = .small) (mayRest : ∀ x ∈ rest, m.heap.MayHold id x) :
    (m.setCounter c e).Holding strict id rest roots := by
  have acc := holding.accounted
  have hc : c < m.counters.length := acc.heap.owners id c owned
  refine ⟨?_, mayRest⟩
  rw [contents_setCounter]
  refine Accounted.setCounter acc roots hc account small (fun _ _ => rfl) (fun d ne p hp => ?_)
    (acc.known c)
  have other : p ≠ id := by
    rintro rfl
    exact not_belongs_other may owned ne hp
  rw [Function.update_of_ne other, Function.update_of_ne other]

theorem Holding.reportAdded (holding : m.Holding strict id held roots)
    (may : m.heap.MayHold id x) :
    ∃ m', (reportAdded id x).apply m = (.ok (), m') ∧
      m'.Holding strict id (x ::ₘ held) roots ∧ m.Recounts m' ∧ m.Retains m' := by
  have acc := holding.accounted
  have more : ∀ y ∈ x ::ₘ held, m.heap.MayHold id y := by
    intro y hy
    rcases Multiset.mem_cons.1 hy with rfl | hy
    · exact may
    · exact holding.may y hy
  cases owner : m.heap.owner id with
  | none =>
    refine ⟨m, ?_, holding.unowned more (unowned_of_owner may owner), .refl m, .refl m⟩
    rw [Memory.reportAdded, Action.apply_bind, Action.apply_get]
    simp only [owner]
    rfl
  | some c =>
    have hc : c < m.counters.length := acc.heap.owners id c owner
    have grown := Counter.addOccurrence_subset (c := m.counter c) acc.heap.closed
      (fun a ha => may.known.mem_ids ha) id
    have grows := Counter.grows_addOccurrence m.heap x id (m.counter c)
    refine ⟨m.setCounter c ((m.counter c).addOccurrence m.heap x id), ?_, ?_,
      recounts_setCounter hc (.of_subset grown), retains_setCounter hc grown⟩
    · rw [Memory.reportAdded, Action.apply_bind, Action.apply_get]
      simp only [owner]
      rw [addOccurrence, Action.apply_bind, mustBelong_ok (may.fits c owner)]
      rfl
    · refine holding.setCounter may owner ?_ (grows.small (acc.small c)) more
      have account := acc.accounts c hc
      by_cases tracked : id ∈ (m.counter c).ids
      · have updated := account.addOccurrence (x := x) acc.heap.closed (fun p hp => ?_)
          (fun a ha => may.known.mem_ids ha) tracked (fun p hp a ha => ?_)
          (grows.unwrapped_of_small (acc.small c))
        · rwa [Function.update_idem, Function.update_self] at updated
        · have ne : p ≠ id := by
            rintro rfl
            exact hp tracked
          rw [Function.update_of_ne ne]
          rfl
        · rw [Function.update_idem, Function.update_self] at ha
          obtain ⟨y, hy, hid⟩ := occurrences_pos.1 ha
          rw [Function.update_apply] at hy
          split at hy
          · subst_vars
            exact (more y hy).belongs hp hid
          · exact (acc.heap.holds p y (Multiset.mem_coe.1 hy)).belongs hp hid
      · rw [Counter.addOccurrence_untracked tracked]
        exact account.update_untracked _ tracked

theorem Holding.reportRemoved (holding : m.Holding strict id (x ::ₘ rest) roots)
    (stored : m.contents id ⊆ rest) :
    ∃ m', (reportRemoved id x).apply m = (.ok (), m') ∧ m'.Holding strict id rest roots ∧
      m.Recounts m' := by
  have acc := holding.accounted
  have may : m.heap.MayHold id x := holding.may x (Multiset.mem_cons_self x rest)
  have less : ∀ y ∈ rest, m.heap.MayHold id y := fun y hy =>
    holding.may y (Multiset.mem_cons_of_mem hy)
  cases owner : m.heap.owner id with
  | none =>
    refine ⟨m, ?_, holding.unowned less (unowned_of_owner may owner), .refl m⟩
    rw [Memory.reportRemoved, Action.apply_bind, Action.apply_get]
    simp only [owner]
    rfl
  | some c =>
    have hc : c < m.counters.length := acc.heap.owners id c owner
    have account := acc.accounts c hc
    have run : ∀ e, (Counter.removeOccurrence x id).apply (m.counter c) = (.ok (), e) →
        (Memory.reportRemoved id x).apply m = (.ok (), m.setCounter c e) := by
      intro e he
      rw [Memory.reportRemoved, Action.apply_bind, Action.apply_get]
      simp only [owner]
      rw [removeOccurrence, onCounter, Action.apply_onPart, he]
    by_cases tracked : id ∈ (m.counter c).ids
    · obtain ⟨e, he, updated, spares⟩ :=
        account.removeOccurrence tracked (Function.update_self id _ m.contents)
      rw [Function.update_idem] at updated spares
      have sinks := Counter.removeOccurrence_follows x id (m.counter c)
      rw [he] at sinks
      refine ⟨m.setCounter c e, run e he,
        holding.setCounter may owner updated (sinks.sums.trans (acc.small c)) less,
        recounts_setCounter hc (spares.mono fun p => ?_)⟩
      by_cases same : p = id
      · subst same
        rw [Function.update_self]
        exact stored
      · rw [Function.update_of_ne same]
        exact Multiset.Subset.refl _
    · refine ⟨m.setCounter c (m.counter c),
        run _ (Counter.removeOccurrence_untracked tracked),
        holding.setCounter may owner (account.update_untracked rest tracked) (acc.small c) less,
        recounts_setCounter hc (.refl _ _)⟩

theorem Holding.reportAllRemoved (xs : List Item) {m : Memory}
    (holding : m.Holding strict id (xs + rest : Multiset Item) roots)
    (stored : m.contents id ⊆ rest) :
    ∃ m', (xs.forM (Memory.reportRemoved id)).apply m = (.ok (), m') ∧
      m'.Holding strict id rest roots ∧ m.Recounts m' := by
  induction xs generalizing m with
  | nil =>
    rw [Multiset.coe_nil, zero_add] at holding
    exact ⟨m, rfl, holding, .refl m⟩
  | cons x xs ih =>
    rw [← Multiset.cons_coe, Multiset.cons_add] at holding
    obtain ⟨m', first, holding', recounts⟩ := holding.reportRemoved
      (Multiset.Subset.trans stored (Multiset.subset_of_le (Multiset.le_add_left _ _)))
    obtain ⟨m'', others, holding'', recounts'⟩ := ih holding' (contents_recounts recounts ▸ stored)
    refine ⟨m'', ?_, holding'', recounts.trans recounts'⟩
    rw [Action.apply_forM_cons, first]
    exact others

end Memory

end LiveItems
