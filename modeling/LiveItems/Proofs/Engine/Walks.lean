import LiveItems.Proofs.Engine
import LiveItems.Proofs.Roots.Walks
set_option autoImplicit false

namespace LiveItems

open LiveItems.Action (Ends)
open Memory

namespace Machine

structure Proper (s : Machine) : Prop where
  apart : s.memory.Apart
  bound : s.engine.counter < s.memory.counters.length
  stack : s.engine.stack.counter = s.engine.counter
  items : ∀ x ∈ s.engine.stack.items, s.memory.heap.Knows x
  statics : ∀ slot, s.engine.statics = some slot →
    slot.counter = s.engine.counter ∧ ∀ x ∈ slot.items, s.memory.heap.Knows x

structure Leads (s t : Machine) : Prop where
  walks : s.memory.Walks {s.engine.counter} t.memory
  counter : t.engine.counter = s.engine.counter
  proper : t.Proper

abbrev Leading {α : Type} (post : α → Memory → Prop) (x : Action Machine α) (s : Machine) : Prop :=
  Ends (fun _ t => Leads s t) (fun a t => Leads s t ∧ post a t.memory) x s

variable {s t u : Machine} {x : Item} {α β : Type} {post : α → Memory → Prop}
  {mid : β → Memory → Prop}

theorem Leads.trans (first : Leads s t) (second : Leads t u) : Leads s u := by
  refine ⟨first.walks.trans ?_, second.counter.trans first.counter, second.proper⟩
  rw [← first.counter]
  exact second.walks

instance : IsTrans Machine Leads where
  trans _ _ _ := Leads.trans

theorem Leading.bind {x : Action Machine β} {f : β → Action Machine α} (first : Leading mid x s)
    (next : ∀ b t, Leads s t → mid b t.memory → Leading post (f b) t) :
    Leading post (x >>= f) s :=
  Ends.along first next

section Parts

variable (proper : s.Proper)
include proper

theorem Proper.refl : Leads s s := ⟨.refl _ s.memory, rfl, proper⟩

theorem Proper.onStack : Stack.Hosted (s.memory, s.engine.stack) :=
  ⟨proper.apart, proper.stack ▸ proper.bound, proper.items⟩

theorem Proper.onStatics {slot : Slot} (statics : s.engine.statics = some slot) :
    Slot.Hosted (s.memory, slot) := by
  obtain ⟨same, known⟩ := proper.statics slot statics
  exact ⟨proper.apart, same ▸ proper.bound, known⟩

theorem Proper.move {A : Set CounterId} (walks : s.memory.Walks A t.memory)
    (counter : t.engine.counter = s.engine.counter)
    (stack : t.engine.stack.counter = s.engine.counter)
    (items : ∀ x ∈ t.engine.stack.items, t.memory.heap.Knows x)
    (statics : ∀ slot, t.engine.statics = some slot →
      slot.counter = s.engine.counter ∧ ∀ x ∈ slot.items, t.memory.heap.Knows x) : t.Proper := by
  refine ⟨walks.apart proper.apart, ?_, stack.trans counter.symm, items, fun slot found => ?_⟩
  · rw [counter]
    exact proper.bound.trans_le (walks.extends proper.apart).counters
  · rw [counter]
    exact statics slot found

theorem Proper.walk (walks : s.memory.Walks {s.engine.counter} t.memory)
    (counter : t.engine.counter = s.engine.counter)
    (stack : t.engine.stack.counter = s.engine.counter)
    (items : ∀ x ∈ t.engine.stack.items, t.memory.heap.Knows x)
    (statics : ∀ slot, t.engine.statics = some slot →
      slot.counter = s.engine.counter ∧ ∀ x ∈ slot.items, t.memory.heap.Knows x) : Leads s t :=
  ⟨walks, counter, proper.move walks counter stack items statics⟩

section Walked

variable {A : Set CounterId} {m : Memory} (walks : s.memory.Walks A m)
include walks

theorem Proper.statics_walk (slot : Slot) (found : s.engine.statics = some slot) :
    slot.counter = s.engine.counter ∧ ∀ x ∈ slot.items, m.heap.Knows x := by
  obtain ⟨same, known⟩ := proper.statics slot found
  exact ⟨same, fun x hx => walks.knows proper.apart (known x hx)⟩

theorem Proper.items_walk (x : Item) (hx : x ∈ s.engine.stack.items) : m.heap.Knows x :=
  walks.knows proper.apart (proper.items x hx)

theorem Proper.setMemory : Proper { s with memory := m } :=
  proper.move (t := { s with memory := m }) walks rfl proper.stack (proper.items_walk walks)
    (proper.statics_walk walks)

end Walked

theorem onMemory_leading {x : Action Memory α}
    (walking : Memory.Walking {s.engine.counter} post x s.memory) :
    Leading post (onMemory x) s := by
  have beside : ∀ m, s.memory.Walks {s.engine.counter} m → Leads s { s with memory := m } :=
    fun m walks => ⟨walks, rfl, proper.setMemory walks⟩
  exact Ends.onPart (fun s : Machine => s.memory) walking (fun _ m walks => beside m walks)
    fun _ m walks => ⟨beside m walks.1, walks.2⟩

theorem onStack_leading {x : Action (Memory × Stack) α}
    (leading : Stack.Leading post x (s.memory, s.engine.stack)) :
    Leading post (onStack x) s := by
  have beside : ∀ p : Memory × Stack, LiveItems.Leads Stack.counter Stack.items
      (s.memory, s.engine.stack) p →
      Leads s { s with memory := p.1, engine := { s.engine with stack := p.2 } } := by
    intro p leads
    have walks : s.memory.Walks {s.engine.counter} p.1 := proper.stack ▸ leads.walks
    exact proper.walk
      (t := { s with memory := p.1, engine := { s.engine with stack := p.2 } }) walks rfl
      (leads.counter.trans proper.stack) leads.known (proper.statics_walk walks)
  exact Ends.onPart (fun s : Machine => (s.memory, s.engine.stack)) leading
    (fun _ p leads => beside p leads) fun _ p leads => ⟨beside p leads.1, leads.2⟩

theorem setStatics_leading {statics : Option Slot}
    (hosts : ∀ slot, statics = some slot →
      slot.counter = s.engine.counter ∧ ∀ x ∈ slot.items, s.memory.heap.Knows x) :
    Leading (fun _ _ => True) (setStatics statics) s :=
  Ends.of_ok rfl ⟨proper.walk (t := { s with engine := { s.engine with statics } }) (.refl _ _) rfl
    proper.stack proper.items hosts, trivial⟩

theorem checkLimit_leading : Leading (fun _ _ => True) checkLimit s := by
  rw [Leading, Ends, apply_checkLimit]
  by_cases exceeded : s.counter.peak > s.engine.limits.maxLiveItems
  · rw [if_pos exceeded]
    exact proper.refl
  · rw [if_neg exceeded]
    exact ⟨proper.refl, trivial⟩

theorem push_leading (known : s.memory.heap.Knows x) : Leading (fun _ _ => True) (push x) s :=
  (onStack_leading proper (Stack.push_leading proper.onStack known)).bind fun _ _ leads _ =>
    checkLimit_leading leads.proper

theorem pop_leading : Leading (fun a m => m.heap.Knows a) pop s :=
  onStack_leading proper (Stack.pop_leading proper.onStack)

theorem peek_leading (depth : Int) : Leading (fun a m => m.heap.Knows a) (peek depth) s :=
  Ends.get_bind (Ends.lift (fun _ _ => proper.refl) fun _ found =>
    ⟨proper.refl, Stack.known_of_peek_hosted proper.onStack found⟩)

theorem collect_leading : Leading (fun _ _ => True) collect s :=
  Ends.get_bind (onMemory_leading proper (collect_walking (Set.mem_singleton _) proper.bound))

theorem halt_leading : Leading (fun _ _ => True) halt s := by
  refine Ends.get_bind ?_
  by_cases faulted : s.engine.stage = .faulted
  · simp only [if_pos faulted]
    exact Ends.refuse proper.refl
  · simp only [if_neg faulted]
    exact Ends.of_ok rfl ⟨proper.walk (.refl _ _) rfl proper.stack proper.items proper.statics,
      trivial⟩

theorem loadStatic_leading (index : Nat) : Leading (fun _ _ => True) (loadStatic index) s := by
  refine Ends.get_bind ?_
  cases statics : s.engine.statics with
  | none =>
    simp only
    exact Ends.refuse proper.refl
  | some slot =>
    simp only
    have loaded : Leading (fun a m => m.heap.Knows a) (liftM (slot.get? index)) s :=
      Ends.lift (fun _ _ => proper.refl) fun _ found =>
        ⟨proper.refl, Slot.known_of_get_hosted (proper.onStatics statics) found⟩
    exact loaded.bind fun _ _ leads known => push_leading leads.proper known

theorem storeStatic_leading (index : Nat) : Leading (fun _ _ => True) (storeStatic index) s := by
  refine (peek_leading proper 0).bind fun x t leads known => Ends.get_bind ?_
  have proper := leads.proper
  cases statics : t.engine.statics with
  | none =>
    simp only
    exact Ends.refuse proper.refl
  | some slot =>
    simp only
    have same := (proper.statics slot statics).1
    have beside : ∀ p : Memory × Slot,
        LiveItems.Leads Slot.counter Slot.items (t.memory, slot) p →
        Leads t { t with memory := p.1, engine := { t.engine with statics := some p.2 } } := by
      intro p leads
      have walks : t.memory.Walks {t.engine.counter} p.1 := same ▸ leads.walks
      refine proper.walk
        (t := { t with memory := p.1, engine := { t.engine with statics := some p.2 } }) walks rfl
        proper.stack (proper.items_walk walks) fun other found => ?_
      obtain rfl := Option.some.inj found
      exact ⟨leads.counter.trans same, leads.known⟩
    have stored : Leading (fun _ _ => True)
        ((Slot.set index x).onPart (fun s => (s.memory, slot)) fun u s =>
          { s with memory := u.1, engine := { s.engine with statics := some u.2 } }) t :=
      Ends.onPart (fun s : Machine => (s.memory, slot))
        (Slot.set_leading (proper.onStatics statics) known index)
        (fun _ p leads => beside p leads) fun _ p leads => ⟨beside p leads.1, trivial⟩
    change Leading (fun _ _ => True) _ t
    refine stored.bind fun _ u leads _ => (pop_leading leads.proper).bind fun _ v leads _ => ?_
    exact Ends.pure ⟨leads.proper.refl, trivial⟩

theorem initStatics_leading (n : Nat) : Leading (fun _ _ => True) (initStatics n) s := by
  refine Ends.get_bind ?_
  -- the new fields come when the old ones have gone
  have create : ∀ t : Machine, Leads s t → Leading (fun _ _ => True) (do
      let slot ← onMemory (Slot.createNulls s.engine.counter n)
      setStatics (some slot)
      checkLimit) t := by
    intro t leads
    have proper := leads.proper
    rw [← leads.counter]
    have known : ∀ x ∈ List.replicate n Item.null, t.memory.heap.Knows x := fun x hx =>
      (List.mem_replicate.1 hx).2 ▸ .leaf _ _
    refine (onMemory_leading proper (Slot.create_walking proper.apart proper.bound known)).bind
      fun slot u further made => ?_
    refine (setStatics_leading further.proper fun other found => ?_).bind fun _ v placed _ =>
      checkLimit_leading placed.proper
    obtain rfl := Option.some.inj found
    subst made
    exact ⟨further.counter.symm, fun x hx => (List.mem_replicate.1 hx).2 ▸ .leaf _ _⟩
  cases statics : s.engine.statics with
  | none =>
    simp only
    exact create s proper.refl
  | some old =>
    simp only
    change Leading (fun _ _ => True) _ s
    refine (setStatics_leading proper fun slot found => by simp at found).bind
      fun _ t leads _ => ?_
    have same : old.counter = t.engine.counter :=
      (proper.statics old statics).1.trans leads.counter.symm
    rw [same]
    have released := removeRoots_walking (Set.mem_singleton t.engine.counter) leads.proper.bound
      leads.proper.apart old.items
    exact (onMemory_leading leads.proper released).bind fun _ u further _ =>
      create u (leads.trans further)

theorem settle_leading : Leading (fun _ _ => True) settle s := by
  have reset : ∀ t : Machine, Leads s t →
      Leading (fun _ _ => True) (onMemory (resetPeak s.engine.counter)) t := by
    intro t leads
    rw [← leads.counter]
    exact onMemory_leading leads.proper
      (resetPeak_walking (Set.mem_singleton _) leads.proper.bound)
  refine Ends.get_bind ?_
  split
  · change Leading (fun _ _ => True) _ s
    exact (collect_leading proper).bind fun _ t leads _ => reset t leads
  · exact reset s proper.refl

theorem conclude_leads (result : Except Error Unit) : Leads s (conclude result s).2 := by
  have counted : Leads s s.counted :=
    proper.walk (.refl _ _) rfl proper.stack proper.items proper.statics
  have raised : ∀ (e : Error) (t : Machine), Leads s t → Leads s (t.raise e) := fun e t leads =>
    leads.trans (leads.proper.walk (.refl _ _) rfl leads.proper.stack leads.proper.items
      leads.proper.statics)
  cases result with
  | error e => exact raised e s proper.refl
  | ok _ =>
    rw [conclude, apply_checkpoint]
    by_cases exceeded : s.counter.peak > s.engine.limits.maxLiveItems
    · simp only [if_pos exceeded]
      exact raised _ _ counted
    · simp only [if_neg exceeded]
      rcases (settle_leading counted.proper).cases with ⟨e, t, run, leads⟩ | ⟨a, t, run, leads, -⟩
      · simp only [run]
        exact raised e t (counted.trans leads)
      · simp only [run]
        exact counted.trans leads

theorem shutDown_walks : s.memory.Walks {s.engine.counter} s.shutDown := by
  have among : ∀ {m t : Memory} {c : CounterId}, c = s.engine.counter → m.Walks {c} t →
      m.Walks {s.engine.counter} t := by
    rintro m t c rfl walks
    exact walks
  -- the last pass follows wherever the roots have gone
  have collected : ∀ {m : Memory}, s.memory.Walks {s.engine.counter} m →
      s.memory.Walks {s.engine.counter} ((Memory.collect s.engine.counter).attempt m) :=
    fun walks => walks.trans (collect_walking (Set.mem_singleton _)
      (proper.bound.trans_le (walks.extends proper.apart).counters)).attempt
  have stack := among proper.stack (Stack.drop_walks proper.onStack)
  rw [shutDown]
  cases found : s.engine.statics with
  | none =>
    simp only
    exact collected stack
  | some slot =>
    simp only
    obtain ⟨same, known⟩ := proper.statics_walk stack slot found
    have bound := proper.bound.trans_le (stack.extends proper.apart).counters
    have hosted : Slot.Hosted (s.engine.stack.drop s.memory, slot) :=
      ⟨stack.apart proper.apart, same ▸ bound, known⟩
    exact collected (stack.trans (among same (Slot.drop_walks hosted)))

end Parts

end Machine

end LiveItems
