import LiveItems.Proofs.Counter.Obeys
set_option autoImplicit false

namespace LiveItems

open LiveItems.Action (Ends)

namespace Counter

def Confined (S : Set ItemId) (c : Counter) : Prop := ∀ a ∈ c.ids, a ∈ S

variable {S T : Set ItemId} {h : Heap} {c : Counter} {x : Item}

/-- A rule that allows objects of `S` any number of roots, and others none. -/
theorem confined_iff : c.Confined S ↔ c.Obeys fun a _ => a ∈ S :=
  ⟨fun confined a _ he => confined a (mem_ids_of_get? he), fun obeys a ha =>
    (mem_ids_iff.1 ha).elim fun e he => obeys a e he⟩

theorem confined_fresh (S : Set ItemId) : fresh.Confined S := confined_iff.2 (obeys_fresh _)

theorem Confined.mono (confined : c.Confined S) (sub : S ⊆ T) : c.Confined T :=
  fun a ha => sub (confined a ha)

section Register

variable (encloses : h.Encloses S) (confined : c.Confined S)
  (inside : ∀ id, x.id? = some id → id ∈ S)
include encloses confined inside

theorem Confined.addRoots (n : Nat) : (c.addRoots h x n).Confined S :=
  confined_iff.2 ((confined_iff.1 confined).addRoots encloses inside (fun _ _ => id)
    fun _ _ _ _ _ => id)

theorem Confined.suspect : (c.suspect h x).Confined S :=
  confined_iff.2 ((confined_iff.1 confined).suspect encloses inside)

theorem Confined.addOccurrence (parent : ItemId) : (c.addOccurrence h x parent).Confined S :=
  confined_iff.2 ((confined_iff.1 confined).addOccurrence encloses inside parent)

end Register

abbrev Confines {α : Type} (S : Set ItemId) (x : Action Counter α) (c : Counter) : Prop :=
  Ends (fun _ d => d.Confined S) (fun _ d => d.Confined S) x c

theorem Keeps.confines {α : Type} {x : Action Counter α} (keeps : Keeps (fun a _ => a ∈ S) x c) :
    Confines S x c :=
  keeps.mono (fun _ _ => confined_iff.2) fun _ _ => confined_iff.2

variable (confined : c.Confined S)
include confined

theorem removeRoot_confines (x : Item) : Confines S (removeRoot x) c :=
  Keeps.confines (removeRoot_ends (confined_iff.1 confined) x (fun _ _ => id) (fun _ _ _ => id)
    fun _ _ _ => id)

theorem removeOccurrence_confines (x : Item) (parent : ItemId) :
    Confines S (removeOccurrence x parent) c :=
  Keeps.confines (removeOccurrence_keeps (confined_iff.1 confined) x parent)

end Counter

namespace Pass

open Counter (Confined confined_iff)

structure Confined (S : Set ItemId) (p : Pass) : Prop where
  counter : p.counter.Confined S
  collected : ∀ a ∈ p.collected, a ∈ S

abbrev Confines {α : Type} (S : Set ItemId) (x : Action Pass α) (p : Pass) : Prop :=
  Ends (fun _ q => q.Confined S) (fun _ q => q.Confined S) x p

theorem sweep_confines {S : Set ItemId} {p : Pass} (confined : p.Confined S) :
    Confines S sweep p := by
  have obeys : p.Obeys fun a _ => a ∈ S := ⟨confined_iff.1 confined.counter, confined.collected⟩
  have kept : ∀ q : Pass, (q.Obeys fun a _ => a ∈ S) → q.Confined S := fun q obeys =>
    ⟨confined_iff.2 obeys.counter, obeys.collected⟩
  exact (sweep_keeps obeys).mono (fun _ q => kept q) fun _ q => kept q

end Pass

end LiveItems
