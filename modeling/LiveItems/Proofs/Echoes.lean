import Mathlib.Logic.Embedding.Basic
import LiveItems.Action
import LiveItems.Item.Key
set_option autoImplicit false

namespace LiveItems

def Item.rename (f : ItemId ↪ ItemId) : Item → Item
  | leaf l => leaf l
  | object kind id => object kind (f id)

def Violation.rename (f : ItemId ↪ ItemId) : Violation → Violation
  | negativeCount => negativeCount
  | rootOfUntracked id => rootOfUntracked (f id)
  | negativeRoots id => negativeRoots (f id)
  | valueNotHeld parent => valueNotHeld (f parent)
  | negativeEdge parent child => negativeEdge (f parent) (f child)
  | releaseOfUntracked id => releaseOfUntracked (f id)
  | negativeReferences id => negativeReferences (f id)
  | freedWhileReferenced id => freedWhileReferenced (f id)
  | danglingEdge parent child => danglingEdge (f parent) (f child)
  | popFromEmpty => popFromEmpty
  | host text => host text

/-- Violations are the only errors that name objects. -/
def Error.rename (f : ItemId ↪ ItemId) : Error → Error
  | invalidOperation why => invalidOperation why
  | limitExceeded count limit => limitExceeded count limit
  | invariantViolation why => invariantViolation (why.rename f)
  | invalidConfiguration why => invalidConfiguration why

namespace Item

variable (f : ItemId ↪ ItemId)

@[simp] theorem type_rename (x : Item) : (x.rename f).type = x.type := by cases x <;> rfl

@[simp] theorem isCompound_rename (x : Item) : (x.rename f).isCompound = x.isCompound := by
  rw [isCompound, type_rename, isCompound]

@[simp] theorem id?_rename (x : Item) : (x.rename f).id? = x.id?.map f := by cases x <;> rfl

@[simp] theorem keySize_rename (x : Item) : (x.rename f).keySize = x.keySize := by
  cases x <;> rfl

theorem rename_injective : Function.Injective (rename f) := by
  intro x y same
  cases x with
  | leaf l =>
    cases y with
    | leaf l' => exact same
    | object kind' id' => cases same
  | object kind id =>
    cases y with
    | leaf l' => cases same
    | object kind' id' =>
      obtain ⟨rfl, image⟩ := object.inj same
      rw [f.injective image]

def embedding : Item ↪ Item := ⟨rename f, rename_injective f⟩

end Item

namespace Action

variable {f : ItemId ↪ ItemId} {σ σ' τ τ' α α' β β' : Type}

def renamed (f : ItemId ↪ ItemId) (g : α → α') : Except Error α → Except Error α'
  | .ok a => .ok (g a)
  | .error e => .error (e.rename f)

/-- From every state under the new names, `y` does what `x` does from the state. -/
def Echoes (f : ItemId ↪ ItemId) (g : α → α') (ρ : σ → σ') (y : Action σ' α') (x : Action σ α) :
    Prop :=
  ∀ s, y.apply (ρ s) = (renamed f g (x.apply s).1, ρ (x.apply s).2)

variable {g : α → α'} {h : β → β'} {ρ : σ → σ'} {π : τ → τ'} {x : Action σ α} {y : Action σ' α'}

@[simp] theorem renamed_ok (a : α) : renamed f g (.ok a) = .ok (g a) := rfl

@[simp] theorem renamed_error (e : Error) : renamed f g (.error e) = .error (e.rename f) := rfl

theorem Echoes.attempt (echoes : Echoes f g ρ y x) (s : σ) :
    y.attempt (ρ s) = ρ (x.attempt s) := congrArg Prod.snd (echoes s)

theorem Echoes.pure (a : α) : Echoes f g ρ (pure (g a)) (pure a) := fun _ => rfl

theorem Echoes.throw (e : Error) : Echoes f g ρ (throw (e.rename f)) (throw e) := fun _ => rfl

theorem Echoes.refuse (why : Refusal) : Echoes f g ρ (refuse why) (refuse why) := fun _ => rfl

theorem Echoes.violate (why : Violation) :
    Echoes f g ρ (violate (why.rename f)) (violate why) := fun _ => rfl

theorem Echoes.modify {u : σ → σ} {u' : σ' → σ'} (same : ∀ s, u' (ρ s) = ρ (u s)) :
    Echoes f id ρ (modify u' : Action σ' PUnit) (modify u) := fun s =>
  Prod.ext rfl (same s)

theorem Echoes.lift {e : Except Error α} {e' : Except Error α'} (same : e' = renamed f g e) :
    Echoes f g ρ (liftM e') (liftM e) := by
  subst same
  cases e <;> exact fun _ => rfl

theorem Echoes.bind {k : α → Action σ β} {k' : α' → Action σ' β'} (first : Echoes f g ρ y x)
    (next : ∀ a, Echoes f h ρ (k' (g a)) (k a)) : Echoes f h ρ (y >>= k') (x >>= k) := by
  intro s
  rw [apply_bind, apply_bind, first s]
  rcases x.apply s with ⟨e | a, t⟩
  · rfl
  · exact next a t

theorem Echoes.get_bind {k : σ → Action σ β} {k' : σ' → Action σ' β'}
    (next : ∀ s, Echoes f h ρ (k' (ρ s)) (k s)) : Echoes f h ρ (get >>= k') (get >>= k) := by
  intro s
  rw [apply_bind, apply_bind, apply_get, apply_get]
  exact next s s

theorem Echoes.map {k : α → β} {k' : α' → β'} (echoes : Echoes f g ρ y x)
    (same : ∀ a, k' (g a) = h (k a)) : Echoes f h ρ (do return k' (← y)) (do return k (← x)) := by
  refine echoes.bind fun a => ?_
  rw [same]
  exact .pure (k a)

theorem Echoes.read {k : σ → β} {k' : σ' → β'} (same : ∀ s, k' (ρ s) = h (k s)) :
    Echoes f h ρ (do return k' (← MonadState.get)) (do return k (← MonadState.get)) := by
  refine .get_bind fun s => ?_
  rw [same]
  exact .pure (k s)

theorem Echoes.ite {p q : Prop} [Decidable p] [Decidable q] {x₁ x₂ : Action σ α}
    {y₁ y₂ : Action σ' α'} (same : q ↔ p) (yes : Echoes f g ρ y₁ x₁)
    (no : Echoes f g ρ y₂ x₂) :
    Echoes f g ρ (if q then y₁ else y₂) (if p then x₁ else x₂) := by
  by_cases holds : p
  · rw [if_pos holds, if_pos (same.2 holds)]
    exact yes
  · rw [if_neg holds, if_neg (mt same.1 holds)]
    exact no

theorem Echoes.onPart {part : σ → τ} {part' : σ' → τ'} {update : τ → σ → σ}
    {update' : τ' → σ' → σ'} {x : Action τ α} {y : Action τ' α'} (echoes : Echoes f g π y x)
    (reads : ∀ s, part' (ρ s) = π (part s))
    (writes : ∀ t s, update' (π t) (ρ s) = ρ (update t s)) :
    Echoes f g ρ (y.onPart part' update') (x.onPart part update) := by
  intro s
  rw [apply_onPart, apply_onPart, reads, echoes (part s)]
  exact Prod.ext rfl (writes _ s)

theorem Echoes.forM {k : β → Action σ PUnit} {k' : β' → Action σ' PUnit}
    (each : ∀ b, Echoes f id ρ (k' (h b)) (k b)) (bs : List β) :
    Echoes f id ρ ((bs.map h).forM k') (bs.forM k) := by
  induction bs with
  | nil => exact .pure _
  | cons b bs ih => exact (each b).bind fun _ => ih

theorem Echoes.forAll {k : β → Action σ Unit} {k' : β' → Action σ' Unit}
    (each : ∀ b, Echoes f id ρ (k' (h b)) (k b)) (bs : List β) :
    Echoes f id ρ (forAll k' (bs.map h)) (forAll k bs) := by
  induction bs with
  | nil => exact .pure _
  | cons b bs ih =>
    intro s
    rw [List.map_cons, apply_forAll_cons, apply_forAll_cons]
    simp only [each b s, ih _]
    rcases (k b).apply s with ⟨e | a, t⟩ <;> rfl

end Action

end LiveItems
