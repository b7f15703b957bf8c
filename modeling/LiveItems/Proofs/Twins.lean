import LiveItems.Proofs.Ends
set_option autoImplicit false

/-!
# Two runs side by side

The same work is done on two states that differ only in what must not matter. Unless a counter finds
a mismatch in one of the two runs, both give the same answer or the same error, and the states they
lead to are related again.
-/

namespace LiveItems.Action

variable {σ τ α β : Type}

/-- Fails with a violation, and not since there is nothing to pop. -/
def Violates (x : Action σ α) (s : σ) : Prop :=
  ∃ why, why ≠ .popFromEmpty ∧ (x.apply s).1 = .error (.invariantViolation why)

/-- Unless one of them violates, `x` from `s` and `y` from `t` end alike, in states that are related
as `failed` or `done` says. -/
def Twins (failed : σ → σ → Prop) (done : α → σ → σ → Prop) (x y : Action σ α) (s t : σ) : Prop :=
  x.Violates s ∨ y.Violates t ∨
    (∃ e s' t', x.apply s = (.error e, s') ∧ y.apply t = (.error e, t') ∧ failed s' t') ∨
    ∃ a s' t', x.apply s = (.ok a, s') ∧ y.apply t = (.ok a, t') ∧ done a s' t'

variable {failed failed' : σ → σ → Prop} {done done' : α → σ → σ → Prop} {x y : Action σ α}
  {s t s' t' : σ}

theorem Twins.of_error {e : Error} (first : x.apply s = (.error e, s'))
    (second : y.apply t = (.error e, t')) (related : failed s' t') :
    Twins failed done x y s t :=
  .inr (.inr (.inl ⟨e, s', t', first, second, related⟩))

theorem Twins.of_ok {a : α} (first : x.apply s = (.ok a, s')) (second : y.apply t = (.ok a, t'))
    (related : done a s' t') : Twins failed done x y s t :=
  .inr (.inr (.inr ⟨a, s', t', first, second, related⟩))

theorem Twins.mono (twins : Twins failed done x y s t) (worse : ∀ s t, failed s t → failed' s t)
    (better : ∀ a s t, done a s t → done' a s t) : Twins failed' done' x y s t := by
  rcases twins with first | second | ⟨e, s', t', run, run', related⟩ |
    ⟨a, s', t', run, run', related⟩
  · exact .inl first
  · exact .inr (.inl second)
  · exact .of_error run run' (worse _ _ related)
  · exact .of_ok run run' (better _ _ _ related)

theorem Twins.imp (twins : Twins failed done x y s t)
    (better : ∀ a s t, done a s t → done' a s t) : Twins failed done' x y s t :=
  twins.mono (fun _ _ related => related) better

theorem Twins.pure {a : α} (related : done a s t) :
    Twins failed done (pure a : Action σ α) (pure a) s t := .of_ok rfl rfl related

theorem Twins.throw {e : Error} (related : failed s t) :
    Twins failed done (throw e : Action σ α) (throw e) s t := .of_error rfl rfl related

theorem Twins.refuse {why : Refusal} (related : failed s t) :
    Twins failed done (refuse why : Action σ α) (refuse why) s t := .throw related

theorem Twins.violate {why : Violation} (related : failed s t) :
    Twins failed done (violate why : Action σ α) (violate why) s t := .throw related

theorem Twins.modify {f g : σ → σ} {done : PUnit → σ → σ → Prop} (related : done ⟨⟩ (f s) (g t)) :
    Twins failed done (modify f : Action σ PUnit) (modify g) s t := .of_ok rfl rfl related

theorem Twins.lift {e : Except Error α} (fails : failed s t)
    (answered : ∀ a, e = .ok a → done a s t) :
    Twins failed done (liftM e : Action σ α) (liftM e) s t := by
  cases e with
  | ok a => exact .pure (answered a rfl)
  | error why => exact .throw fails

theorem Violates.bind {f : α → Action σ β} (violates : x.Violates s) : (x >>= f).Violates s := by
  obtain ⟨why, other, run⟩ := violates
  refine ⟨why, other, ?_⟩
  rw [apply_bind]
  rcases all : x.apply s with ⟨r, u⟩
  rw [all] at run
  obtain rfl : r = .error (.invariantViolation why) := run
  rfl

theorem Twins.bind {mid : α → σ → σ → Prop} {done : β → σ → σ → Prop} {f g : α → Action σ β}
    (first : Twins failed mid x y s t)
    (next : ∀ a s t, mid a s t → Twins failed done (f a) (g a) s t) :
    Twins failed done (x >>= f) (y >>= g) s t := by
  rcases first with first | second | ⟨e, s', t', run, run', related⟩ |
    ⟨a, s', t', run, run', related⟩
  · exact .inl first.bind
  · exact .inr (.inl second.bind)
  · exact .of_error (by rw [apply_bind, run]) (by rw [apply_bind, run']) related
  · have after := next a s' t' related
    rw [Twins, Violates, Violates] at after ⊢
    rwa [apply_bind, apply_bind, run, run']

/-- `y` goes on with `f` after `x`, or goes `back` when `x` fails. -/
theorem Twins.undo {before : σ → σ → Prop} {mid : Unit → σ → σ → Prop} {x : Action σ Unit}
    {y f : Action σ α} (first : Twins before mid x x s t) (back : σ → σ)
    (undone : ∀ s e t, x.apply s = (.error e, t) → y.apply s = (.error e, back t))
    (continued : ∀ s t, x.apply s = (.ok (), t) → y.apply s = f.apply t)
    (worse : ∀ s t, before s t → failed (back s) (back t))
    (next : ∀ s t, mid () s t → Twins failed done f f s t) : Twins failed done y y s t := by
  have violates : ∀ u, x.Violates u → y.Violates u := by
    rintro u ⟨why, other, run⟩
    refine ⟨why, other, ?_⟩
    rw [undone u _ _ (Prod.ext run rfl)]
  rcases first with first | second | ⟨e, s', t', run, run', related⟩ |
    ⟨_, s', t', run, run', related⟩
  · exact .inl (violates s first)
  · exact .inr (.inl (violates t second))
  · exact .of_error (undone s e s' run) (undone t e t' run') (worse s' t' related)
  · have after := next s' t' related
    rw [Twins, Violates, Violates] at after ⊢
    rwa [continued s s' run, continued t t' run']

theorem Twins.get_bind {f g : σ → Action σ α} (next : Twins failed done (f s) (g t) s t) :
    Twins failed done (get >>= f) (get >>= g) s t := by
  rw [Twins, Violates, Violates] at next ⊢
  rwa [apply_bind, apply_bind, apply_get, apply_get]

theorem Twins.onPart {failed : τ → τ → Prop} {done : α → τ → τ → Prop} {x y : Action τ α}
    {part : σ → τ} {update : τ → σ → σ} (twins : Twins failed done x y (part s) (part t))
    (worse : ∀ u v, failed u v → failed' (update u s) (update v t))
    (better : ∀ a u v, done a u v → done' a (update u s) (update v t)) :
    Twins failed' done' (x.onPart part update) (y.onPart part update) s t := by
  rcases twins with violates | violates | ⟨e, u, v, run, run', related⟩ |
    ⟨a, u, v, run, run', related⟩
  · exact .inl violates
  · exact .inr (.inl violates)
  · refine .of_error (e := e) ?_ ?_ (worse u v related)
    · rw [apply_onPart, run]
    · rw [apply_onPart, run']
  · refine .of_ok (a := a) ?_ ?_ (better a u v related)
    · rw [apply_onPart, run]
    · rw [apply_onPart, run']

abbrev Faithful (x : Action σ α) : Prop :=
  ∀ s, Ends (fun e _ => ∃ why, e = .invariantViolation why ∧ why ≠ .popFromEmpty)
    (fun _ _ => True) x s

theorem Faithful.modify (f : σ → σ) : Faithful (modify f : Action σ PUnit) := fun _ => trivial

theorem Faithful.bind {x : Action σ α} {f : α → Action σ β} (first : Faithful x)
    (next : ∀ a, Faithful (f a)) : Faithful (x >>= f) :=
  fun s => (first s).bind fun a t _ => next a t

theorem Faithful.forM {f : β → Action σ Unit} (each : ∀ b, Faithful (f b)) :
    ∀ bs : List β, Faithful (bs.forM f)
  | [] => fun _ => trivial
  | b :: bs => (each b).bind fun _ => forM each bs

theorem Faithful.forAll {f : β → Action σ Unit} (each : ∀ b, Faithful (f b)) (bs : List β) :
    Faithful (forAll f bs) := by
  induction bs with
  | nil => exact fun _ => trivial
  | cons b bs ih =>
    intro s
    rw [Ends, apply_forAll_cons]
    rcases (each b s).cases with ⟨e, t, run, mismatch⟩ | ⟨a, t, run, -⟩
    · rw [run]
      exact mismatch
    · rw [run]
      exact ih t

/-- Unless it violates, such an action succeeds from both states. -/
theorem Faithful.twins {done : Unit → σ → σ → Prop} {x : Action σ Unit} (faithful : Faithful x)
    (related : done () (x.attempt s) (x.attempt t)) : Twins failed done x x s t := by
  rcases (faithful s).cases with ⟨e, s', run, why, rfl, other⟩ | ⟨_, s', run, -⟩
  · exact .inl ⟨why, other, congrArg Prod.fst run⟩
  rcases (faithful t).cases with ⟨e, t', run', why, rfl, other⟩ | ⟨_, t', run', -⟩
  · exact .inr (.inl ⟨why, other, congrArg Prod.fst run'⟩)
  rw [attempt_eq, attempt_eq, run, run'] at related
  exact .of_ok run run' related

end LiveItems.Action
