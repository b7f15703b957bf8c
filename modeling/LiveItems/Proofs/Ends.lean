import Mathlib.Order.Defs.Unbundled
import LiveItems.Action
set_option autoImplicit false

/-!
# How actions end

What an action leads to is stated for its success and for its failure, since a failed action leaves
a state as well. Most actions that fail are refused before they have changed anything. Where neither
the answers nor the states as such matter, it is enough that an action follows a preorder from every
state.
-/

namespace LiveItems.Action

variable {σ τ α β : Type}

/-- With success, the answer and the state are as `done` says; with failure, the error and the state
are as `failed` says. -/
def Ends (failed : Error → σ → Prop) (done : α → σ → Prop) (x : Action σ α) (s : σ) : Prop :=
  match x.apply s with
  | (.ok a, t) => done a t
  | (.error e, t) => failed e t

def Refused (s : σ) (e : Error) (t : σ) : Prop := (∃ why, e = .invalidOperation why) ∧ t = s

variable {failed failed' : Error → σ → Prop} {done done' : α → σ → Prop} {s t : σ}

theorem Ends.of_ok {x : Action σ α} {a : α} (run : x.apply s = (.ok a, t)) (answered : done a t) :
    Ends failed done x s := by
  rwa [Ends, run]

theorem Ends.of_error {x : Action σ α} {e : Error} (run : x.apply s = (.error e, t))
    (fails : failed e t) : Ends failed done x s := by
  rwa [Ends, run]

theorem Ends.ok {x : Action σ α} {a : α} (ends : Ends failed done x s)
    (run : x.apply s = (.ok a, t)) : done a t := by
  rwa [Ends, run] at ends

theorem Ends.error {x : Action σ α} {e : Error} (ends : Ends failed done x s)
    (run : x.apply s = (.error e, t)) : failed e t := by
  rwa [Ends, run] at ends

theorem Ends.cases {x : Action σ α} (ends : Ends failed done x s) :
    (∃ e t, x.apply s = (.error e, t) ∧ failed e t) ∨ ∃ a t, x.apply s = (.ok a, t) ∧ done a t := by
  rcases run : x.apply s with ⟨e | a, t⟩
  · exact .inl ⟨e, t, rfl, ends.error run⟩
  · exact .inr ⟨a, t, rfl, ends.ok run⟩

theorem Ends.mono {x : Action σ α} (ends : Ends failed done x s)
    (worse : ∀ e t, failed e t → failed' e t) (better : ∀ a t, done a t → done' a t) :
    Ends failed' done' x s := by
  rcases ends.cases with ⟨e, t, run, fails⟩ | ⟨a, t, run, answered⟩
  · exact .of_error run (worse e t fails)
  · exact .of_ok run (better a t answered)

theorem Ends.imp {x : Action σ α} (ends : Ends failed done x s)
    (better : ∀ a t, done a t → done' a t) : Ends failed done' x s :=
  ends.mono (fun _ _ fails => fails) better

theorem Ends.worsen {x : Action σ α} (ends : Ends failed done x s)
    (worse : ∀ e t, failed e t → failed' e t) : Ends failed' done x s :=
  ends.mono worse fun _ _ answered => answered

theorem Ends.and {x : Action σ α} (first : Ends failed done x s) (second : Ends failed' done' x s) :
    Ends (fun e t => failed e t ∧ failed' e t) (fun a t => done a t ∧ done' a t) x s := by
  rcases first.cases with ⟨e, t, run, fails⟩ | ⟨a, t, run, answered⟩
  · exact .of_error run ⟨fails, second.error run⟩
  · exact .of_ok run ⟨answered, second.ok run⟩

theorem Ends.pure {a : α} (answered : done a s) : Ends failed done (pure a : Action σ α) s :=
  answered

theorem Ends.throw {e : Error} (fails : failed e s) : Ends failed done (throw e : Action σ α) s :=
  fails

theorem Ends.refuse {why : Refusal} (fails : failed (.invalidOperation why) s) :
    Ends failed done (refuse why : Action σ α) s := fails

theorem Ends.violate {why : Violation} (fails : failed (.invariantViolation why) s) :
    Ends failed done (violate why : Action σ α) s := fails

theorem Refused.intro (why : Refusal) (s : σ) : Refused s (.invalidOperation why) s :=
  ⟨⟨why, rfl⟩, rfl⟩

theorem Ends.lift {e : Except Error α} (fails : ∀ why, e = .error why → failed why s)
    (answered : ∀ a, e = .ok a → done a s) : Ends failed done (liftM e : Action σ α) s := by
  cases e with
  | ok a => exact answered a rfl
  | error why => exact fails why rfl

theorem Ends.bind {mid : β → σ → Prop} {x : Action σ β} {f : β → Action σ α}
    (first : Ends failed mid x s) (next : ∀ b t, mid b t → Ends failed done (f b) t) :
    Ends failed done (x >>= f) s := by
  rcases first.cases with ⟨e, t, run, fails⟩ | ⟨b, t, run, answered⟩
  · refine .of_error (t := t) (e := e) ?_ fails
    rw [apply_bind, run]
  · have after := next b t answered
    rw [Ends] at after ⊢
    rwa [apply_bind, run]

/-- Two actions that lead along a transitive relation do so one after the other as well. -/
theorem Ends.along {step : σ → σ → Prop} [IsTrans σ step] {mid : β → σ → Prop}
    {post : α → σ → Prop} {x : Action σ β} {f : β → Action σ α}
    (first : Ends (fun _ t => step s t) (fun b t => step s t ∧ mid b t) x s)
    (next : ∀ b t, step s t → mid b t →
      Ends (fun _ u => step t u) (fun a u => step t u ∧ post a u) (f b) t) :
    Ends (fun _ u => step s u) (fun a u => step s u ∧ post a u) (x >>= f) s := by
  refine first.bind fun b t reached => ?_
  obtain ⟨moved, answered⟩ := reached
  exact (next b t moved answered).mono (fun _ _ further => trans_of step moved further)
    fun _ _ further => ⟨trans_of step moved further.1, further.2⟩

theorem Ends.after {x : Action σ β} {b : β} {f : β → Action σ α}
    (run : x.apply s = (.ok b, t)) (next : Ends failed done (f b) t) :
    Ends failed done (x >>= f) s := by
  rw [Ends] at next ⊢
  rwa [apply_bind, run]

theorem Ends.get_bind {f : σ → Action σ α} (next : Ends failed done (f s) s) :
    Ends failed done (get >>= f) s := by
  rw [Ends] at next ⊢
  rwa [apply_bind, apply_get]

theorem Ends.onPart (part : σ → τ) {update : τ → σ → σ} {failed' : Error → τ → Prop}
    {done' : α → τ → Prop} {x : Action τ α} (ends : Ends failed' done' x (part s))
    (worse : ∀ e t, failed' e t → failed e (update t s))
    (better : ∀ a t, done' a t → done a (update t s)) :
    Ends failed done (x.onPart part update) s := by
  rcases ends.cases with ⟨e, t, run, fails⟩ | ⟨a, t, run, answered⟩
  · refine .of_error (e := e) (t := update t s) ?_ (worse e t fails)
    rw [apply_onPart, run]
  · refine .of_ok (a := a) (t := update t s) ?_ (better a t answered)
    rw [apply_onPart, run]

/-- Moves along the preorder, from every state and also when it fails. -/
def Follows (step : σ → σ → Prop) (x : Action σ α) : Prop := ∀ s, step s (x.apply s).2

variable {step step' : σ → σ → Prop}

theorem Follows.mono {x : Action σ α} (follows : Follows step' x) (sub : Subrelation step' step) :
    Follows step x := fun s => sub (follows s)

theorem Follows.get_bind {f : σ → Action σ α} (next : ∀ s, Follows step (f s)) :
    Follows step (get >>= f) := by
  intro s
  rw [apply_bind, apply_get]
  exact next s s

section Preorder

variable [IsPreorder σ step]

theorem Follows.pure (a : α) : Follows step (pure a : Action σ α) := fun s => refl_of step s

theorem Follows.throw (e : Error) : Follows step (throw e : Action σ α) := fun s => refl_of step s

theorem Follows.refuse (why : Refusal) : Follows step (refuse why : Action σ α) :=
  fun s => refl_of step s

theorem Follows.violate (why : Violation) : Follows step (violate why : Action σ α) :=
  fun s => refl_of step s

theorem Follows.lift (e : Except Error α) : Follows step (liftM e : Action σ α) := by
  cases e with
  | ok a => exact .pure a
  | error e => exact .throw e

theorem Follows.bind {x : Action σ β} {f : β → Action σ α} (first : Follows step x)
    (next : ∀ b, Follows step (f b)) : Follows step (x >>= f) := by
  intro s
  have moved := first s
  rw [apply_bind]
  rcases run : x.apply s with ⟨e | b, t⟩
  · rwa [run] at moved
  · rw [run] at moved
    exact trans_of step moved (next b t)

theorem Follows.answers {x : Action σ β} (follows : Follows step x) (f : β → α) :
    Follows step (x >>= fun b => Pure.pure (f b)) := follows.bind fun b => .pure (f b)

theorem Follows.forM {f : β → Action σ Unit} (each : ∀ b, Follows step (f b)) :
    ∀ bs : List β, Follows step (bs.forM f)
  | [] => .pure ()
  | b :: bs => (each b).bind fun _ => forM each bs

theorem Follows.forAll {f : β → Action σ Unit} (each : ∀ b, Follows step (f b)) (bs : List β) :
    Follows step (forAll f bs) := by
  induction bs with
  | nil => exact fun s => refl_of step s
  | cons b bs ih =>
    intro s
    rw [apply_forAll_cons]
    exact trans_of step (each b s) (ih _)

end Preorder

theorem Follows.modify {f : σ → σ} (moves : ∀ s, step s (f s)) :
    Follows step (modify f : Action σ PUnit) := moves

theorem Follows.onPart {part : σ → τ} {update : τ → σ → σ} {step' : τ → τ → Prop} {x : Action τ α}
    (follows : Follows step' x) (moves : ∀ s t, step' (part s) t → step s (update t s)) :
    Follows step (x.onPart part update) := fun s => moves s _ (follows (part s))

/-- From every state, `y` ends where the preorder leads to from the end of `x`. -/
def Prolongs (step : σ → σ → Prop) (x : Action σ α) (y : Action σ β) : Prop :=
  ∀ s, step (x.attempt s) (y.attempt s)

theorem Prolongs.onPart {part : σ → τ} {update : τ → σ → σ} {step' : τ → τ → Prop} {x : Action τ α}
    {y : Action τ β} (prolongs : Prolongs step' x y)
    (moves : ∀ s t u, step' t u → step (update t s) (update u s)) :
    Prolongs step (x.onPart part update) (y.onPart part update) :=
  fun s => moves s _ _ (prolongs (part s))

variable {γ : Type} [IsPreorder σ step]

theorem Prolongs.refl (x : Action σ α) : Prolongs step x x :=
  fun _ => refl_of step _

/-- What comes after the prolonged action may go on itself. -/
theorem Prolongs.more {x : Action σ α} {y : Action σ β} {f : β → Action σ γ}
    (prolongs : Prolongs step x y) (more : ∀ b, Follows step (f b)) :
    Prolongs step x (y >>= f) := by
  intro s
  have moved := prolongs s
  rw [attempt_eq, attempt_eq] at moved ⊢
  rw [apply_bind]
  rcases run : y.apply s with ⟨e | b, t⟩
  · rwa [run] at moved
  · rw [run] at moved
    exact trans_of step moved (more b t)

theorem Prolongs.bind (first : Action σ γ) {f : γ → Action σ α} {g : γ → Action σ β}
    (next : ∀ c, Prolongs step (f c) (g c)) : Prolongs step (first >>= f) (first >>= g) := by
  intro s
  rw [attempt_eq, attempt_eq, apply_bind, apply_bind]
  rcases first.apply s with ⟨e | c, t⟩
  · exact refl_of step t
  · exact next c t

end LiveItems.Action
