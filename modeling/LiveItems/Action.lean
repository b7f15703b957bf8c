import LiveItems.Error
set_option autoImplicit false

namespace LiveItems

/-- A change of a state that answers with a value or an error, and leaves a state in both cases. -/
abbrev Action (σ α : Type) := ExceptT Error (StateM σ) α

namespace Action

variable {σ τ α : Type}

def apply (x : Action σ α) (s : σ) : Except Error α × σ := x.run.run s

def of (f : σ → Except Error α × σ) : Action σ α := ExceptT.mk f

def refuse (why : Refusal) : Action σ α := throw (.invalidOperation why)

def violate (why : Violation) : Action σ α := throw (.invariantViolation why)

def onPart (part : σ → τ) (update : τ → σ → σ) (x : Action τ α) : Action σ α :=
  of fun s => let (r, t) := x.apply (part s); (r, update t s)

/-- Runs an action for its effect on the state and forgets how it ended. -/
def attempt (x : Action σ α) (s : σ) : σ := (x.apply s).2

/-- Does something for each element, to the end of the list even when it fails on some of them, and
answers with the first failure. -/
def forAll {β : Type} (f : β → Action σ Unit) (bs : List β) : Action σ Unit :=
  of fun s => bs.foldl
    (fun (r, s) b => let (r', s') := (f b).apply s; (r.bind fun _ => r', s')) (.ok (), s)

section Apply

variable {α β ρ : Type}

@[simp] theorem apply_of (f : σ → Except Error α × σ) (s : σ) : (of f).apply s = f s := rfl

@[simp] theorem apply_pure (a : α) (s : σ) : (pure a : Action σ α).apply s = (.ok a, s) := rfl

@[simp] theorem apply_throw (e : Error) (s : σ) :
    (throw e : Action σ α).apply s = (.error e, s) := rfl

@[simp] theorem apply_refuse (why : Refusal) (s : σ) :
    (refuse why : Action σ α).apply s = (.error (.invalidOperation why), s) := rfl

@[simp] theorem apply_violate (why : Violation) (s : σ) :
    (violate why : Action σ α).apply s = (.error (.invariantViolation why), s) := rfl

@[simp] theorem apply_get (s : σ) : (get : Action σ σ).apply s = (.ok s, s) := rfl

@[simp] theorem apply_set (s t : σ) : (set t : Action σ PUnit).apply s = (.ok ⟨⟩, t) := rfl

@[simp] theorem apply_modify (f : σ → σ) (s : σ) :
    (modify f : Action σ PUnit).apply s = (.ok ⟨⟩, f s) := rfl

/-- The second action starts where the first one has ended, and only when it has succeeded. -/
theorem apply_bind (x : Action σ α) (f : α → Action σ β) (s : σ) :
    (x >>= f).apply s =
      match x.apply s with
      | (.ok a, s') => (f a).apply s'
      | (.error e, s') => (.error e, s') := by
  change (match x s with | (r, s') => ExceptT.bindCont f r s') = _
  rcases h : x s with ⟨r, s'⟩
  have h : x.apply s = (r, s') := h
  rw [h]
  cases r <;> rfl

@[simp] theorem apply_map (f : α → β) (x : Action σ α) (s : σ) :
    (f <$> x).apply s = ((x.apply s).1.map f, (x.apply s).2) := by
  rw [map_eq_pure_bind, apply_bind]
  rcases x.apply s with ⟨r, s'⟩
  cases r <;> rfl

@[simp] theorem apply_onPart (part : σ → τ) (update : τ → σ → σ) (x : Action τ α) (s : σ) :
    (x.onPart part update).apply s =
      ((x.apply (part s)).1, update (x.apply (part s)).2 s) := rfl

@[simp] theorem apply_forM_nil (f : β → Action σ Unit) (s : σ) :
    (([] : List β).forM f).apply s = (.ok (), s) := rfl

theorem apply_forM_cons (f : β → Action σ Unit) (b : β) (bs : List β) (s : σ) :
    ((b :: bs).forM f).apply s =
      match (f b).apply s with
      | (.ok _, s') => (bs.forM f).apply s'
      | (.error e, s') => (.error e, s') := by
  change (f b >>= fun _ => bs.forM f).apply s = _
  rw [apply_bind]
  rcases (f b).apply s with ⟨r, s'⟩
  cases r <;> rfl

theorem attempt_eq (x : Action σ α) (s : σ) : x.attempt s = (x.apply s).2 := rfl

@[simp] theorem apply_forAll_nil (f : β → Action σ Unit) (s : σ) :
    (forAll f []).apply s = (.ok (), s) := rfl

theorem apply_forAll_cons (f : β → Action σ Unit) (b : β) (bs : List β) (s : σ) :
    (forAll f (b :: bs)).apply s =
      let first := (f b).apply s
      let others := (forAll f bs).apply first.2
      (first.1.bind fun _ => others.1, others.2) := by
  have carried : ∀ (bs : List β) (r : Except Error Unit) (s : σ),
      bs.foldl (fun (r, s) b => let (r', s') := (f b).apply s; (r.bind fun _ => r', s')) (r, s) =
        (r.bind fun _ => ((forAll f bs).apply s).1, ((forAll f bs).apply s).2) := by
    intro bs
    induction bs with
    | nil => intro r s; cases r <;> rfl
    | cons b bs ih =>
      intro r s
      have h := ih ((Except.ok ()).bind fun _ => ((f b).apply s).1) ((f b).apply s).2
      simp only [forAll, apply_of, List.foldl_cons] at h ih ⊢
      rw [ih, h]
      cases r <;> rfl
  exact carried bs ((Except.ok ()).bind fun _ => ((f b).apply s).1) ((f b).apply s).2

end Apply

end Action

end LiveItems
