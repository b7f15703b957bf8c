import LiveItems.Proofs.Session.Walks
set_option autoImplicit false

namespace LiveItems

open LiveItems.Action (Ends)
open Memory

namespace Session

/-- What a host may do to a session: perform a command, end an instruction with any result, or end
the session. -/
inductive Act where
  | perform (round : Nat) (command : Command) (saveAs : Option String)
  | conclude (result : Except Error Unit)
  | close

def Act.InRange (counters : Nat) : Act → Prop
  | perform _ command _ => command.InRange counters
  | _ => True

def act (s : Session) : Act → Session
  | .perform round command saveAs => (performNamed round command saveAs).attempt s
  | .conclude result => { s with machine := (Machine.conclude result s.machine).2 }
  | .close => s.close

/-- The counters that an act may change. The end of a session concerns all stacks and slots. -/
def affects (s : Session) : Act → Set CounterId
  | .perform _ command _ => s.concerns command
  | .conclude _ => {s.machine.engine.counter}
  | .close => insert s.machine.engine.counter
      {c | ∃ name, c ∈ s.stackCounter name ∨ c ∈ s.slotCounter name}

inductive Arises : Session → Prop where
  | start (limits : Limits) (supply : IdSupply) : Arises (start limits supply)
  | act {s : Session} (a : Act) : Arises s → a.InRange s.memory.counters.length →
      Arises (s.act a)

variable {s t : Session} {A : Set CounterId}

theorem start_proper (limits : Limits) (supply : IdSupply) : (start limits supply).Proper := by
  have sound := start_sound True limits supply
  have apart : (start limits supply).memory.Apart := by
    refine ⟨sound.memory.heap, fun c => ?_⟩
    rw [start_counter]
    exact Counter.confined_fresh _
  exact ⟨⟨apart, Nat.one_pos, rfl, fun x hx => absurd hx List.not_mem_nil,
      fun slot found => absurd found (by simp [start])⟩,
    fun k stack found => absurd found (by simp [start]),
    fun k slot found => absurd found (by simp [start]),
    fun k x found => absurd found (by simp [start])⟩

theorem slotCounter_dropSlot (s : Session) (name k : String) :
    (s.dropSlot name).slotCounter k ⊆ s.slotCounter k := by
  rintro c ⟨slot, found, same⟩
  rw [namedSlots_dropSlot, Std.ExtTreeMap.getElem?_erase] at found
  exact ⟨slot, (Option.ite_none_left_eq_some.1 found).2, same⟩

theorem stackCounter_dropStack (s : Session) (name k : String) :
    (s.dropStack name).stackCounter k ⊆ s.stackCounter k := by
  rintro c ⟨stack, found, same⟩
  rw [namedStacks_dropStack, Std.ExtTreeMap.getElem?_erase] at found
  exact ⟨stack, (Option.ite_none_left_eq_some.1 found).2, same⟩

theorem engine_dropStack (s : Session) (name : String) :
    (s.dropStack name).machine.engine = s.machine.engine := by
  rw [dropStack]
  split <;> rfl

theorem beside_dropSlot (s : Session) (name : String) :
    (s.dropSlot name).machine.engine = s.machine.engine ∧
      (s.dropSlot name).namedStacks = s.namedStacks := by
  rw [dropSlot]
  split <;> exact ⟨rfl, rfl⟩

theorem dropSlots_leads (names : List String) : ∀ {s : Session}, s.Proper →
    (∀ name, s.slotCounter name ⊆ A) →
    Leads A s (names.foldl (fun s name => s.dropSlot name) s) ∧
      (names.foldl (fun s name => s.dropSlot name) s).machine.engine = s.machine.engine ∧
      (names.foldl (fun s name => s.dropSlot name) s).namedStacks = s.namedStacks := by
  induction names with
  | nil => exact fun proper _ => ⟨proper.refl A, rfl, rfl⟩
  | cons name names ih =>
    intro s proper sub
    have first := dropSlot_leads proper name
    obtain ⟨engine, kept⟩ := beside_dropSlot s name
    obtain ⟨rest, engine', kept'⟩ := ih first.proper fun k =>
      (slotCounter_dropSlot s name k).trans (sub k)
    exact ⟨Leads.trans ⟨first.walks.mono (sub name), first.proper⟩ rest, engine'.trans engine,
      kept'.trans kept⟩

theorem dropStacks_leads (names : List String) : ∀ {s : Session}, s.Proper →
    (∀ name, s.stackCounter name ⊆ A) →
    Leads A s (names.foldl (fun s name => s.dropStack name) s) ∧
      (names.foldl (fun s name => s.dropStack name) s).machine.engine = s.machine.engine := by
  induction names with
  | nil => exact fun proper _ => ⟨proper.refl A, rfl⟩
  | cons name names ih =>
    intro s proper sub
    have first := dropStack_leads proper name
    obtain ⟨rest, engine⟩ := ih first.proper fun k =>
      (stackCounter_dropStack s name k).trans (sub k)
    exact ⟨Leads.trans ⟨first.walks.mono (sub name), first.proper⟩ rest,
      engine.trans (engine_dropStack s name)⟩

theorem close_leads (proper : s.Proper) : Leads (s.affects .close) s s.close := by
  obtain ⟨first, engine, kept⟩ := dropSlots_leads (A := s.affects .close) s.namedSlots.keys proper
    fun name c hc => .inr ⟨name, .inr hc⟩
  have stacked : ∀ name, (s.namedSlots.keys.foldl (fun s name => s.dropSlot name) s).stackCounter
      name ⊆ s.affects .close := by
    rintro name c ⟨stack, found, same⟩
    rw [kept] at found
    exact .inr ⟨name, .inl ⟨stack, found, same⟩⟩
  obtain ⟨second, engine'⟩ := dropStacks_leads
    (s.namedSlots.keys.foldl (fun s name => s.dropSlot name) s).namedStacks.keys first.proper
    stacked
  have last := Machine.shutDown_walks second.proper.machine
  rw [engine'.trans engine] at last
  exact first.trans (second.trans (second.proper.setMemory
    (last.mono (Set.singleton_subset_iff.2 (Set.mem_insert _ _)))))

theorem act_leads (proper : s.Proper) (a : Act) (inRange : a.InRange s.memory.counters.length) :
    Leads (s.affects a) s (s.act a) := by
  cases a with
  | perform round command saveAs =>
    exact (performNamed_leading proper round command saveAs inRange).attempt
  | conclude result => exact conclude_leads proper result
  | close => exact close_leads proper

theorem Arises.proper (arises : Arises s) : s.Proper := by
  induction arises with
  | start limits supply => exact start_proper limits supply
  | act a _ inRange ih => exact (act_leads ih a inRange).proper

theorem Act.InRange.mono {a : Act} {counters more : Nat} (inRange : a.InRange counters)
    (le : counters ≤ more) : a.InRange more := by
  cases a with
  | perform round command saveAs =>
    cases command with
    | create name what =>
      cases what with
      | list kind items owner => exact fun c hc => (inRange c hc).trans_le le
      | map owner => exact fun c hc => (inRange c hc).trans_le le
      | _ => trivial
    | onCounter c command => exact Nat.lt_of_lt_of_le inRange le
    | newStack name c => exact Nat.lt_of_lt_of_le inRange le
    | newSlot name xs c => exact Nat.lt_of_lt_of_le inRange le
    | newNullSlot name n c => exact Nat.lt_of_lt_of_le inRange le
    | _ => trivial
  | _ => trivial

theorem Arises.acts {counters : Nat} (acts : List Act) : ∀ {s : Session}, Arises s →
    counters ≤ s.memory.counters.length → (∀ a ∈ acts, a.InRange counters) →
    Arises (acts.foldl Session.act s) := by
  induction acts with
  | nil => exact fun arises _ _ => arises
  | cons a acts ih =>
    intro s arises le inRange
    obtain ⟨first, others⟩ := List.forall_mem_cons.1 inRange
    have next := first.mono le
    have leads := act_leads arises.proper a next
    exact ih (.act a arises next)
      (le.trans (leads.walks.extends arises.proper.apart).counters) others

def actsOfRounds {σ : Type} (body : Nat → σ → List Act × Except Error Unit × σ) :
    Nat → Nat → σ → List Act
  | 0, _, _ => []
  | times + 1, done, s =>
    match body done s with
    | (acts, .ok (), s) => acts ++ actsOfRounds body times (done + 1) s
    | (acts, .error _, _) => acts

mutual

def actsOfStep (round : Nat) : Step → Session → List Act
  | .perform command saveAs _, _ => [.perform round command saveAs]
  | .instruction body _, s =>
    match s.machine.enter with
    | .error _ => []
    | .ok () => actsOfBody round body s ++ [.conclude (runBody round body s).2.1]
  | .loop times body _, s =>
    actsOfRounds (fun round s => (actsOfBody round body s, (runBody round body s).2)) times 0 s

def actsOfBody (round : Nat) : List Step → Session → List Act
  | [], _ => []
  | step :: rest, s =>
    let (report, t) := runStep round step s
    actsOfStep round step s ++
      match report.outcome, step.isCaught with
      | .error _, false => []
      | _, _ => actsOfBody round rest t

end

theorem rounds_acts (body : Nat → Session → List Act × Except Error Unit × Session)
    (each : ∀ round s, (body round s).2.2 = (body round s).1.foldl act s) :
    ∀ (times done : Nat) (s : Session),
      (rounds (fun round s => (body round s).2) times done s).2.2 =
        (actsOfRounds body times done s).foldl act s := by
  intro times
  induction times with
  | zero => exact fun _ _ => rfl
  | succ times ih =>
    intro done s
    have next := each done s
    rw [rounds, actsOfRounds]
    generalize body done s = outcome at next ⊢
    obtain ⟨acts, result, t⟩ := outcome
    cases result with
    | error e => exact next
    | ok u =>
      obtain rfl : t = acts.foldl act s := next
      rw [List.foldl_append]
      exact ih (done + 1) _

mutual

theorem runStep_acts (round : Nat) : ∀ (step : Step) (s : Session),
    (runStep round step s).2 = (actsOfStep round step s).foldl act s
  | .perform command saveAs _, s => by
    rw [runStep, actsOfStep]
    rfl
  | .instruction body _, s => by
    rw [runStep, actsOfStep]
    cases s.machine.enter with
    | error e => rfl
    | ok u =>
      simp only
      rw [List.foldl_append, ← runBody_acts round body s]
      rfl
  | .loop times body _, s => by
    rw [runStep, actsOfStep]
    exact rounds_acts (fun round s => (actsOfBody round body s, (runBody round body s).2))
      (fun round s => runBody_acts round body s) times 0 s

/-- A run of steps comes to what its acts come to. -/
theorem runBody_acts (round : Nat) : ∀ (body : List Step) (s : Session),
    (runBody round body s).2.2 = (actsOfBody round body s).foldl act s
  | [], s => by
    rw [runBody, actsOfBody]
    rfl
  | step :: rest, s => by
    have first := runStep_acts round step s
    rw [runBody, actsOfBody]
    generalize runStep round step s = outcome at first ⊢
    obtain ⟨report, t⟩ := outcome
    obtain rfl : t = _ := first
    have others := runBody_acts round rest ((actsOfStep round step s).foldl act s)
    rw [← List.foldl_append] at others
    simp only
    match report.outcome, step.isCaught with
    | .error e, false => rw [List.append_nil]
    | .error e, true => exact others
    | .ok u, caught => exact others

end

end Session

end LiveItems
