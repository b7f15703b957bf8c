import LiveItems.Proofs.Stages
set_option autoImplicit false

namespace LiveItems

namespace Session

def Move.failure? : Move → Option Error
  | .concluded _ (.error e) _ _ => some e
  | _ => none

variable {s t : Session} {moves : List Move}

theorem Move.failure?_eq_some_iff {move : Move} {e : Error} :
    move.failure? = some e ↔
      ∃ body before after, move = .concluded body (.error e) before after := by
  rcases move with _ | ⟨body, _ | _, before, after⟩ <;> simp [failure?]

theorem Move.exists_failure_iff :
    moves.filterMap Move.failure? ≠ [] ↔
      ∃ body e before after, .concluded body (.error e) before after ∈ moves := by
  constructor
  · intro some
    obtain ⟨e, failed⟩ := List.exists_mem_of_ne_nil _ some
    obtain ⟨move, among, same⟩ := List.mem_filterMap.1 failed
    obtain ⟨body, before, after, rfl⟩ := failure?_eq_some_iff.1 same
    exact ⟨body, e, before, after, among⟩
  · rintro ⟨body, e, before, after, among⟩
    exact List.ne_nil_of_mem (List.mem_filterMap.2 ⟨_, among, rfl⟩)

/-- The fault after a move is its error, or what it was. -/
theorem Move.Lawful.fault_after {move : Move} (lawful : move.Lawful) :
    move.after.fault = move.failure?.or move.before.fault := by
  match move, lawful with
  | .performed _ _ _ _, .inl stays => exact stays.fault
  | .performed _ _ _ _, .inr ⟨_, _, _, _, same⟩ => exact same
  | .concluded _ (.ok ()) _ _, ⟨_, stays⟩ => exact stays.fault
  | .concluded _ (.error _) _ _, ⟨_, _, recorded⟩ => exact recorded

theorem Move.Linked.fault_eq (linked : Move.Linked s moves t)
    (lawful : ∀ move ∈ moves, move.Lawful) :
    t.fault = (moves.filterMap Move.failure?).getLast?.or s.fault := by
  induction moves generalizing s with
  | nil =>
    obtain rfl := linked
    rfl
  | cons move moves ih =>
    obtain ⟨rfl, rest⟩ := linked
    have first := (lawful move List.mem_cons_self).fault_after
    rw [ih rest fun other among => lawful other (.tail _ among), first, ← Option.or_assoc]
    cases failed : move.failure? with
    | none => rw [List.filterMap_cons_none failed, Option.or_none]
    | some e =>
      rw [List.filterMap_cons_some failed, List.getLast?_cons]
      cases (moves.filterMap Move.failure?).getLast? <;> rfl

theorem FaultRecorded.linked (recorded : s.FaultRecorded) (linked : Move.Linked s moves t)
    (lawful : ∀ move ∈ moves, move.Lawful) : t.FaultRecorded := by
  induction moves generalizing s with
  | nil =>
    obtain rfl := linked
    exact recorded
  | cons move moves ih =>
    obtain ⟨rfl, rest⟩ := linked
    exact ih (recorded.move (lawful move List.mem_cons_self)) rest
      fun other among => lawful other (.tail _ among)

theorem Executes.recorded {limits : Limits} {supply : IdSupply}
    (execution : Executes (start limits supply) moves t) : t.FaultRecorded := by
  have initial : (start limits supply).FaultRecorded :=
    (by decide : (none : Option Error).isSome ↔ Stage.ready = .faulted)
  exact initial.linked execution.linked execution.lawful

/-- After any history, an instruction that succeeds leaves a faulted engine exactly when an
instruction in its body has failed. The recorded fault is the error of the last such one, and there
is none when no instruction in the body has failed. -/
theorem Executes.success_faulted_iff {limits : Limits} {supply : IdSupply} {earlier : List Move}
    {given : Except Error Unit} {machine : Machine}
    (history : Executes (start limits supply) earlier s) (entered : s.machine.enter = .ok ())
    (body : Executes s moves t) (ended : Machine.conclude given t.machine = (.ok (), machine)) :
    (stage { t with machine } = .faulted ↔
      ∃ inner e before after, .concluded inner (.error e) before after ∈ moves) ∧
    fault { t with machine } = (moves.filterMap Move.failure?).getLast? := by
  -- the engine could start the instruction, so it had no fault then
  have unrecorded : s.fault = none := by
    refine Option.not_isSome_iff_eq_none.1 fun recorded => ?_
    have running := not_final_of_enter entered
    rw [history.recorded.1 recorded] at running
    exact absurd running (by decide)
  have stays : t.Stays { t with machine } := (concluded_lawful entered body.linked ended).2
  have last : fault { t with machine } = (moves.filterMap Move.failure?).getLast? := by
    refine stays.fault.trans ?_
    change t.fault = _
    rw [body.linked.fault_eq body.lawful, unrecorded, Option.or_none]
  have recorded : FaultRecorded { t with machine } := (history.append body).recorded.stays stays
  rw [FaultRecorded, last, List.getLast?_isSome, Move.exists_failure_iff] at recorded
  exact ⟨recorded.symm, last⟩

/-- A pop fails in a nested instruction, and the body goes on. -/
def concealing : List Step := [.instruction [.perform (.onEngine .pop) none false] true]

theorem success_faulted_concealing :
    ((run [.instruction concealing false] (start {} default)).1.map Report.outcome = [.ok ()]) ∧
      (run [.instruction concealing false] (start {} default)).2.stage = .faulted ∧
      (run [.instruction concealing false] (start {} default)).2.fault =
        some (.invariantViolation .popFromEmpty) := by
  have body := runBody_executes 0 concealing (start {} default)
  have ended : Machine.conclude (.ok ()) (runBody 0 concealing (start {} default)).2.2.machine =
      (.ok (), (run [.instruction concealing false] (start {} default)).2.machine) := rfl
  obtain ⟨faulted, fault⟩ := Executes.success_faulted_iff (.done _) rfl body ended
  refine ⟨rfl, faulted.2 ?_, fault.trans rfl⟩
  exact ⟨_, _, _, _, List.mem_of_getLast? rfl⟩

/-- The success of an instruction does not say that the engine has no fault. -/
theorem not_unfaulted_of_success :
    ¬∀ (s : Session) (round : Nat) (body : List Step) (caught : Bool),
      (runStep round (.instruction body caught) s).1.outcome = .ok () →
        (runStep round (.instruction body caught) s).2.stage ≠ .faulted ∧
          (runStep round (.instruction body caught) s).2.fault = none := by
  intro unfaulted
  exact (unfaulted (start {} default) 0 concealing false rfl).1 rfl

end Session

end LiveItems
