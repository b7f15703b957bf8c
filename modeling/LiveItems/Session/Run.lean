import LiveItems.Session.Perform
set_option autoImplicit false

namespace LiveItems

namespace Session

def performNamed (round : Nat) (command : Command) (saveAs : Option String) :
    Action Session Answer := do
  let answer ← perform round command
  match saveAs, answer.item? with
  | some name, some x => bind name x
  | _, _ => pure ()
  return answer

/-- Runs a body again and again, with the number of the round, until it fails. Answers with the
number of completed rounds. -/
def rounds {σ : Type} (body : Nat → σ → Except Error Unit × σ) :
    Nat → Nat → σ → Nat × Except Error Unit × σ
  | 0, done, s => (done, .ok (), s)
  | times + 1, done, s =>
    match body done s with
    | (.ok (), s) => rounds body times (done + 1) s
    | (.error e, s) => (done, .error e, s)

mutual

def runStep (round : Nat) : Step → Session → Report × Session
  | .perform command saveAs _, s =>
    let (result, s) := (performNamed round command saveAs).apply s
    (.command result s.readings, s)
  | .instruction body _, s =>
    match s.machine.enter with
    | .error e => (.instruction (.error e) s.readings [], s)
    | .ok () =>
      let (reports, result, s) := runBody round body s
      let (result, machine) := Machine.conclude result s.machine
      let s := { s with machine }
      (.instruction result s.readings reports, s)
  | .loop times body _, s =>
    let (done, result, s) := rounds (fun round s => (runBody round body s).2) times 0 s
    (.loop result s.readings done, s)

def runBody (round : Nat) : List Step → Session → List Report × Except Error Unit × Session
  | [], s => ([], .ok (), s)
  | step :: rest, s =>
    let (report, s) := runStep round step s
    match report.outcome, step.isCaught with
    | .error e, false => ([report], .error e, s)
    | _, _ =>
      let (reports, result, s) := runBody round rest s
      (report :: reports, result, s)

end

def run : List Step → Session → List Report × Session
  | [], s => ([], s)
  | step :: rest, s =>
    let (report, s) := runStep 0 step s
    let (reports, s) := run rest s
    (report :: reports, s)

end Session

end LiveItems
