set_option autoImplicit false

namespace LiveItems

inductive Stage where
  | ready
  | halted
  | faulted
  | paused
  deriving Repr, DecidableEq, Inhabited

namespace Stage

def all : List Stage := [ready, halted, faulted, paused]

def code : Stage → Nat
  | ready => 0
  | halted => 1
  | faulted => 2
  | paused => 4

def name : Stage → String
  | ready => "NONE"
  | halted => "HALT"
  | faulted => "FAULT"
  | paused => "BREAK"

def isFinal : Stage → Bool
  | halted | faulted => true
  | _ => false

end Stage

end LiveItems
