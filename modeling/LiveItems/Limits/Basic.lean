import LiveItems.Error
set_option autoImplicit false

namespace LiveItems

structure Limits where
  maxLiveItems : Nat := 2048
  collectionInterval : Nat := 1
  deriving Repr, DecidableEq, Inhabited

namespace Limits

/-- Limits that an execution can run with; a limit of zero live items is reported first. -/
def validate (l : Limits) : Except Error Unit :=
  if l.maxLiveItems = 0 then
    .error (.invalidConfiguration .zeroLiveItems)
  else if l.collectionInterval = 0 then
    .error (.invalidConfiguration .zeroInterval)
  else
    .ok ()

theorem validate_eq_ok_iff (l : Limits) :
    l.validate = .ok () ↔ 0 < l.maxLiveItems ∧ 0 < l.collectionInterval := by
  unfold validate
  split
  · simp; omega
  · split
    · simp; omega
    · simp; omega

end Limits

end LiveItems
