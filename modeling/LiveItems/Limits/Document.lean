import LiveItems.Limits.Basic
import LiveItems.Toml.Document
set_option autoImplicit false

namespace LiveItems.Limits

def maxLiveItemsKey : String := "max_live_items"

def collectionIntervalKey : String := "collection_interval"

/-- The document of some limits. A number that is no 64-bit integer with sign cannot be written. -/
def write? (l : Limits) : Option String :=
  if l.maxLiveItems < Nat.pow 2 63 then
    some
      s!"{maxLiveItemsKey} = {l.maxLiveItems}\n{collectionIntervalKey} = {l.collectionInterval}\n"
  else none

def numberAt? (es : Toml.Entries) (key : String) (bound default : Nat) : Option Nat :=
  match es.lookup key with
  | none => some default
  | some (.scalar (.integer n)) => if 0 ≤ n ∧ n < bound then some n.toNat else none
  | some _ => none

def ofEntries? (es : Toml.Entries) : Option Limits := do
  let standard : Limits := {}
  let maxLiveItems ← numberAt? es maxLiveItemsKey (Nat.pow 2 64) standard.maxLiveItems
  let collectionInterval ←
    numberAt? es collectionIntervalKey (Nat.pow 2 32) standard.collectionInterval
  some { maxLiveItems, collectionInterval }

def read (text : String) : Except Error Limits := do
  match (Toml.readDocument? text).bind ofEntries? with
  | none => .error (.invalidConfiguration .unreadable)
  | some l => do
    l.validate
    return l

end LiveItems.Limits
