import LiveItems.Session.Run
import LiveItems.Limits.Document
import LiveItems.Proofs.Container.List
import LiveItems.Proofs.Container.Map
import LiveItems.Proofs.Accounting
import LiveItems.Proofs.Destruction
import LiveItems.Proofs.Ceiling
import LiveItems.Proofs.Errors
import LiveItems.Proofs.Cadence
import LiveItems.Proofs.Memory.Agree
import LiveItems.Proofs.Container.Agree
import LiveItems.Proofs.Roots.Agree
import LiveItems.Proofs.Session.Agree
import LiveItems.Proofs.Unobserved
import LiveItems.Proofs.Stages
import LiveItems.Proofs.Counter.Confined
import LiveItems.Proofs.Counter.Consistent
import LiveItems.Proofs.Memory.Calls
import LiveItems.Proofs.Memory.Walks
import LiveItems.Proofs.Container.Walks
import LiveItems.Proofs.Roots.Walks
import LiveItems.Proofs.Engine.Walks
import LiveItems.Proofs.Session.Walks
import LiveItems.Proofs.Session.Acts
import LiveItems.Proofs.Isolation
import LiveItems.Proofs.Misuse
import LiveItems.Proofs.Echoes
import LiveItems.Proofs.Heap.Rename
import LiveItems.Proofs.Counter.Rename
import LiveItems.Proofs.Graph.Rename
import LiveItems.Proofs.Counter.RenamePasses
import LiveItems.Proofs.Memory.Rename
import LiveItems.Proofs.Container.Rename
import LiveItems.Proofs.Roots.Rename
import LiveItems.Proofs.Engine.Rename
import LiveItems.Proofs.Session.Rename
import LiveItems.Proofs.Session.Echoes
import LiveItems.Proofs.Anonymity
import LiveItems.Proofs.Faults
import LiveItems.Proofs.Graph.Calls
import LiveItems.Proofs.OverRelease
import LiveItems.Proofs.Peaks
import LiveItems.OrderedMap.Replay
import LiveItems.Proofs.Container.Effects
import LiveItems.Proofs.MapHistory
import LiveItems.Proofs.SlotRollback
import LiveItems.Proofs.Counter.Rooting
import LiveItems.Proofs.LazyRegistration
import LiveItems.Proofs.Container.Unfold
import LiveItems.Proofs.Container.Copy
import LiveItems.Proofs.DeepCopy
import LiveItems.Proofs.LeastCascade
import LiveItems.Proofs.CandidateCompleteness
import LiveItems.Proofs.SignedBytes
import LiveItems.Proofs.KeyBounds
import LiveItems.Proofs.Toml.Numerals
import LiveItems.Proofs.Toml.Lines
import LiveItems.Proofs.LimitsDocuments
import LiveItems.Proofs.RegistrationReach
import LiveItems.Proofs.GarbageTest
