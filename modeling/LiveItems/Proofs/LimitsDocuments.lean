import LiveItems.Limits.Document
import LiveItems.Proofs.Toml.Lines
set_option autoImplicit false

namespace LiveItems

open Toml (FlatDocument Pair Line Trailer Writes)

def Toml.FlatDocument.given? (doc : FlatDocument) (key : String) : Option Int :=
  (doc.pairs.map fun p => (p.key, p.value)).lookup key

theorem Toml.Pair.lookup_entry (pairs : List Pair) (key : String) :
    (pairs.map Pair.entry).lookup key =
      ((pairs.map fun p => (p.key, p.value)).lookup key).map fun n => .scalar (.integer n) := by
  induction pairs with
  | nil => rfl
  | cons p pairs ih =>
    rw [List.map_cons, List.map_cons, Pair.entry, List.lookup_cons, List.lookup_cons, ih]
    cases key == p.key <;> rfl

theorem Toml.FlatDocument.given?_word {doc : FlatDocument} {key : String} {n : Int}
    (given : doc.given? key = some n) : -2 ^ 63 ≤ n ∧ n < 2 ^ 63 := by
  rw [FlatDocument.given?] at given
  generalize doc.pairs = pairs at given
  induction pairs with
  | nil => exact absurd given (by simp)
  | cons p pairs ih =>
    rw [List.map_cons, List.lookup_cons] at given
    split at given
    · exact Option.some.inj given ▸ p.word
    · exact ih given

namespace Limits

variable {doc : FlatDocument} {key : String} {n : Int} {bound default m : Nat}

theorem numberAt?_entries (doc : FlatDocument) (key : String) (bound default : Nat) :
    numberAt? (doc.pairs.map Pair.entry) key bound default =
      match doc.given? key with
      | none => some default
      | some n => if 0 ≤ n ∧ n < bound then some n.toNat else none := by
  rw [numberAt?, Pair.lookup_entry, FlatDocument.given?]
  cases (doc.pairs.map fun p => (p.key, p.value)).lookup key <;> rfl

theorem numberAt?_in_range (range : ∀ n ∈ doc.given? key, 0 ≤ n ∧ n < bound) :
    numberAt? (doc.pairs.map Pair.entry) key bound default =
      some ((doc.given? key).getD default).toNat := by
  rw [numberAt?_entries]
  cases given : doc.given? key with
  | none => rfl
  | some n => exact if_pos (range n given)

theorem range_of_numberAt?
    (number : numberAt? (doc.pairs.map Pair.entry) key bound default = some m)
    (positive : 0 < m) : ∀ n ∈ doc.given? key, 1 ≤ n ∧ n < bound := by
  rw [numberAt?_entries] at number
  intro n given
  rw [Option.mem_def.1 given] at number
  simp only at number
  split at number
  · rename_i range
    have same := Option.some.inj number
    omega
  · exact absurd number (by simp)

/-- A positive number of live items, and an interval of 32 bits that is not zero, where they are
given. -/
structure Admissible (doc : FlatDocument) : Prop where
  maxLiveItems : ∀ n ∈ doc.given? maxLiveItemsKey, 1 ≤ n
  collectionInterval : ∀ n ∈ doc.given? collectionIntervalKey, 1 ≤ n ∧ n < 2 ^ 32

/-- The values that are given, and the defaults of the others. -/
def ofDocument (doc : FlatDocument) : Limits where
  maxLiveItems := ((doc.given? maxLiveItemsKey).getD 2048).toNat
  collectionInterval := ((doc.given? collectionIntervalKey).getD 1).toNat

theorem validate_error {l : Limits} {e : Error} (invalid : l.validate = .error e) :
    ∃ why, e = .invalidConfiguration why := by
  unfold validate at invalid
  split at invalid
  · exact ⟨_, (Except.error.inj invalid).symm⟩
  · split at invalid
    · exact ⟨_, (Except.error.inj invalid).symm⟩
    · exact absurd invalid (by simp)

theorem Admissible.ofEntries?_eq (admissible : Admissible doc) :
    ofEntries? (doc.pairs.map Pair.entry) = some (ofDocument doc) := by
  have items : numberAt? (doc.pairs.map Pair.entry) maxLiveItemsKey (Nat.pow 2 64) 2048 =
      some (ofDocument doc).maxLiveItems := by
    refine numberAt?_in_range fun n hn => ?_
    have positive := admissible.maxLiveItems n hn
    have word := FlatDocument.given?_word hn
    have bound : Nat.pow 2 64 = 18446744073709551616 := rfl
    omega
  have interval : numberAt? (doc.pairs.map Pair.entry) collectionIntervalKey (Nat.pow 2 32) 1 =
      some (ofDocument doc).collectionInterval := by
    refine numberAt?_in_range fun n hn => ?_
    have range := admissible.collectionInterval n hn
    have bound : Nat.pow 2 32 = 4294967296 := rfl
    omega
  rw [ofEntries?]
  simp only [items, interval, Option.bind_eq_bind, Option.bind_some]

theorem Admissible.validate_ofDocument (admissible : Admissible doc) :
    (ofDocument doc).validate = .ok () := by
  have positive : ∀ (n? : Option Int) (default : Nat), 0 < default → (∀ n ∈ n?, 1 ≤ n) →
      0 < (n?.getD default).toNat := by
    intro n? default nonzero positive
    cases n? with
    | none => simpa using nonzero
    | some n =>
      have := positive n rfl
      simp only [Option.getD_some]
      omega
  rw [validate_eq_ok_iff]
  exact ⟨positive _ 2048 (by decide) admissible.maxLiveItems,
    positive _ 1 (by decide) fun n hn => (admissible.collectionInterval n hn).1⟩

theorem admissible_of_ofEntries? {l : Limits}
    (made : ofEntries? (doc.pairs.map Pair.entry) = some l) (valid : l.validate = .ok ()) :
    Admissible doc := by
  rw [ofEntries?] at made
  obtain ⟨items, first, made⟩ := Option.bind_eq_some_iff.1 made
  obtain ⟨interval, second, made⟩ := Option.bind_eq_some_iff.1 made
  obtain rfl := Option.some.inj made
  obtain ⟨some_items, some_interval⟩ := (validate_eq_ok_iff _).1 valid
  refine ⟨fun n hn => (range_of_numberAt? first some_items n hn).1, fun n hn => ?_⟩
  have range := range_of_numberAt? second some_interval n hn
  have bound : Nat.pow 2 32 = 4294967296 := rfl
  omega

theorem read_eq {text : String} {es : Toml.Entries} (document : Toml.readDocument? text = some es) :
    read text = match ofEntries? es with
      | none => .error (.invalidConfiguration .unreadable)
      | some l => l.validate.map fun _ => l := by
  rw [read, document, Option.bind_some]
  cases ofEntries? es with
  | none => rfl
  | some l =>
    simp only
    cases l.validate <;> rfl

/-- A flat document gives the limits that it says, or is refused. -/
theorem read_flat (distinct : (doc.pairs.map Pair.key).Nodup) :
    (Admissible doc → read doc.text = .ok (ofDocument doc)) ∧
      (¬Admissible doc → ∃ why, read doc.text = .error (.invalidConfiguration why)) := by
  rw [read_eq (Toml.readDocument?_flat doc distinct)]
  constructor
  · intro admissible
    simp only [admissible.ofEntries?_eq, admissible.validate_ofDocument]
    rfl
  · intro other
    cases made : ofEntries? (doc.pairs.map Pair.entry) with
    | none => exact ⟨_, rfl⟩
    | some l =>
      cases valid : l.validate with
      | ok => exact absurd (admissible_of_ofEntries? made valid) other
      | error e =>
        obtain ⟨why, rfl⟩ := validate_error valid
        exact ⟨why, by simp only [valid]; rfl⟩

def writtenPair (key : String) (nonempty : key.toList ≠ [])
    (bare : key.toList.all Toml.isBareKey = true) (n : Nat) (small : n < 2 ^ 63) : Pair where
  key
  literal := Nat.toDigits 10 n
  value := n
  nonempty
  bare
  writes := Toml.writes_toDigits n
  word := by omega

def written (l : Limits) (small : l.maxLiveItems < 2 ^ 63)
    (narrow : l.collectionInterval < 2 ^ 32) : FlatDocument where
  lines :=
    [({ pair := writtenPair maxLiveItemsKey (by decide) rfl l.maxLiveItems small }, .lf),
      ({ pair := writtenPair collectionIntervalKey (by decide) rfl l.collectionInterval
          (by omega) }, .lf)]

section Written

variable {l : Limits} (small : l.maxLiveItems < 2 ^ 63) (narrow : l.collectionInterval < 2 ^ 32)

theorem write?_eq : l.write? = some (l.written small narrow).text := by
  have fits : l.maxLiveItems < Nat.pow 2 63 := small
  rw [write?, if_pos fits, Option.some.injEq, ← String.toList_inj]
  simp [FlatDocument.text, FlatDocument.chars, Toml.bodyChars, written, writtenPair,
    Line.chars, Pair.chars, Trailer.chars, Toml.Break.chars, Nat.toString_eq_repr]
  rfl

theorem distinct_written : ((l.written small narrow).pairs.map Pair.key).Nodup := by
  have keys : [maxLiveItemsKey, collectionIntervalKey].Nodup := by decide
  exact keys

theorem given?_maxLiveItems :
    (l.written small narrow).given? maxLiveItemsKey = some (l.maxLiveItems : Int) := rfl

theorem given?_collectionInterval :
    (l.written small narrow).given? collectionIntervalKey = some (l.collectionInterval : Int) := rfl

theorem admissible_written : Admissible (l.written small narrow) ↔ l.validate = .ok () := by
  rw [validate_eq_ok_iff]
  constructor
  · rintro ⟨items, interval⟩
    have some_items := items _ (given?_maxLiveItems small narrow)
    have some_interval := interval _ (given?_collectionInterval small narrow)
    omega
  · rintro ⟨some_items, some_interval⟩
    refine ⟨fun n hn => ?_, fun n hn => ?_⟩
    · obtain rfl := Option.some.inj ((given?_maxLiveItems small narrow).symm.trans hn)
      omega
    · obtain rfl := Option.some.inj ((given?_collectionInterval small narrow).symm.trans hn)
      omega

theorem ofDocument_written : ofDocument (l.written small narrow) = l := by
  rw [ofDocument, given?_maxLiveItems, given?_collectionInterval]
  rfl

end Written

/-- Limits that are written are read back, if an execution can run with them, and are refused
otherwise. What is read from a flat document is what it says and the defaults of the rest, exactly
when all that it says is in range. -/
theorem read_documents :
    (∀ l : Limits, l.maxLiveItems ≤ 2 ^ 63 - 1 → l.collectionInterval ≤ 2 ^ 32 - 1 →
      ∃ text, l.write? = some text ∧ (l.validate = .ok () → read text = .ok l) ∧
        (l.validate ≠ .ok () → ∃ why, read text = .error (.invalidConfiguration why))) ∧
    ∀ doc : FlatDocument, (doc.pairs.map Pair.key).Nodup →
      (Admissible doc → read doc.text = .ok (ofDocument doc)) ∧
        (¬Admissible doc → ∃ why, read doc.text = .error (.invalidConfiguration why)) := by
  refine ⟨fun l small narrow => ?_, fun doc distinct => read_flat distinct⟩
  have small : l.maxLiveItems < 2 ^ 63 := by omega
  have narrow : l.collectionInterval < 2 ^ 32 := by omega
  obtain ⟨accepted, refused⟩ := read_flat (distinct_written small narrow)
  refine ⟨_, write?_eq small narrow, fun valid => ?_, fun invalid => ?_⟩
  · rw [accepted ((admissible_written small narrow).2 valid), ofDocument_written]
  · exact refused fun admissible => invalid ((admissible_written small narrow).1 admissible)

/-- Limits among other keys, in a layout that nothing writes. -/
def spread : FlatDocument where
  lines :=
    [({ trailer := { comment := some [' ', 'l', 'i', 'm', 'i', 't', 's'] } }, .crlf),
      ({ pair := some
          { key := collectionIntervalKey
            literal := ['0', 'x', '1', '_', '0']
            value := 16
            nonempty := by decide
            bare := rfl
            writes := .based .hexadecimal (.grouped rfl (.last rfl))
            word := by decide } }, .lf),
      ({ pair := some
          { key := "other"
            literal := ['-', '7']
            value := -7
            indent := ['\t']
            nonempty := by decide
            bare := rfl
            writes := .minus (.last rfl) (by decide)
            word := by decide }
         trailer := { blanks := [' '], comment := some [] } }, .lf)]
  last :=
    { pair := some
        { key := maxLiveItemsKey
          literal := ['+', '9']
          value := 9
          before := []
          nonempty := by decide
          bare := rfl
          writes := .plus (.last rfl) (by decide)
          word := by decide } }

/-- The largest limits that can be written are read back, and so are others that stand among other
keys. -/
theorem read_documents_spread :
    (∃ text, write? { maxLiveItems := 2 ^ 63 - 1, collectionInterval := 2 ^ 32 - 1 } = some text ∧
      read text = .ok { maxLiveItems := 2 ^ 63 - 1, collectionInterval := 2 ^ 32 - 1 }) ∧
    spread.text = "# limits\r\ncollection_interval = 0x1_0\n\tother = -7 #\nmax_live_items= +9" ∧
      read spread.text = .ok { maxLiveItems := 9, collectionInterval := 16 } := by
  obtain ⟨text, wrote, accepted, -⟩ := read_documents.1
    { maxLiveItems := 2 ^ 63 - 1, collectionInterval := 2 ^ 32 - 1 } le_rfl le_rfl
  have items : spread.given? maxLiveItemsKey = some 9 := rfl
  have interval : spread.given? collectionIntervalKey = some 16 := rfl
  have admissible : Admissible spread := by
    refine ⟨fun n hn => ?_, fun n hn => ?_⟩
    · obtain rfl := Option.some.inj (items.symm.trans hn)
      decide
    · obtain rfl := Option.some.inj (interval.symm.trans hn)
      decide
  exact ⟨⟨text, wrote, accepted rfl⟩, rfl, (read_documents.2 spread (by decide)).1 admissible⟩

end Limits

end LiveItems
