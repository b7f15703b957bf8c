import LiveItems.Proofs.MapHistory
import LiveItems.Proofs.SignedBytes
set_option autoImplicit false

namespace LiveItems

open LiveItems.Action (Ends Faithful)

/-- The items that are allowed as keys of maps. -/
def Item.AllowedKey : Item → Prop
  | .leaf (.boolean _) => True
  | .leaf (.integer n) => -2 ^ 511 ≤ n ∧ n < 2 ^ 511
  | .leaf (.byteString bytes) => bytes.length ≤ 64
  | _ => False

def Refusal.AboutKey : Refusal → Prop
  | .keyType _ => True
  | .keyTooLong _ => True
  | _ => False

namespace MapObject

open Memory

variable {α β : Type} {strict : Prop} {roots : CounterId → Multiset Item} {m : Memory} {id : ItemId}
  {es : OrderedMap Item Item} {k v : Item}

theorem isKey_iff : IsKey k ↔ k.AllowedKey := by
  have integer : ∀ n : Int, signedByteLength n ≤ maxKeySize ↔ -2 ^ 511 ≤ n ∧ n < 2 ^ 511 := by
    intro n
    rw [signedByteLength_le_iff]
    exact and_iff_right (by decide)
  constructor
  · rintro ⟨primitive, short⟩
    cases k with
    | object kind a => cases kind <;> exact (Bool.false_ne_true primitive).elim
    | leaf l =>
      cases l with
      | boolean b => trivial
      | integer n => exact (integer n).1 short
      | byteString bytes => exact short
      | null | pointer | interop => exact (Bool.false_ne_true primitive).elim
  · intro allowed
    cases k with
    | object kind a => exact allowed.elim
    | leaf l =>
      cases l with
      | boolean b => exact ⟨rfl, (by decide : 1 ≤ maxKeySize)⟩
      | integer n => exact ⟨rfl, (integer n).2 allowed⟩
      | byteString bytes => exact ⟨rfl, allowed⟩
      | null | pointer | interop => exact allowed.elim

theorem mustBeKey_refused (other : ¬IsKey k) (m : Memory) : ∃ why : Refusal, why.AboutKey ∧
    (mustBeKey k).apply m = (.error (.invalidOperation why), m) := by
  by_cases primitive : k.type.isPrimitive
  · have long : k.keySize > maxKeySize := Nat.not_le.1 fun short => other ⟨primitive, short⟩
    refine ⟨.keyTooLong k.keySize, trivial, ?_⟩
    simp only [mustBeKey, primitive, Bool.not_true, Bool.false_eq_true, if_false, if_pos long,
      Action.apply_refuse]
  · refine ⟨.keyType k.type, trivial, ?_⟩
    simp only [mustBeKey, primitive, Bool.not_false, if_true, Action.apply_refuse]

/-- What can be asked of a map with a key. -/
inductive KeyCall where
  | get
  | contains
  | set (v : Item)
  | remove

namespace KeyCall

def perform (id : ItemId) (k : Item) : KeyCall → Action Memory Unit
  | get => (fun _ => ()) <$> get? id k
  | contains => (fun _ => ()) <$> MapObject.contains id k
  | set v => (fun _ => ()) <$> MapObject.set id k v
  | remove => (fun _ => ()) <$> MapObject.remove id k

/-- Nothing but the key can be in the way: a map that is changed is writable, and a value that it
is given exists and may be held by it. -/
def Permitted (m : Memory) (id : ItemId) : KeyCall → Prop
  | get => True
  | contains => True
  | set v => m.heap.isReadOnly id = false ∧ m.heap.Knows v ∧
      ∀ c, m.heap.owner id = some c → v.isCompound → m.heap.ownerOf v = some c
  | remove => m.heap.isReadOnly id = false

theorem perform_refused (call : KeyCall) (other : ¬IsKey k) (id : ItemId) (m : Memory) :
    ∃ why : Refusal, why.AboutKey ∧
      (call.perform id k).apply m = (.error (.invalidOperation why), m) := by
  obtain ⟨why, complaint, refused⟩ := mustBeKey_refused other m
  refine ⟨why, complaint, ?_⟩
  cases call with
  | get => rw [perform, Action.apply_map, get?, Action.apply_bind, refused]; rfl
  | contains => rw [perform, Action.apply_map, MapObject.contains, Action.apply_bind, refused]; rfl
  | set v => rw [perform, Action.apply_map, MapObject.set, Action.apply_bind, refused]; rfl
  | remove => rw [perform, Action.apply_map, MapObject.remove, Action.apply_bind, refused]; rfl

end KeyCall

abbrev Keyless (x : Action Memory α) : Prop :=
  ∀ m, Ends (fun e _ => ∀ why, e = .invalidOperation why → ¬why.AboutKey) (fun _ _ => True) x m

theorem Keyless.bind {x : Action Memory β} {f : β → Action Memory α} (first : Keyless x)
    (next : ∀ b, Keyless (f b)) : Keyless (x >>= f) :=
  fun m => (first m).bind fun b t _ => next b t

theorem Keyless.get_bind {f : Memory → Action Memory α} (next : ∀ m, Keyless (f m)) :
    Keyless (get >>= f) := fun m => .get_bind (next m m)

theorem Keyless.pure (a : α) : Keyless (pure a : Action Memory α) := fun _ => trivial

theorem Keyless.refuse {why : Refusal} (other : ¬why.AboutKey) :
    Keyless (Action.refuse why : Action Memory α) := by
  intro m why' same
  obtain rfl := Error.invalidOperation.inj same
  exact other

theorem Keyless.of_faithful {x : Action Memory Unit} (faithful : Faithful x) : Keyless x := by
  refine fun m => (faithful m).worsen ?_
  rintro _ _ ⟨why, rfl, -⟩ _ same
  exact absurd same (by simp)

theorem keyless_mustBeKey (key : IsKey k) : Keyless (mustBeKey k) :=
  fun m => .of_ok (mustBeKey_ok key m) trivial

theorem keyless_mustAccept (id : ItemId) (x : Item) : Keyless (mustAccept id x) := by
  refine .get_bind fun m => ?_
  cases m.heap.owner id with
  | none => exact .pure ()
  | some c =>
    refine .get_bind fun m => ?_
    split
    · exact .refuse fun complaint => complaint
    · exact .pure ()

theorem keyless_mustBeWritable (id : ItemId) : Keyless (mustBeWritable id) := by
  refine .get_bind fun m => ?_
  split
  · exact .refuse fun complaint => complaint
  · exact .pure ()

theorem keyless_reportAdded (id : ItemId) (x : Item) : Keyless (reportAdded id x) := by
  have belongs : ∀ c, Keyless (mustBelong c x) := by
    intro c
    rw [mustBelong]
    split
    · refine .get_bind fun m => ?_
      split
      · split
        · exact .pure ()
        · exact .refuse fun complaint => complaint
      · exact .refuse fun complaint => complaint
    · exact .pure ()
  refine .get_bind fun m => ?_
  split
  · exact (belongs _).bind fun _ _ => trivial
  · exact .pure ()

theorem faithful_reportRemoved (id : ItemId) (x : Item) : Faithful (reportRemoved id x) := by
  refine fun m => .get_bind ?_
  split
  · exact faithful_onCounter _ (Counter.faithful_removeOccurrence x id) m
  · exact .pure trivial

theorem keyless_set (key : IsKey k) (id : ItemId) (v : Item) : Keyless (set id k v) := by
  refine (keyless_mustBeKey key).bind fun _ => (keyless_mustAccept id v).bind fun _ =>
    (keyless_mustBeWritable id).bind fun _ => .get_bind fun m => ?_
  refine Keyless.bind (fun _ => trivial) fun _ => ?_
  have removed := fun old => Keyless.of_faithful (faithful_reportRemoved id old)
  cases (m.heap.mapEntries id).get? k with
  | none =>
    exact (keyless_reportAdded id k).bind fun _ => (keyless_reportAdded id v).bind fun _ =>
      .pure none
  | some old =>
    exact (keyless_reportAdded id v).bind fun _ => (removed old).bind fun _ => .pure (some old)

theorem keyless_remove (key : IsKey k) (id : ItemId) : Keyless (remove id k) := by
  refine (keyless_mustBeKey key).bind fun _ => (keyless_mustBeWritable id).bind fun _ =>
    .get_bind fun m => ?_
  have removed := fun old => Keyless.of_faithful (faithful_reportRemoved id old)
  cases (m.heap.mapEntries id).get? k with
  | none => exact .pure none
  | some old =>
    exact Keyless.bind (fun _ => trivial) fun _ => (removed k).bind fun _ =>
      (removed old).bind fun _ => .pure (some old)

theorem KeyCall.perform_keyless (call : KeyCall) (key : IsKey k) (id : ItemId) :
    Keyless (call.perform id k) := by
  have quiet : ∀ {α : Type} {x : Action Memory α}, Keyless x → Keyless ((fun _ => ()) <$> x) := by
    intro α x keyless
    rw [map_eq_pure_bind]
    exact keyless.bind fun _ => .pure ()
  cases call with
  | get => exact quiet ((keyless_mustBeKey key).bind fun _ => .get_bind fun m => .pure _)
  | contains => exact quiet ((keyless_mustBeKey key).bind fun _ => .get_bind fun m => .pure _)
  | set v => exact quiet (keyless_set key id v)
  | remove => exact quiet (keyless_remove key id)

theorem not_isCompound (key : IsKey k) : ¬k.isCompound := by
  intro compound
  have primitive := key.primitive
  rw [Item.isCompound] at compound
  cases type : k.type <;> rw [type] at compound primitive <;> contradiction

theorem reportAdded_ok {x : Item}
    (fits : ∀ c, m.heap.owner id = some c → x.isCompound → m.heap.ownerOf x = some c) :
    ∃ t, (reportAdded id x).apply m = (.ok (), t) ∧ m.SameHeap t := by
  have same := sameHeap_reportAdded id x m
  cases owned : m.heap.owner id with
  | none =>
    have run : (reportAdded id x).apply m = (.ok (), m) := by
      rw [reportAdded, Action.apply_bind, Action.apply_get]
      simp only [owned]
      rfl
    rw [run] at same
    exact ⟨m, run, same⟩
  | some c =>
    have run := reportAdded_apply owned (fits c owned)
    rw [run] at same
    exact ⟨_, run, same⟩

theorem reportRemoved_violates (id : ItemId) (x : Item) (m : Memory) :
    Ends (fun e _ => ∃ why, e = .invariantViolation why) (fun _ _ => True) (reportRemoved id x) m :=
  (faithful_reportRemoved id x m).worsen fun _ _ ⟨why, same, _⟩ => ⟨why, same⟩

theorem set_violates (key : IsKey k) (permitted : (KeyCall.set v).Permitted m id) :
    Ends (fun e _ => ∃ why, e = .invariantViolation why) (fun _ _ => True) (set id k v) m := by
  obtain ⟨writable, -, fits⟩ := permitted
  refine .after (mustBeKey_ok key m) (.after (mustAccept_ok fits)
    (.after (mustBeWritable_ok writable) (.get_bind ?_)))
  refine .after (t := m.storing id (.map ((m.heap.mapEntries id).insert k v))) rfl ?_
  have fits' : ∀ {t : Memory},
      (m.storing id (.map ((m.heap.mapEntries id).insert k v))).SameHeap t →
      ∀ c, t.heap.owner id = some c → v.isCompound → t.heap.ownerOf v = some c := by
    intro t same
    rw [same.heap]
    simpa [storing, Heap.ownerOf] using fits
  cases (m.heap.mapEntries id).get? k with
  | none =>
    have reported : ∃ t, (reportAdded id k).apply
        (m.storing id (.map ((m.heap.mapEntries id).insert k v))) = (.ok (), t) ∧ SameHeap _ t :=
      reportAdded_ok fun _ _ compound => absurd compound (not_isCompound key)
    obtain ⟨t, first, same⟩ := reported
    obtain ⟨u, second, -⟩ := reportAdded_ok (fits' same)
    exact .after first (.after second (.pure trivial))
  | some old =>
    obtain ⟨t, first, -⟩ := reportAdded_ok (fits' (refl_of SameHeap _))
    exact .after first ((reportRemoved_violates id old t).bind fun _ _ _ => .pure trivial)

theorem remove_violates (key : IsKey k) (writable : m.heap.isReadOnly id = false) :
    Ends (fun e _ => ∃ why, e = .invariantViolation why) (fun _ _ => True) (remove id k) m := by
  refine .after (mustBeKey_ok key m) (.after (mustBeWritable_ok writable) (.get_bind ?_))
  cases (m.heap.mapEntries id).get? k with
  | none => exact .pure trivial
  | some old =>
    exact .after (t := m.storing id (.map ((m.heap.mapEntries id).erase k))) rfl
      ((reportRemoved_violates id k _).bind fun _ t _ =>
        (reportRemoved_violates id old t).bind fun _ _ _ => .pure trivial)

theorem succeeds_of_violates {x : Action Memory α} {post : α → Memory → Prop}
    (safe : Safe strict roots post x m)
    (violates : Ends (fun e _ => ∃ why, e = .invariantViolation why) (fun _ _ => True) x m) :
    ∃ a t, x.apply m = (.ok a, t) := by
  rcases run : x.apply m with ⟨e | a, t⟩
  · obtain ⟨⟨why, rfl⟩, -⟩ := safe.error run
    obtain ⟨why', same⟩ := violates.error run
    exact absurd same (by simp)
  · exact ⟨a, t, rfl⟩

theorem KeyCall.perform_succeeds (call : KeyCall) (sound : m.Sound strict roots)
    (mapped : m.heap.storage? id = some (.map es)) (permitted : call.Permitted m id)
    (key : IsKey k) : ∃ t, (call.perform id k).apply m = (.ok (), t) := by
  have quiet : ∀ {α : Type} {x : Action Memory α}, (∃ a t, x.apply m = (.ok a, t)) →
      ∃ t, ((fun _ => ()) <$> x).apply m = (.ok (), t) := by
    rintro α x ⟨a, t, run⟩
    exact ⟨t, by rw [Action.apply_map, run]; rfl⟩
  cases call with
  | get => exact quiet ⟨_, _, get?_apply key mapped⟩
  | contains => exact quiet ⟨_, _, contains_apply key mapped⟩
  | set v =>
    exact quiet (succeeds_of_violates (set_safe sound mapped permitted.2.1)
      (set_violates key permitted))
  | remove =>
    exact quiet (succeeds_of_violates (remove_safe sound mapped) (remove_violates key permitted))

/-- The size of an integer is the length of its shortest two's complement form, which is the least
number of bytes that it fits in. What is not allowed as a key is refused by every call, in every
memory, and nothing changes. What is allowed is never refused for the key, and where nothing else is
in the way the call succeeds. -/
theorem keys_bounded :
    (∀ n : Int, IsLeast {k | FitsBytes k n} (Item.keySize (.leaf (.integer n))) ∧
      (∃ bytes, ShortestForm n bytes) ∧
      ∀ bytes, ShortestForm n bytes → bytes.length = Item.keySize (.leaf (.integer n))) ∧
    ∀ (call : KeyCall) (k : Item) (id : ItemId) (m : Memory),
      (¬k.AllowedKey → ∃ why : Refusal, why.AboutKey ∧
        (call.perform id k).apply m = (.error (.invalidOperation why), m)) ∧
      (k.AllowedKey → ∀ e t, (call.perform id k).apply m = (.error e, t) →
        ∀ why, e = .invalidOperation why → ¬why.AboutKey) ∧
      ∀ suspects roots es, Session.Yields suspects m roots →
        m.heap.storage? id = some (.map es) → call.Permitted m id →
        ((∃ t, (call.perform id k).apply m = (.ok (), t)) ↔ k.AllowedKey) := by
  refine ⟨fun n => ⟨signedByteLength_isLeast n, ⟨_, shortestForm_signedBytes n⟩,
    fun bytes shortest => shortest.length_eq⟩, fun call k id m => ⟨fun other => ?_,
    fun allowed e t run => ?_, fun suspects roots es yields mapped permitted => ⟨?_, ?_⟩⟩⟩
  · exact call.perform_refused (fun key => other (isKey_iff.1 key)) id m
  · exact (call.perform_keyless (isKey_iff.2 allowed) id m).error run
  · rintro ⟨t, run⟩
    by_contra other
    obtain ⟨why, -, refused⟩ := call.perform_refused (fun key => other (isKey_iff.1 key)) id m
    rw [refused] at run
    exact absurd (Prod.mk.inj run).1 (by simp)
  · intro allowed
    exact call.perform_succeeds yields.sound mapped permitted (isKey_iff.2 allowed)

/-- The greatest integer key and the next integer, in a map that a stack holds. -/
theorem keys_bounded_mapping :
    (∃ t, ((KeyCall.set .null).perform ((default : IdSupply).id 1)
        (.leaf (.integer (2 ^ 511 - 1)))).apply
          (Session.run mapping (Session.start {} default)).2.memory = (.ok (), t)) ∧
      ∃ why : Refusal, why.AboutKey ∧ ((KeyCall.set .null).perform ((default : IdSupply).id 1)
        (.leaf (.integer (2 ^ 511)))).apply
          (Session.run mapping (Session.start {} default)).2.memory =
            (.error (.invalidOperation why),
              (Session.run mapping (Session.start {} default)).2.memory) := by
  have grown : Session.Grown True 1 (Session.run mapping (Session.start {} default)).2 :=
    Session.started_grown ⟨Session.first_lt_one, trivial, trivial⟩
  have permitted : (KeyCall.set .null).Permitted
      (Session.run mapping (Session.start {} default)).2.memory ((default : IdSupply).id 1) :=
    ⟨rfl, .leaf _ _, fun _ _ compound => absurd compound (by decide)⟩
  obtain ⟨-, calls⟩ := keys_bounded
  refine ⟨?_, (calls (.set .null) _ _ _).1 fun allowed => absurd allowed.2 (lt_irrefl _)⟩
  obtain ⟨-, -, succeeds⟩ := calls (.set .null) (.leaf (.integer (2 ^ 511 - 1))) _ _
  exact (succeeds True _ _ (.during grown.reachable) rfl permitted).2
    ⟨by decide +kernel, by decide +kernel⟩

end MapObject

end LiveItems
