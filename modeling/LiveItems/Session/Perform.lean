import LiveItems.Session.Basic
set_option autoImplicit false

namespace LiveItems

namespace Session

def value (round : Nat) : Operand → Action Session Item
  | .leaf l => pure (.leaf l)
  | .named name => lookup name
  | .round => pure (.leaf (.integer round))

def values (round : Nat) : List Operand → Action Session (List Item)
  | [] => pure []
  | x :: xs => do
    let x ← value round x
    let xs ← values round xs
    pure (x :: xs)

def objectId? (round : Nat) : ObjectRef → Action Session (Option ItemId)
  | .operand x => return (← value round x).id?
  | .ordinal n => return some ((← get).memory.heap.supply.id n)

def createItem (round : Nat) : Creation → Action Session Item
  | .list kind items owner => do
    let items ← values round items
    return .object kind.object (← onMemory (ListObject.create owner items))
  | .map owner => return .object .map (← onMemory (MapObject.create owner))
  | .buffer bytes => return .object .buffer (← onMemory (BufferObject.create bytes))
  | .interop interface => do
    let s ← get
    set { s with interops := s.interops + 1 }
    return .leaf (.interop ⟨s.interops, interface⟩)
  | .alias x => value round x
  | .copy source limits => do
    let id ← target [.struct] source
    return .object .struct (← onMemory (ListObject.copyStruct id limits.maxLiveItems))

def performList (round : Nat) (id : ItemId) : ListCommand → Action Session Answer
  | .push x => do
    let x ← value round x
    onMemory (ListObject.push id x)
    return .done
  | .set index x => do
    let x ← value round x
    onMemory (ListObject.set id index x)
    return .done
  | .insert index x => do
    let x ← value round x
    onMemory (ListObject.insert id index x)
    return .done
  | .remove index => return .item (← onMemory (ListObject.remove id index))
  | .pop => return .item (← onMemory (ListObject.pop id))
  | .clear => do
    onMemory (ListObject.clear id)
    return .done
  | .reverse => do
    onMemory (ListObject.reverse id)
    return .done
  | .get index => return .option ((← get).memory.heap.listItems id)[index]?
  | .size => return .size ((← get).memory.heap.listItems id).length
  | .items => return .items ((← get).memory.heap.listItems id)
  | .setReadOnly b => do
    onMemory (Memory.setReadOnly id b)
    return .done
  | .isReadOnly => return .flag ((← get).memory.heap.isReadOnly id)

def performMap (round : Nat) (id : ItemId) : MapCommand → Action Session Answer
  | .set k v => do
    let k ← value round k
    let v ← value round v
    return .option (← onMemory (MapObject.set id k v))
  | .get k => do
    let k ← value round k
    return .option (← onMemory (MapObject.get? id k))
  | .remove k => do
    let k ← value round k
    return .option (← onMemory (MapObject.remove id k))
  | .contains k => do
    let k ← value round k
    return .flag (← onMemory (MapObject.contains id k))
  | .clear => do
    onMemory (MapObject.clear id)
    return .done
  | .keys => return .items ((← get).memory.heap.mapEntries id).keys
  | .values => return .items ((← get).memory.heap.mapEntries id).values
  | .size => return .size ((← get).memory.heap.mapEntries id).size
  | .setReadOnly b => do
    onMemory (Memory.setReadOnly id b)
    return .done
  | .isReadOnly => return .flag ((← get).memory.heap.isReadOnly id)

def performBuffer (id : ItemId) : BufferCommand → Action Session Answer
  | .get index => return .byte ((← get).memory.heap.bytes id)[index]?
  | .set index b => do
    onMemory (BufferObject.set id index b)
    return .done
  | .bytes => return .bytes ((← get).memory.heap.bytes id)
  | .size => return .size ((← get).memory.heap.bytes id).length

def performCounter (round : Nat) (c : CounterId) : CounterCommand → Action Session Answer
  | .addRoots x n => do
    let x ← value round x
    onMemory (Memory.addLooseRoots c x n)
    return .done
  | .removeRoot x => do
    let x ← value round x
    onMemory (Memory.removeRoot c x)
    return .done
  | .addOccurrence x parent => do
    let x ← value round x
    match ← objectId? round parent with
    | some id => onMemory (Memory.addOccurrence c x id)
    | none => pure ()
    return .done
  | .removeOccurrence x parent => do
    let x ← value round x
    match ← objectId? round parent with
    | some id => onMemory (Memory.removeOccurrence c x id)
    | none => pure ()
    return .done
  | .suspect x => do
    let x ← value round x
    onMemory (Memory.suspect c x)
    return .done
  | .collect => return .number (← onMemory (Memory.collect c))
  | .resetPeak => do
    onMemory (Memory.resetPeak c)
    return .done
  | .references x => do
    let x ← value round x
    return .references (((← get).memory.counter c).referencesTo x)
  | .multiplicity parent x => do
    let parent ← value round parent
    let x ← value round x
    return .number ((← get).memory.multiplicity c parent x)
  | .isSame other => return .flag (c == other)

def performStack (round : Nat) (name : Option String) : StackCommand → Action Session Answer
  | .push x => do
    let x ← value round x
    onStack name (Stack.push x)
    return .done
  | .pop => return .item (← onStack name Stack.pop)
  | .peek depth => return .item (← onStack name (do (← get).2.peek depth))
  | .remove depth => return .item (← onStack name (Stack.remove depth))
  | .insert depth x => do
    let x ← value round x
    onStack name (Stack.insert depth x)
    return .done
  | .reverse n => do
    onStack name (Stack.reverse n)
    return .done
  | .clear => do
    onStack name Stack.clear
    return .done
  | .size => return .size (← onStack name (return (← get).2.items.length))
  | .items => return .items (← onStack name (return (← get).2.bottomUp))
  | .counter => return .number (← onStack name (return (← get).2.counter))

def performSlot (round : Nat) (name : String) : SlotCommand → Action Session Answer
  | .get index => return .item (← onNamedSlot name (do (← get).2.get? index))
  | .set index x => do
    let x ← value round x
    onNamedSlot name (Slot.set index x)
    return .done
  | .clear => do
    onNamedSlot name Slot.clear
    return .done
  | .size => return .size (← onNamedSlot name (return (← get).2.items.length))
  | .items => return .items (← onNamedSlot name (return (← get).2.items))

def performEngine (round : Nat) : EngineCommand → Action Session Answer
  | .push x => do
    let x ← value round x
    onMachine (Machine.push x)
    return .done
  | .pop => return .item (← onMachine Machine.pop)
  | .peek depth => return .item (← onMachine (Machine.peek depth))
  | .initStatics n => do
    onMachine (Machine.initStatics n)
    return .done
  | .loadStatic index => do
    onMachine (Machine.loadStatic index)
    return .done
  | .storeStatic index => do
    onMachine (Machine.storeStatic index)
    return .done
  | .collect => return .number (← onMachine Machine.collect)
  | .checkLimit => do
    onMachine Machine.checkLimit
    return .done
  | .halt => do
    onMachine Machine.halt
    return .done
  | .describe => return .engine (← get).machine.view

def placeStack (name : String) (stack : Stack) : Action Session Unit :=
  modify fun s =>
    let s := s.dropStack name
    { s with namedStacks := s.namedStacks.insert name stack }

def placeSlot (name : String) (slot : Slot) : Action Session Unit :=
  modify fun s =>
    let s := s.dropSlot name
    { s with namedSlots := s.namedSlots.insert name slot }

def perform (round : Nat) : Command → Action Session Answer
  | .create name what => do
    let x ← createItem round what
    bind name x
    return .item x
  | .forget name => do
    modify fun s => { s with names := s.names.erase name }
    return .done
  | .describe x => do
    let x ← value round x
    return .description ((← get).memory.describe x)
  | .equal a b => do
    let a ← value round a
    let b ← value round b
    return .flag (a == b)
  | .distinct xs => return .number (Item.distinct (← values round xs))
  | .onList name command => do performList round (← target [.array, .struct] name) command
  | .onMap name command => do performMap round (← target [.map] name) command
  | .onBuffer name command => do performBuffer (← target [.buffer] name) command
  | .newCounter => return .number (← onMemory Memory.newCounter)
  | .onCounter c command => performCounter round c command
  | .newStack name c => do
    placeStack name { counter := c }
    return .done
  | .dropStack name => do
    modify (dropStack name)
    return .done
  | .onStack name command => performStack round name command
  | .newSlot name xs c => do
    let xs ← values round xs
    placeSlot name (← onMemory (Slot.create c xs))
    return .done
  | .newNullSlot name n c => do
    placeSlot name (← onMemory (Slot.createNulls c n))
    return .done
  | .dropSlot name => do
    modify (dropSlot name)
    return .done
  | .onSlot name command => performSlot round name command
  | .onEngine command => performEngine round command

end Session

end LiveItems
