import LiveItems.Engine.Basic
import LiveItems.Session.Answer
import LiveItems.Proofs.Roots.Rename
set_option autoImplicit false

namespace LiveItems

open LiveItems.Action (Echoes)

variable {f : ItemId ↪ ItemId}

namespace Machine

def renameEngine (f : ItemId ↪ ItemId) (e : Engine) : Engine :=
  { e with
    stack := e.stack.rename f
    statics := e.statics.map (Slot.rename f)
    fault := e.fault.map (Error.rename f) }

def rename (f : ItemId ↪ ItemId) (s : Machine) : Machine where
  memory := s.memory.rename f
  engine := renameEngine f s.engine

@[simp] theorem counter_rename (s : Machine) : (s.rename f).counter = s.counter.rename f :=
  Memory.counter_rename ..

theorem onMemory_echoes {α β : Type} {g : α → β} {x : Action Memory α} {y : Action Memory β}
    (echoes : Echoes f g (Memory.rename f) y x) :
    Echoes f g (rename f) (onMemory y) (onMemory x) :=
  echoes.onPart (fun _ => rfl) fun _ _ => rfl

theorem onStack_echoes {α β : Type} {g : α → β} {x : Action (Memory × Stack) α}
    {y : Action (Memory × Stack) β} (echoes : Echoes f g (renameBoth f (Stack.rename f)) y x) :
    Echoes f g (rename f) (onStack y) (onStack x) :=
  echoes.onPart (fun _ => rfl) fun _ _ => rfl

theorem setStatics_echoes (statics : Option Slot) :
    Echoes f id (rename f) (setStatics (statics.map (Slot.rename f))) (setStatics statics) :=
  .modify fun _ => rfl

theorem checkLimit_echoes : Echoes f id (rename f) checkLimit checkLimit := by
  refine .get_bind fun s => ?_
  simp only [counter_rename]
  exact .ite Iff.rfl (.throw (.limitExceeded ..)) (.pure _)

theorem push_echoes (x : Item) : Echoes f id (rename f) (push (x.rename f)) (push x) :=
  (onStack_echoes (Stack.push_echoes x)).bind fun _ => checkLimit_echoes

theorem pop_echoes : Echoes f (Item.rename f) (rename f) pop pop := onStack_echoes Stack.pop_echoes

theorem peek_echoes (depth : Int) :
    Echoes f (Item.rename f) (rename f) (peek depth) (peek depth) :=
  .get_bind fun s => .lift (Stack.peek_rename s.engine.stack depth)

theorem fillStatics_echoes (c : CounterId) (n : Nat) :
    Echoes f id (rename f)
      (do let slot ← onMemory (Slot.createNulls c n); setStatics (some slot); checkLimit)
      (do let slot ← onMemory (Slot.createNulls c n); setStatics (some slot); checkLimit) :=
  (onMemory_echoes (Slot.createNulls_echoes c n)).bind fun slot =>
    (setStatics_echoes (some slot)).bind fun _ => checkLimit_echoes

theorem initStatics_echoes (n : Nat) :
    Echoes f id (rename f) (initStatics n) (initStatics n) := by
  refine .get_bind fun s => ?_
  simp only [rename, renameEngine]
  cases s.engine.statics with
  | none => exact fillStatics_echoes _ n
  | some old =>
    exact (setStatics_echoes none).bind fun _ =>
      (onMemory_echoes (Memory.removeRoots_echoes old.counter old.items)).bind fun _ =>
        fillStatics_echoes _ n

theorem loadStatic_echoes (index : Nat) :
    Echoes f id (rename f) (loadStatic index) (loadStatic index) := by
  refine .get_bind fun s => ?_
  simp only [rename, renameEngine]
  cases s.engine.statics with
  | none => exact .refuse _
  | some slot =>
    exact (Echoes.lift (Slot.get?_rename slot index)).bind fun x => push_echoes x

theorem storeStatic_echoes (index : Nat) :
    Echoes f id (rename f) (storeStatic index) (storeStatic index) := by
  refine (peek_echoes 0).bind fun x => .get_bind fun s => ?_
  simp only [rename, renameEngine]
  cases s.engine.statics with
  | none => exact .refuse _
  | some slot =>
    refine Echoes.bind (g := id) ?_ fun _ => pop_echoes.bind fun _ => .pure _
    exact (Slot.set_echoes index x).onPart (fun _ => rfl) fun _ _ => rfl

theorem collect_echoes : Echoes f id (rename f) collect collect :=
  .get_bind fun s => onMemory_echoes (Memory.collect_echoes s.engine.counter)

theorem halt_echoes : Echoes f id (rename f) halt halt :=
  .get_bind fun _ => .ite Iff.rfl (.refuse _) (.modify fun _ => rfl)

theorem enter_rename (s : Machine) : (s.rename f).enter = Action.renamed f id s.enter := by
  have stage : (s.rename f).engine.stage = s.engine.stage := rfl
  rw [enter, stage, enter]
  split <;> rfl

theorem checkpoint_echoes : Echoes f id (rename f) checkpoint checkpoint := by
  refine (Echoes.modify fun s => ?_).bind fun _ => checkLimit_echoes.bind fun _ =>
    .get_bind fun s => ?_
  · rfl
  have reset := onMemory_echoes (Memory.resetPeak_echoes (f := f) s.engine.counter)
  exact .ite Iff.rfl (collect_echoes.bind fun _ => reset) reset

theorem conclude_rename (result : Except Error Unit) (s : Machine) :
    conclude (Action.renamed f id result) (s.rename f) =
      (Action.renamed f id (conclude result s).1, (conclude result s).2.rename f) := by
  cases result with
  | error e => rfl
  | ok u =>
    simp only [conclude, Action.renamed, checkpoint_echoes s]
    rcases checkpoint.apply s with ⟨e | u, t⟩ <;> rfl

theorem shutDown_rename (s : Machine) : (s.rename f).shutDown = s.shutDown.rename f := by
  have cleared := Stack.drop_rename (f := f) s.engine.stack s.memory
  simp only [shutDown, rename, renameEngine, cleared]
  cases s.engine.statics with
  | none => exact (Memory.collect_echoes s.engine.counter).attempt _
  | some slot =>
    simp only [Option.map_some, Slot.drop_rename]
    exact (Memory.collect_echoes s.engine.counter).attempt _

end Machine

end LiveItems
