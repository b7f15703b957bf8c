import LiveItems.Roots.Stack
import LiveItems.Roots.Slot
import LiveItems.Proofs.Memory.Rename
set_option autoImplicit false

namespace LiveItems

open LiveItems.Action (Echoes)

variable {f : ItemId ↪ ItemId}

def renameBoth {ρ : Type} (f : ItemId ↪ ItemId) (rename : ρ → ρ) (s : Memory × ρ) : Memory × ρ :=
  (s.1.rename f, rename s.2)

theorem onMemory_echoes {ρ α β : Type} {rename : ρ → ρ} {g : α → β} {x : Action Memory α}
    {y : Action Memory β} (echoes : Echoes f g (Memory.rename f) y x) :
    Echoes f g (renameBoth f rename) (onMemory y) (onMemory x) :=
  echoes.onPart (fun _ => rfl) fun _ _ => rfl

namespace Stack

def rename (f : ItemId ↪ ItemId) (s : Stack) : Stack :=
  { s with items := s.items.map (Item.rename f) }

theorem bottomUp_rename (s : Stack) : (s.rename f).bottomUp = s.bottomUp.map (Item.rename f) :=
  List.map_reverse.symm

theorem setItems_echoes (xs : List Item) :
    Echoes f id (renameBoth f (rename f)) (setItems (xs.map (Item.rename f))) (setItems xs) :=
  .modify fun _ => rfl

theorem peek_rename (s : Stack) (depth : Int) :
    (s.rename f).peek depth = Action.renamed f (Item.rename f) (s.peek depth) := by
  have size : (s.rename f).items.length = s.items.length := List.length_map _
  rw [peek, size, peek]
  simp only [rename, List.getElem?_map]
  generalize (if depth < 0 then depth + s.items.length else depth) = depth
  split_ifs
  · rfl
  · cases s.items[depth.toNat]? <;> rfl

theorem push_echoes (x : Item) :
    Echoes f id (renameBoth f (rename f)) (push (x.rename f)) (push x) := by
  refine .get_bind fun s => ?_
  obtain ⟨m, s⟩ := s
  exact (onMemory_echoes (Memory.addRoot_echoes s.counter x)).bind fun _ =>
    setItems_echoes (x :: s.items)

theorem pop_echoes : Echoes f (Item.rename f) (renameBoth f (rename f)) pop pop := by
  refine .get_bind fun s => ?_
  rcases s with ⟨m, ⟨c, _ | ⟨x, xs⟩⟩⟩
  · exact .violate .popFromEmpty
  · exact (setItems_echoes xs).bind fun _ =>
      (onMemory_echoes (Memory.removeRoot_echoes c x)).bind fun _ => .pure x

theorem remove_echoes (depth : Nat) :
    Echoes f (Item.rename f) (renameBoth f (rename f)) (remove depth) (remove depth) := by
  refine .get_bind fun s => ?_
  obtain ⟨m, s⟩ := s
  simp only [renameBoth, rename, List.getElem?_map, List.length_map, List.eraseIdx_map]
  cases s.items[depth]? with
  | none => exact .refuse _
  | some x =>
    exact (setItems_echoes _).bind fun _ =>
      (onMemory_echoes (Memory.removeRoot_echoes s.counter x)).bind fun _ => .pure x

theorem insert_echoes (depth : Nat) (x : Item) :
    Echoes f id (renameBoth f (rename f)) (insert depth (x.rename f)) (insert depth x) := by
  refine .get_bind fun s => ?_
  obtain ⟨m, s⟩ := s
  simp only [renameBoth, rename, List.length_map, ← List.map_insertIdx]
  exact .ite Iff.rfl (.refuse _) ((onMemory_echoes (Memory.addRoot_echoes s.counter x)).bind
    fun _ => setItems_echoes _)

theorem reverse_echoes (n : Nat) :
    Echoes f id (renameBoth f (rename f)) (reverse n) (reverse n) := by
  refine .get_bind fun s => ?_
  obtain ⟨m, s⟩ := s
  simp only [renameBoth, rename, List.length_map, ← List.map_take, ← List.map_drop,
    ← List.map_reverse, ← List.map_append]
  exact .ite Iff.rfl (.refuse _) (setItems_echoes _)

theorem clear_echoes : Echoes f id (renameBoth f (rename f)) clear clear := by
  refine .get_bind fun s => ?_
  obtain ⟨m, s⟩ := s
  refine (setItems_echoes []).bind fun _ => ?_
  simp only [bottomUp_rename]
  exact onMemory_echoes (Memory.removeRoots_echoes s.counter s.bottomUp)

theorem drop_rename (s : Stack) (m : Memory) :
    (s.rename f).drop (m.rename f) = (s.drop m).rename f :=
  congrArg Prod.fst (clear_echoes.attempt (m, s))

end Stack

namespace Slot

def rename (f : ItemId ↪ ItemId) (s : Slot) : Slot :=
  { s with items := s.items.map (Item.rename f) }

theorem addRoots_echoes (c : CounterId) (xs : List Item) : ∀ done : List Item,
    Echoes f id (Memory.rename f)
      (addRoots c (done.map (Item.rename f)) (xs.map (Item.rename f))) (addRoots c done xs) := by
  induction xs with
  | nil => exact fun _ => .pure _
  | cons x xs ih =>
    intro done m
    simp only [List.map_cons, addRoots, Action.apply_of, Memory.addRoot_echoes c x m,
      ← List.map_reverse]
    rcases (Memory.addRoot c x).apply m with ⟨e | u, t⟩
    · exact Prod.ext rfl ((Memory.removeRoots_echoes c done.reverse).attempt t)
    · exact ih (x :: done) t

theorem create_echoes (c : CounterId) (xs : List Item) :
    Echoes f (rename f) (Memory.rename f) (create c (xs.map (Item.rename f))) (create c xs) :=
  (addRoots_echoes c xs []).bind fun _ => .pure (⟨c, xs⟩ : Slot)

theorem createNulls_echoes (c : CounterId) (n : Nat) :
    Echoes f (rename f) (Memory.rename f) (createNulls c n) (createNulls c n) := by
  have made := create_echoes (f := f) c (List.replicate n .null)
  rwa [List.map_replicate] at made

theorem get?_rename (s : Slot) (index : Nat) :
    (s.rename f).get? index = Action.renamed f (Item.rename f) (s.get? index) := by
  simp only [get?, rename, List.getElem?_map, List.length_map]
  cases s.items[index]? <;> rfl

theorem set_echoes (index : Nat) (x : Item) :
    Echoes f id (renameBoth f (rename f)) (set index (x.rename f)) (set index x) := by
  refine .get_bind fun s => ?_
  obtain ⟨m, s⟩ := s
  refine (Echoes.lift (get?_rename s index)).bind fun old => ?_
  refine (onMemory_echoes (Memory.addRoot_echoes s.counter x)).bind fun _ => ?_
  refine (Echoes.modify fun u => ?_).bind fun _ =>
    onMemory_echoes (Memory.removeRoot_echoes s.counter old)
  simp only [renameBoth, rename, List.map_set]

theorem clear_echoes : Echoes f id (renameBoth f (rename f)) clear clear := by
  refine .get_bind fun s => ?_
  obtain ⟨m, s⟩ := s
  refine (Echoes.modify fun _ => ?_).bind fun _ => ?_
  · rfl
  · exact onMemory_echoes (Memory.removeRoots_echoes s.counter s.items)

theorem drop_rename (s : Slot) (m : Memory) :
    (s.rename f).drop (m.rename f) = (s.drop m).rename f :=
  congrArg Prod.fst (clear_echoes.attempt (m, s))

end Slot

end LiveItems
