import LiveItems.Proofs.Memory.Holding
set_option autoImplicit false

namespace LiveItems

namespace Memory

variable {strict : Prop} {roots : CounterId → Multiset Item} {m : Memory} {id : ItemId} {x : Item}
  {α : Type}

theorem mustShareOwner_cases (m : Memory) (owner : Option CounterId) (x : Item) :
    (∃ why, (mustShareOwner owner x).apply m = (.error (.invalidOperation why), m)) ∨
      ((mustShareOwner owner x).apply m = (.ok (), m) ∧
        ∀ c, owner = some c → x.isCompound → m.heap.ownerOf x = some c) := by
  cases owner with
  | none => exact .inr ⟨rfl, fun c hc => absurd hc (by simp)⟩
  | some d =>
    rw [mustShareOwner, Action.apply_bind, Action.apply_get]
    by_cases foreign : x.isCompound = true ∧ m.heap.ownerOf x ≠ some d
    · simp only [if_pos foreign]
      exact .inl ⟨_, rfl⟩
    · simp only [if_neg foreign]
      refine .inr ⟨rfl, fun c hc compound => ?_⟩
      obtain rfl := Option.some.inj hc
      by_contra ne
      exact foreign ⟨compound, ne⟩

theorem mustShareOwner_ends (m : Memory) (owner : Option CounterId) (x : Item) :
    Action.Ends (Action.Refused m) (fun _ t => t = m ∧
      ∀ c, owner = some c → x.isCompound → m.heap.ownerOf x = some c)
      (mustShareOwner owner x) m := by
  rcases mustShareOwner_cases m owner x with ⟨why, run⟩ | ⟨run, fits⟩
  · exact .of_error run (.intro why m)
  · exact .of_ok run ⟨rfl, fits⟩

theorem mustAccept_ends (m : Memory) (id : ItemId) (x : Item) :
    Action.Ends (Action.Refused m) (fun _ t => t = m ∧
      ∀ c, m.heap.owner id = some c → x.isCompound → m.heap.ownerOf x = some c)
      (mustAccept id x) m :=
  .get_bind (mustShareOwner_ends m (m.heap.owner id) x)

theorem mustBeWritable_ends (m : Memory) (id : ItemId) :
    Action.Ends (Action.Refused m) (fun _ t => t = m) (mustBeWritable id) m := by
  refine .get_bind ?_
  split
  · exact .refuse (.intro _ m)
  · exact .pure rfl

/-- Storing is safe when reports that never fail follow, from what was stored to what is stored. It
drops nothing when the reports drop nothing. -/
theorem Sound.change {post : α → Memory → Prop} {old new : Storage} {reports : Action Memory α}
    (sound : m.Sound strict roots) (stored : m.heap.storage? id = some old)
    (suits : ∀ kind, old.Suits kind → new.Suits kind)
    (may : ∀ x ∈ new.children, m.heap.MayHold id x)
    (reported : (m.storing id new).Holding strict id old.children roots →
      m.heap.Extends (m.storing id new).heap → (m.storing id new).contents id = new.children →
      ∃ a m', reports.apply (m.storing id new) = (.ok a, m') ∧
        m'.Holding strict id new.children roots ∧ (m.storing id new).Recounts m' ∧
        (m.Extends m' → post a m')) :
    Safe strict roots post (Memory.store id new >>= fun _ => reports) m := by
  obtain ⟨holding, ext⟩ := sound.store stored suits may
  have same : m.contents id = old.children := by
    rw [contents, Heap.children, stored]
  rw [same] at holding
  have stores : (m.storing id new).contents id = new.children := by
    rw [contents_storing ⟨old, stored⟩, if_pos rfl]
  obtain ⟨a, m', run, holding', recounts, answered⟩ := reported holding ext stores
  have run' : (Memory.store id new >>= fun _ => reports).apply m = (.ok a, m') := by
    rw [Action.apply_bind]
    exact run
  have first : m.Advances (m.storing id new) := ⟨⟨ext, le_rfl⟩, fun d => .refl _ _⟩
  have moved := first.recounts recounts
  have contents_new : m'.contents id = new.children := by
    rw [contents_recounts recounts, stores]
  rw [← contents_new] at holding'
  exact .of_ok run' ⟨holding'.sound, moved, answered moved.toExtends⟩

theorem Sound.reorder {old new : Storage} (sound : m.Sound strict roots)
    (stored : m.heap.storage? id = some old) (suits : ∀ kind, old.Suits kind → new.Suits kind)
    (perm : old.children.Perm new.children) :
    Safe strict roots (fun _ _ => True) (Memory.store id new) m := by
  rw [← bind_pure (Memory.store id new)]
  refine sound.change stored suits (fun y hy => ?_) fun holding _ _ => ?_
  · refine sound.heap.holds id y ?_
    rw [Heap.children, stored]
    exact perm.mem_iff.2 hy
  · rw [Multiset.coe_eq_coe.2 perm] at holding
    exact ⟨_, _, rfl, holding, .refl _, fun _ => trivial⟩

theorem Sound.setReadOnly (sound : m.Sound strict roots) (id : ItemId) (value : Bool) :
    Safe strict roots (fun _ _ => True) (setReadOnly id value) m := by
  have kept : ∀ o, m.heap.object? id = some o →
      ({ o with readOnly := value } : Object).owner = o.owner := fun _ _ => rfl
  have suits : ∀ o, m.heap.object? id = some o → ∀ kind, o.storage.Suits kind →
      ({ o with readOnly := value } : Object).storage.Suits kind := fun _ _ _ suits => suits
  have same : ∀ p, (m.heap.modify id ({ · with readOnly := value })).children p =
      m.heap.children p := by
    intro p
    rw [Heap.children, Heap.storage?_modify]
    by_cases e : p = id
    · rw [if_pos e, e]
      rfl
    · rw [if_neg e]
      rfl
  have ext := Heap.Extends.modify kept suits
  refine .of_ok rfl ⟨⟨sound.heap.modify kept suits fun o ho y hy => ?_, fun c hc => ?_,
    sound.small, fun c y hy => ext.knows (sound.known c y hy), sound.outside⟩,
    ⟨⟨ext, le_rfl⟩, fun d => .refl _ _⟩, trivial⟩
  · refine sound.heap.holds id y ?_
    rw [Heap.children, Heap.storage?, ho]
    exact hy
  · have account := sound.accounts c hc
    refine account.congr (fun p _ => ?_) fun p hp => ext.belongs (account.within p hp)
    exact congrArg _ (same p).symm

theorem Sound.newObject (sound : m.Sound strict roots) {o : Object}
    (known : ∀ x ∈ o.storage.children, m.heap.Knows x)
    (fits : ∀ x ∈ o.storage.children, ∀ d, o.owner = some d →
      x.isCompound → m.heap.ownerOf x = some d)
    (owners : ∀ d, o.owner = some d → d < m.counters.length) :
    Safe strict roots (fun a t => m.Retains t ∧ t.heap.storage? a = some o.storage)
      (newObject o) m := by
  have run : (Memory.newObject o).apply m =
      (.ok (m.heap.allocate o).1, { m with heap := (m.heap.allocate o).2 }) := rfl
  have ext := sound.heap.extends_allocate o
  have new := sound.heap.fresh o
  have moved : m.Advances { m with heap := (m.heap.allocate o).2 } :=
    ⟨⟨ext, le_rfl⟩, fun d => .refl _ _⟩
  refine .of_ok run ⟨⟨sound.heap.allocate known fits owners, fun c hc => ?_,
    sound.small, fun c y hy => ext.knows (sound.known c y hy), sound.outside⟩, moved,
    fun _ => ?_, ?_⟩
  · have account := sound.accounts c hc
    refine account.congr (fun p hp => ?_) fun p hp => ext.belongs (account.within p hp)
    have old : p ≠ (m.heap.allocate o).1 := by
      rintro rfl
      exact new (Heap.mem_ids_of_belongs (account.within _ hp))
    rw [contents, contents, Heap.children_allocate, if_neg old]
  · exact Finset.Subset.refl _
  · rw [Heap.storage?_allocate, if_pos rfl]

end Memory

end LiveItems
