import Mathlib.Order.Lattice
import LiveItems.Counter.Registration
import LiveItems.Counter.Collection
import LiveItems.Proofs.Ends
set_option autoImplicit false

namespace LiveItems

open LiveItems.Action (Follows)

namespace Counter

structure Rises (c c' : Counter) : Prop where
  highest : c.highest ≤ c'.highest
  count : c.count ≤ c.highest → c'.count ≤ c'.highest

structure Sinks (c c' : Counter) : Prop where
  count : c'.count ≤ c.count
  highest : c'.highest = c.highest
  sums : c'.sums = c.sums

/-- The count never goes down, and the highest count goes no further than the count, unless a sum
leaves the word. -/
structure Swells (c c' : Counter) : Prop extends Rises c c' where
  unwrapped : c'.Unwrapped → c.Unwrapped
  more : c'.Unwrapped → c.count ≤ c'.count
  exact : c'.Unwrapped → c.count ≤ c.highest → c'.highest = max c.highest c'.count

/-- No direct call has given the counter a number of roots meanwhile. -/
structure Grows (c c' : Counter) : Prop extends Swells c c' where
  small : c.sums = .small → c'.sums = .small

/-- The highest count goes exactly as far as the count has been at one of the two ends, unless a sum
leaves the word. -/
structure Surges (c c' : Counter) : Prop where
  below : c.count ≤ c.highest → c'.count ≤ c'.highest
  unwrapped : c'.Unwrapped → c.Unwrapped
  exact : c'.Unwrapped → c.count ≤ c.highest → c'.highest = max c.highest c'.count

/-- Sums do not come to be formed in words. -/
def StaysSmall (c c' : Counter) : Prop := c.sums = .small → c'.sums = .small

def StaysWrapped (c c' : Counter) : Prop := c'.Unwrapped → c.Unwrapped

variable {c c' c'' : Counter}

theorem Rises.refl (c : Counter) : c.Rises c := ⟨le_rfl, id⟩

theorem Rises.trans (first : c.Rises c') (second : c'.Rises c'') : c.Rises c'' :=
  ⟨first.highest.trans second.highest, fun below => second.count (first.count below)⟩

instance : IsPreorder Counter Rises where
  refl := Rises.refl
  trans _ _ _ := Rises.trans

theorem Sinks.refl (c : Counter) : c.Sinks c := ⟨le_rfl, rfl, rfl⟩

theorem Sinks.trans (first : c.Sinks c') (second : c'.Sinks c'') : c.Sinks c'' :=
  ⟨second.count.trans first.count, second.highest.trans first.highest,
    second.sums.trans first.sums⟩

instance : IsPreorder Counter Sinks where
  refl := Sinks.refl
  trans _ _ _ := Sinks.trans

theorem Swells.refl (c : Counter) : c.Swells c :=
  ⟨.refl c, id, fun _ => le_rfl, fun _ below => (max_eq_left below).symm⟩

theorem Swells.trans (first : c.Swells c') (second : c'.Swells c'') : c.Swells c'' := by
  refine ⟨first.toRises.trans second.toRises, fun exact => first.unwrapped (second.unwrapped exact),
    fun exact => (first.more (second.unwrapped exact)).trans (second.more exact),
    fun exact below => ?_⟩
  have reached := first.exact (second.unwrapped exact) below
  rw [second.exact exact (reached ▸ le_max_right ..), reached, max_assoc,
    max_eq_right (second.more exact)]

instance : IsPreorder Counter Swells where
  refl := Swells.refl
  trans _ _ _ := Swells.trans

theorem Grows.refl (c : Counter) : c.Grows c := ⟨.refl c, id⟩

theorem Grows.trans (first : c.Grows c') (second : c'.Grows c'') : c.Grows c'' :=
  ⟨first.toSwells.trans second.toSwells, fun small => second.small (first.small small)⟩

instance : IsPreorder Counter Grows where
  refl := Grows.refl
  trans _ _ _ := Grows.trans

instance : IsPreorder Counter StaysSmall where
  refl _ := id
  trans _ _ _ first second := fun small => second (first small)

instance : IsPreorder Counter StaysWrapped where
  refl _ := id
  trans _ _ _ first second := fun exact => first (second exact)

theorem Sinks.unwrapped (sinks : c.Sinks c') : c'.Unwrapped ↔ c.Unwrapped := by
  rw [Unwrapped, Unwrapped, sinks.sums]

theorem Sinks.rises (sinks : c.Sinks c') : c.Rises c' := by
  refine ⟨sinks.highest.ge, fun below => ?_⟩
  rw [sinks.highest]
  exact sinks.count.trans below

theorem Sinks.staysSmall (sinks : c.Sinks c') : c.StaysSmall c' := sinks.sums.trans

theorem Sinks.surges (sinks : c.Sinks c') : c.Surges c' := by
  refine ⟨sinks.rises.count, sinks.unwrapped.1, fun _ below => ?_⟩
  rw [sinks.highest, max_eq_left (sinks.count.trans below)]

theorem Swells.surges (swells : c.Swells c') : c.Surges c' :=
  ⟨swells.count, swells.unwrapped, swells.exact⟩

theorem unwrapped_of_small (small : c.sums = .small) : c.Unwrapped := by
  rw [Unwrapped, small]
  exact Sums.noConfusion

theorem Grows.unwrapped_of_small (grows : c.Grows c') (small : c.sums = .small) :
    c'.Unwrapped := Counter.unwrapped_of_small (grows.small small)

theorem Grows.surges (grows : c.Grows c') : c.Surges c' := grows.toSwells.surges

/-- A count that has sunk before it grows was not higher in between. -/
theorem Sinks.surges_of_grows (sinks : c.Sinks c') (grows : c'.Grows c'') : c.Surges c'' := by
  refine ⟨fun below => grows.count (sinks.rises.count below),
    fun exact => sinks.unwrapped.1 (grows.unwrapped exact), fun exact below => ?_⟩
  rw [grows.exact exact (sinks.rises.count below), sinks.highest]

theorem Grows.of_eq (count : c'.count = c.count) (highest : c'.highest = c.highest)
    (sums : c'.sums = c.sums) : c.Grows c' := by
  refine ⟨⟨⟨highest.ge, fun below => ?_⟩, fun exact => ?_, fun _ => count.ge,
    fun _ below => ?_⟩, sums.trans⟩
  · rwa [count, highest]
  · rwa [Unwrapped, ← sums]
  · rw [highest, count, max_eq_left below]

theorem sinks_setEntry (id : ItemId) (e : Entry) (c : Counter) : c.Sinks (c.setEntry id e) :=
  ⟨le_rfl, rfl, rfl⟩

theorem sinks_eraseEntry (id : ItemId) (c : Counter) : c.Sinks (c.eraseEntry id) :=
  ⟨le_rfl, rfl, rfl⟩

theorem sinks_addCandidate (id : ItemId) (c : Counter) : c.Sinks (c.addCandidate id) :=
  ⟨le_rfl, rfl, rfl⟩

theorem sinks_dropCandidate (id : ItemId) (c : Counter) : c.Sinks (c.dropCandidate id) :=
  ⟨le_rfl, rfl, rfl⟩

theorem small_after {s : Sums} (a b : Nat) (small : s = .small) : s.after a b = .small := by
  rw [small, Sums.after_small]

theorem grows_increase (c : Counter) (n : Nat) : c.Grows (c.increase n) := by
  refine ⟨⟨⟨le_max_left .., fun _ => le_max_right ..⟩, unwrapped_of_increase, fun exact => ?_,
    fun _ _ => rfl⟩, small_after c.count n⟩
  rw [count_increase exact]
  exact Nat.le_add_right ..

theorem grows_insertEntry (c : Counter) (id : ItemId) : c.Grows (c.insertEntry id) := by
  have entered : c.Grows (c.setEntry id {}) := .of_eq rfl rfl rfl
  exact entered.trans (grows_increase _ 1)

theorem grows_gainReference (c : Counter) (id : ItemId) : c.Grows (c.gainReference id) := by
  rw [gainReference]
  split
  · exact .refl c
  · simp only
    split
    · exact .of_eq rfl rfl rfl
    · exact .of_eq rfl rfl rfl

theorem grows_link (parent : ItemId) (child : Item) (state : Counter × List ItemId) :
    state.1.Grows (link parent child state).1 := by
  obtain ⟨c, pending⟩ := state
  rw [link]
  split
  · exact (grows_increase c 1).trans (.of_eq rfl rfl rfl)
  · rename_i id _
    have edge : ∀ c : Counter, c.Grows ((c.modifyEntry parent fun e =>
        { e with edges := e.edges.add id }).gainReference id) := by
      intro c
      refine Grows.trans ?_ (grows_gainReference _ id)
      exact .of_eq rfl rfl rfl
    by_cases tracked : c.isTracked id = true
    · simp only [tracked, if_true]
      exact edge c
    · simp only [tracked]
      exact (grows_insertEntry c id).trans (edge _)

theorem grows_scan (h : Heap) (parent : ItemId) (state : Counter × List ItemId) :
    state.1.Grows (scan h parent state).1 := by
  rw [scan]
  generalize h.children parent = children
  induction children generalizing state with
  | nil => exact .refl state.1
  | cons x xs ih => exact (grows_link parent x state).trans (ih (link parent x state))

theorem grows_expand (h : Heap) (fuel : Nat) (state : Counter × List ItemId) :
    state.1.Grows (expand h fuel state) := by
  induction fuel generalizing state with
  | zero => exact .refl state.1
  | succ fuel ih =>
    obtain ⟨c, pending⟩ := state
    cases pending with
    | nil => exact .refl c
    | cons id pending => exact (grows_scan h id (c, pending)).trans (ih (scan h id (c, pending)))

theorem grows_track (h : Heap) (id : ItemId) (c : Counter) : c.Grows (c.track h id) := by
  rw [track]
  split
  · exact .refl c
  · exact (grows_insertEntry c id).trans (grows_expand h _ (c.insertEntry id, [id]))

theorem grows_addOccurrence (h : Heap) (child : Item) (parent : ItemId) (c : Counter) :
    c.Grows (c.addOccurrence h child parent) := by
  rw [addOccurrence]
  split
  · exact (grows_link parent child (c, [])).trans (grows_expand h _ _)
  · exact .refl c

theorem grows_gainRoots (c : Counter) (id : ItemId) (n : Nat) : c.Grows (c.gainRoots id n) := by
  refine ⟨⟨⟨le_rfl, fun below => below⟩, fun exact => ?_, fun _ => le_rfl,
    fun _ below => (max_eq_left below).symm⟩, small_after _ n⟩
  have same : (c.gainRoots id n).sums = c.sums := Sums.after_eq exact
  rwa [Unwrapped, same] at exact

theorem grows_addRoots (h : Heap) (x : Item) (n : Nat) (c : Counter) :
    c.Grows (c.addRoots h x n) := by
  rw [addRoots]
  split
  · exact grows_increase c n
  · rename_i id _
    exact (grows_track h id c).trans ((grows_gainRoots _ id n).trans (.of_eq rfl rfl rfl))

theorem swells_inWords (c : Counter) : c.Swells c.inWords := by
  refine ⟨⟨le_rfl, id⟩, fun exact same => exact ?_, fun _ => le_rfl,
    fun _ below => (max_eq_left below).symm⟩
  rw [inWords, same]
  rfl

theorem grows_suspect (h : Heap) (x : Item) (c : Counter) : c.Grows (c.suspect h x) := by
  rw [suspect]
  split
  · exact .refl c
  · rename_i id _
    refine (grows_track h id c).trans ?_
    simp only
    split
    · exact .of_eq rfl rfl rfl
    · exact .refl _

theorem decrease_follows (n : Nat) : Follows Sinks (decrease n) := by
  intro c
  rw [apply_decrease]
  split
  · exact .refl c
  · exact ⟨Nat.sub_le .., rfl, rfl⟩

theorem releaseChildren_follows (parent : ItemId) (edges : List (ItemId × Nat))
    (unheld : List ItemId) : Follows Sinks (releaseChildren parent edges unheld) := by
  induction edges generalizing unheld with
  | nil => exact .pure unheld
  | cons edge rest ih =>
    obtain ⟨child, n⟩ := edge
    refine .get_bind fun c => ?_
    split
    · exact .violate _
    · split
      · exact .violate _
      · refine .bind (.modify (sinks_setEntry child _)) fun _ => ?_
        split
        · exact ih unheld
        · split
          · exact ih (child :: unheld)
          · exact .bind (.modify (sinks_addCandidate child)) fun _ => ih unheld

theorem freeOne_follows (id : ItemId) : Follows Sinks (freeOne id) := by
  refine .get_bind fun c => ?_
  split
  · exact .pure []
  · rename_i e _
    refine .bind (.modify (sinks_eraseEntry id)) fun _ => ?_
    split
    · exact .violate _
    · refine .bind (.modify (sinks_dropCandidate id)) fun _ => ?_
      exact (decrease_follows e.weight).bind fun _ => releaseChildren_follows id e.edges.toList []

theorem cascade_follows (fuel : Nat) (unheld : List ItemId) :
    Follows Sinks (cascade fuel unheld) := by
  induction fuel generalizing unheld with
  | zero => exact .pure ()
  | succ fuel ih =>
    refine .get_bind fun c => ?_
    split
    · exact .pure ()
    · rename_i id rest _
      exact (freeOne_follows id).bind fun more => ih (more ++ rest)

theorem free_follows (id : ItemId) : Follows Sinks (free id) :=
  .get_bind fun c => cascade_follows c.tracked.size [id]

theorem settle_follows (id : ItemId) (e : Entry) : Follows Sinks (do
    modify (·.setEntry id e)
    if e.roots > 0 then
      pure ()
    else if e.references = 0 then
      free id
    else
      modify (·.addCandidate id)) := by
  refine .bind (.modify (sinks_setEntry id e)) fun _ => ?_
  split
  · exact .pure ()
  · split
    · exact free_follows id
    · exact .modify (sinks_addCandidate id)

theorem release_follows (id : ItemId) (n : Nat) : Follows Sinks (release id n) := by
  refine .get_bind fun c => ?_
  split
  · exact .violate _
  · rename_i e _
    split
    · exact .violate _
    · exact settle_follows id { e with references := e.references - n }

theorem removeRoot_follows (x : Item) : Follows Sinks (removeRoot x) := by
  rw [removeRoot]
  split
  · exact decrease_follows 1
  · rename_i id _
    refine .get_bind fun c => ?_
    split
    · exact .violate _
    · rename_i e _
      split
      · exact .violate _
      · exact settle_follows id { e with roots := e.roots - 1 }

theorem removeOccurrence_follows (child : Item) (parent : ItemId) :
    Follows Sinks (removeOccurrence child parent) := by
  refine .get_bind fun c => ?_
  split
  · exact .pure ()
  · split
    · split
      · exact .violate _
      · exact .bind (.modify (sinks_setEntry parent _)) fun _ => decrease_follows 1
    · rename_i id _
      split
      · exact .violate _
      · exact .bind (.modify (sinks_setEntry parent _)) fun _ => release_follows id 1

end Counter

namespace Pass

open Counter

def Sinks (p q : Pass) : Prop := p.counter.Sinks q.counter

instance : IsPreorder Pass Sinks where
  refl p := .refl p.counter
  trans _ _ _ first second := Counter.Sinks.trans first second

theorem onCounter_follows {α : Type} {x : Action Counter α} (follows : Follows Counter.Sinks x) :
    Follows Sinks (onCounter x) :=
  follows.onPart fun _ _ sinks => sinks

theorem releaseOutside_follows (members : Std.ExtTreeMap ItemId Unit)
    (edges : List (ItemId × Nat)) : Follows Sinks (releaseOutside members edges) := by
  induction edges with
  | nil => exact .pure ()
  | cons edge rest ih =>
    rw [releaseOutside]
    split
    · exact (onCounter_follows (release_follows _ _)).bind fun _ => ih
    · exact ih

theorem sinks_eraseAll (ids : List ItemId) (c : Counter) :
    c.Sinks (ids.foldl (fun c id => (c.eraseEntry id).dropCandidate id) c) := by
  induction ids generalizing c with
  | nil => exact .refl c
  | cons id ids ih =>
    have first := (sinks_eraseEntry id c).trans (sinks_dropCandidate id _)
    exact first.trans (ih _)

theorem freeComponent_follows (ids : List ItemId) : Follows Sinks (freeComponent ids) := by
  refine .get_bind fun p => ?_
  refine .bind (.modify fun q => sinks_eraseAll ids q.counter) fun _ => ?_
  refine (onCounter_follows (decrease_follows _)).bind fun _ => ?_
  refine .bind (.modify fun q => .refl q.counter) fun _ => ?_
  exact .forM (fun (e : Entry) => releaseOutside_follows _ e.edges.toList) _

theorem judge_follows (components : List (List ItemId)) : Follows Sinks (judge components) := by
  induction components with
  | nil => exact .pure ()
  | cons ids rest ih =>
    refine .get_bind fun p => ?_
    split
    · exact (freeComponent_follows ids).bind fun _ => ih
    · exact ih

theorem sweep_follows : Follows Sinks sweep := by
  refine .get_bind fun p => ?_
  by_cases none : p.counter.candidates.isEmpty = true
  · simp only [if_pos none]
    exact .pure ()
  · simp only [if_neg none]
    refine .bind (.modify fun q => ⟨le_rfl, rfl, rfl⟩) fun _ => ?_
    exact (judge_follows _).bind fun _ => .modify fun q => ⟨le_rfl, rfl, rfl⟩

end Pass

end LiveItems
