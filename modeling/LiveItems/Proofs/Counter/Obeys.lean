import LiveItems.Proofs.Heap
import LiveItems.Proofs.Ends
import LiveItems.Counter.Collection
set_option autoImplicit false

/-!
# Rules for recorded roots

A rule says how many roots a counter may have recorded for each object that it tracks. What starts
to be tracked has no roots; after that roots come and go only by calls that are about them. So a
rule survives any call that it provides for, whether the call succeeds or fails, and whatever else
the counter has recorded.
-/

namespace LiveItems

open LiveItems.Action (Ends)

def Heap.Encloses (h : Heap) (S : Set ItemId) : Prop :=
  ∀ p ∈ S, ∀ x ∈ h.children p, ∀ id, x.id? = some id → id ∈ S

namespace Counter

/-- The number of roots of each tracked object is one that the rule allows for it. -/
def Obeys (Q : ItemId → Nat → Prop) (c : Counter) : Prop :=
  ∀ a e, c.get? a = some e → Q a e.roots

variable {Q Q' : ItemId → Nat → Prop} {h : Heap} {c : Counter} {id : ItemId} {e : Entry}

theorem obeys_fresh (Q : ItemId → Nat → Prop) : fresh.Obeys Q := by
  intro a e he
  rw [get?_fresh] at he
  exact absurd he (by simp)

theorem Obeys.mono (obeys : c.Obeys Q) (weaker : ∀ a k, Q a k → Q' a k) : c.Obeys Q' :=
  fun a e he => weaker a e.roots (obeys a e he)

theorem Obeys.setEntry (obeys : c.Obeys Q) (others : ∀ a k, a ≠ id → Q a k → Q' a k)
    (own : Q' id e.roots) : (c.setEntry id e).Obeys Q' := by
  intro a e' found
  rw [get?_setEntry] at found
  split at found
  · obtain rfl := Option.some.inj found
    subst_vars
    exact own
  · rename_i ne
    exact others a e'.roots ne (obeys a e' found)

theorem Obeys.enter (obeys : c.Obeys Q) (own : Q id e.roots) : (c.setEntry id e).Obeys Q :=
  obeys.setEntry (fun _ _ _ allowed => allowed) own

theorem Obeys.modifyEntry (obeys : c.Obeys Q) {f : Entry → Entry}
    (others : ∀ a k, a ≠ id → Q a k → Q' a k) (own : ∀ e, Q id e.roots → Q' id (f e).roots) :
    (c.modifyEntry id f).Obeys Q' := by
  intro a e' found
  rw [get?_modifyEntry] at found
  split at found
  · obtain ⟨e, he, rfl⟩ := Option.map_eq_some_iff.1 found
    subst_vars
    exact own e (obeys a e he)
  · rename_i ne
    exact others a e'.roots ne (obeys a e' found)

theorem Obeys.recording (obeys : c.Obeys Q) (id : ItemId) (f : Entry → Entry)
    (same : ∀ e, (f e).roots = e.roots) : (c.modifyEntry id f).Obeys Q :=
  obeys.modifyEntry (fun _ _ _ allowed => allowed) fun e allowed => by rwa [same]

theorem Obeys.eraseEntry (obeys : c.Obeys Q) (id : ItemId) : (c.eraseEntry id).Obeys Q := by
  intro a e found
  rw [get?_eraseEntry] at found
  split at found
  · exact absurd found (by simp)
  · exact obeys a e found

theorem Obeys.gainReference (obeys : c.Obeys Q) (id : ItemId) : (c.gainReference id).Obeys Q := by
  rw [Counter.gainReference]
  split
  · exact obeys
  · rename_i e he
    have set := obeys.enter (e := { e with references := e.references + 1 }) (obeys id e he)
    simp only
    split
    · exact set
    · exact set

theorem Obeys.link (obeys : c.Obeys Q) (parent : ItemId) {x : Item}
    (inside : ∀ id, x.id? = some id → Q id 0) {pending : List ItemId}
    (waiting : ∀ p ∈ pending, Q p 0) :
    (Counter.link parent x (c, pending)).1.Obeys Q ∧
      ∀ p ∈ (Counter.link parent x (c, pending)).2, Q p 0 := by
  cases x with
  | leaf l =>
    exact ⟨Obeys.recording (c := c.increase 1) obeys parent
      (fun e => { e with leaves := e.leaves + 1 }) fun _ => rfl, waiting⟩
  | object kind id =>
    have hid : Q id 0 := inside id rfl
    have linked : ∀ {c : Counter}, c.Obeys Q → ((c.modifyEntry parent fun e =>
        { e with edges := e.edges.add id }).gainReference id).Obeys Q :=
      fun obeys => Obeys.gainReference (obeys.recording parent
        (fun e => { e with edges := e.edges.add id }) fun _ => rfl) id
    rw [Counter.link, Item.id?]
    by_cases tracked : c.isTracked id
    · simp only [tracked, if_true]
      exact ⟨linked obeys, waiting⟩
    · simp only [tracked]
      have entered : (c.insertEntry id).Obeys Q := obeys.enter hid
      refine ⟨linked entered, fun p hp => ?_⟩
      rcases List.mem_cons.1 hp with rfl | hp
      · exact hid
      · exact waiting p hp

theorem Obeys.links (obeys : c.Obeys Q) (parent : ItemId) (xs : List Item)
    (inside : ∀ x ∈ xs, ∀ id, x.id? = some id → Q id 0) {pending : List ItemId}
    (waiting : ∀ p ∈ pending, Q p 0) :
    (xs.foldl (fun s x => Counter.link parent x s) (c, pending)).1.Obeys Q ∧
      ∀ p ∈ (xs.foldl (fun s x => Counter.link parent x s) (c, pending)).2, Q p 0 := by
  induction xs generalizing c pending with
  | nil => exact ⟨obeys, waiting⟩
  | cons x xs ih =>
    obtain ⟨first, more⟩ := obeys.link parent (inside x List.mem_cons_self) waiting
    exact ih first (fun y hy => inside y (List.mem_cons_of_mem x hy)) more

theorem Obeys.expand (encloses : h.Encloses {a | Q a 0}) (fuel : Nat) {pending : List ItemId}
    (obeys : c.Obeys Q) (waiting : ∀ p ∈ pending, Q p 0) :
    (Counter.expand h fuel (c, pending)).Obeys Q := by
  induction fuel generalizing c pending with
  | zero => exact obeys
  | succ fuel ih =>
    cases pending with
    | nil => exact obeys
    | cons p pending =>
      have hp : Q p 0 := waiting p List.mem_cons_self
      obtain ⟨read, more⟩ := obeys.links p (h.children p) (encloses p hp)
        fun q hq => waiting q (List.mem_cons_of_mem p hq)
      exact ih read more

section Register

variable (encloses : h.Encloses {a | Q a 0}) (obeys : c.Obeys Q)
include encloses obeys

theorem Obeys.track (hid : Q id 0) : (c.track h id).Obeys Q := by
  rw [Counter.track]
  split
  · exact obeys
  · refine Obeys.expand encloses _ (Obeys.enter obeys hid) fun p hp => ?_
    exact (List.mem_singleton.1 hp).symm ▸ hid

variable {x : Item} (inside : ∀ id, x.id? = some id → Q id 0)
include inside

/-- More roots come under a rule that allows for them, and for fewer in case the sum leaves the
word. -/
theorem Obeys.addRoots {n : Nat} (weaker : ∀ a k, Q a k → Q' a k)
    (given : ∀ a k j, x.id? = some a → j ≤ k + n → Q a k → Q' a j) :
    (c.addRoots h x n).Obeys Q' := by
  cases x with
  | leaf l => exact obeys.mono weaker
  | object kind id =>
    exact (Obeys.track encloses obeys (inside id rfl)).modifyEntry (fun a k _ => weaker a k)
      fun e => given id e.roots _ rfl (Sums.sum_le ..)

theorem Obeys.suspect : (c.suspect h x).Obeys Q := by
  cases x with
  | leaf l => exact obeys
  | object kind id =>
    have tracked := Obeys.track encloses obeys (inside id rfl)
    rw [Counter.suspect, Item.id?]
    simp only
    split
    · exact tracked
    · exact tracked

theorem Obeys.addOccurrence (parent : ItemId) : (c.addOccurrence h x parent).Obeys Q := by
  rw [Counter.addOccurrence]
  split
  · obtain ⟨linked, more⟩ := obeys.link parent inside fun p hp => absurd hp List.not_mem_nil
    exact Obeys.expand encloses _ linked more
  · exact obeys

end Register

abbrev Keeps {α : Type} (Q : ItemId → Nat → Prop) (x : Action Counter α) (c : Counter) : Prop :=
  Ends (fun _ d => d.Obeys Q) (fun _ d => d.Obeys Q) x c

section Release

variable (obeys : c.Obeys Q)
include obeys

theorem decrease_keeps (n : Nat) : Keeps Q (decrease n) c := by
  refine .get_bind ?_
  split
  · exact .violate obeys
  · exact obeys

theorem releaseChildren_keeps (parent : ItemId) (es : List (ItemId × Nat))
    (unheld : List ItemId) : Keeps Q (releaseChildren parent es unheld) c := by
  induction es generalizing c unheld with
  | nil => exact .pure obeys
  | cons edge rest ih =>
    obtain ⟨child, n⟩ := edge
    refine .get_bind ?_
    split
    · exact .violate obeys
    · rename_i e he
      split
      · exact .violate obeys
      · have set := obeys.enter (e := { e with references := e.references - n }) (obeys child e he)
        refine .after (t := c.setEntry child { e with references := e.references - n }) rfl ?_
        split
        · exact ih set _
        · split
          · exact ih set _
          · let e := { e with references := e.references - n }
            let next := (c.setEntry child e).addCandidate child
            exact .after (t := next) rfl (ih (c := next) set _)

theorem freeOne_keeps (id : ItemId) : Keeps Q (freeOne id) c := by
  refine .get_bind ?_
  split
  · exact .pure obeys
  · rename_i e he
    have erased := obeys.eraseEntry id
    refine .after (t := c.eraseEntry id) rfl ?_
    split
    · exact .violate erased
    · refine .after (t := (c.eraseEntry id).dropCandidate id) rfl ?_
      refine (decrease_keeps (c := (c.eraseEntry id).dropCandidate id) erased e.weight).bind ?_
      exact fun _ d inside => releaseChildren_keeps inside id e.edges.toList []

theorem cascade_keeps (fuel : Nat) (unheld : List ItemId) : Keeps Q (cascade fuel unheld) c := by
  induction fuel generalizing c unheld with
  | zero => exact .pure obeys
  | succ fuel ih =>
    refine .get_bind ?_
    split
    · exact .pure obeys
    · exact (freeOne_keeps obeys _).bind fun more d inside => ih inside _

theorem free_keeps (id : ItemId) : Keeps Q (free id) c := .get_bind (cascade_keeps obeys _ _)

end Release

theorem settled_keeps (set : (c.setEntry id e).Obeys Q) :
    Keeps Q (do
      modify (·.setEntry id e)
      if e.roots > 0 then
        pure ()
      else if e.references = 0 then
        free id
      else
        modify (·.addCandidate id)) c := by
  refine .after (t := c.setEntry id e) rfl ?_
  split
  · exact .pure set
  · split
    · exact free_keeps set id
    · exact set

section Release

variable (obeys : c.Obeys Q)
include obeys

theorem release_keeps (id : ItemId) (n : Nat) : Keeps Q (release id n) c := by
  refine .get_bind ?_
  split
  · exact .violate obeys
  · rename_i e he
    split
    · exact .violate obeys
    · exact settled_keeps (obeys.enter (obeys id e he))

/-- A root goes under a rule that has it in mind. A call that fails may have taken it away. -/
theorem removeRoot_ends (x : Item) (weaker : ∀ a k, Q' a k → Q a k)
    (others : ∀ a k, x.id? ≠ some a → Q a k → Q' a k)
    (taken : ∀ a k, x.id? = some a → Q a (k + 1) → Q' a k) :
    Ends (fun _ d => d.Obeys Q) (fun _ d => d.Obeys Q') (removeRoot x) c := by
  cases x with
  | leaf l =>
    refine (decrease_keeps obeys 1).imp fun _ d kept => ?_
    exact kept.mono fun a k => others a k (by simp [Item.id?])
  | object kind id =>
    refine .get_bind ?_
    split
    · exact .violate obeys
    · rename_i e he
      by_cases none : e.roots = 0
      · simp only [none, if_true]
        exact .violate obeys
      · simp only [none, if_false]
        have one : e.roots - 1 + 1 = e.roots := Nat.succ_pred none
        have set := obeys.setEntry (e := { e with roots := e.roots - 1 })
          (fun a k ne => others a k fun same => ne (Option.some.inj same).symm)
          (taken id (e.roots - 1) rfl (one.symm ▸ obeys id e he))
        exact (settled_keeps set).worsen fun _ d kept => kept.mono weaker

theorem removeOccurrence_keeps (x : Item) (parent : ItemId) :
    Keeps Q (removeOccurrence x parent) c := by
  refine .get_bind ?_
  split
  · exact .pure obeys
  · rename_i e he
    have allowed := obeys parent e he
    cases x with
    | leaf l =>
      simp only [Item.id?]
      split
      · exact .violate obeys
      · have set := obeys.enter (e := { e with leaves := e.leaves - 1 }) allowed
        exact .after (t := c.setEntry parent _) rfl (decrease_keeps set 1)
    | object kind id =>
      simp only [Item.id?]
      split
      · exact .violate obeys
      · have set := obeys.enter (e := { e with edges := e.edges.remove id }) allowed
        exact .after (t := c.setEntry parent _) rfl (release_keeps set id 1)

end Release

end Counter

namespace Pass

open Counter (Obeys)

structure Obeys (Q : ItemId → Nat → Prop) (p : Pass) : Prop where
  counter : p.counter.Obeys Q
  collected : ∀ a ∈ p.collected, Q a 0

abbrev Keeps {α : Type} (Q : ItemId → Nat → Prop) (x : Action Pass α) (p : Pass) : Prop :=
  Ends (fun _ q => q.Obeys Q) (fun _ q => q.Obeys Q) x p

variable {Q : ItemId → Nat → Prop} {p : Pass}

theorem onCounter_keeps {α : Type} {x : Action Counter α} (obeys : p.Obeys Q)
    (keeps : Counter.Keeps Q x p.counter) : Keeps Q (onCounter x) p :=
  keeps.onPart (fun p : Pass => p.counter) (fun _ _ kept => ⟨kept, obeys.collected⟩)
    fun _ _ kept => ⟨kept, obeys.collected⟩

theorem releaseOutside_keeps (members : Std.ExtTreeMap ItemId Unit) (es : List (ItemId × Nat))
    (obeys : p.Obeys Q) : Keeps Q (releaseOutside members es) p := by
  induction es generalizing p with
  | nil => exact .pure obeys
  | cons edge rest ih =>
    obtain ⟨child, n⟩ := edge
    rw [releaseOutside]
    split
    · refine (onCounter_keeps obeys ?_).bind fun _ q kept => ih kept
      exact Counter.release_keeps obeys.counter child n
    · exact ih obeys

theorem obeys_eraseAll (ids : List ItemId) {c : Counter} (obeys : c.Obeys Q) :
    (ids.foldl (fun c id => (c.eraseEntry id).dropCandidate id) c).Obeys Q := by
  induction ids generalizing c with
  | nil => exact obeys
  | cons id ids ih => exact ih (c := (c.eraseEntry id).dropCandidate id) (obeys.eraseEntry id)

theorem freeComponent_keeps {ids : List ItemId} (obeys : p.Obeys Q)
    (members : ∀ a ∈ ids, Q a 0) : Keeps Q (freeComponent ids) p := by
  have erased : Pass.Obeys Q { p with
      counter := ids.foldl (fun c id => (c.eraseEntry id).dropCandidate id) p.counter } :=
    ⟨obeys_eraseAll ids obeys.counter, obeys.collected⟩
  refine .get_bind (.after (t := { p with counter := _ }) rfl ?_)
  refine (onCounter_keeps erased (Counter.decrease_keeps erased.counter _)).bind ?_
  intro _ q kept
  refine .after (t := { q with collected := ids ++ q.collected }) rfl ?_
  have collected : Pass.Obeys Q { q with collected := ids ++ q.collected } :=
    ⟨kept.counter, fun a ha => (List.mem_append.1 ha).elim (members a) (kept.collected a)⟩
  generalize { q with collected := ids ++ q.collected } = q at collected ⊢
  generalize ids.filterMap p.counter.get? = entries
  induction entries generalizing q with
  | nil => exact .pure collected
  | cons e entries ih =>
    exact (releaseOutside_keeps _ _ collected).bind fun _ r kept => ih r kept

theorem allowed_of_unreachable {c : Counter} {ids : List ItemId} (obeys : c.Obeys Q)
    (unreachable : c.isUnreachable ids = true) : ∀ a ∈ ids, Q a 0 := by
  intro a ha
  have judged := List.all_eq_true.1 unreachable a ha
  cases he : c.get? a with
  | none => simp [he] at judged
  | some e =>
    simp only [he, Bool.and_eq_true, beq_iff_eq] at judged
    exact judged.1 ▸ obeys a e he

theorem judge_keeps (components : List (List ItemId)) (obeys : p.Obeys Q) :
    Keeps Q (judge components) p := by
  induction components generalizing p with
  | nil => exact .pure obeys
  | cons ids rest ih =>
    refine .get_bind ?_
    split
    · rename_i unreachable
      refine (freeComponent_keeps obeys ?_).bind fun _ q kept => ih kept
      exact allowed_of_unreachable obeys.counter unreachable
    · exact ih obeys

theorem sweep_keeps (obeys : p.Obeys Q) : Keeps Q sweep p := by
  refine .get_bind ?_
  dsimp only
  split
  · exact .pure obeys
  · refine .after (t := { p with counter := { p.counter with candidates := {} } }) rfl ?_
    have cleared : Pass.Obeys Q { p with counter := { p.counter with candidates := {} } } :=
      ⟨obeys.counter, obeys.collected⟩
    refine (judge_keeps _ cleared).bind fun _ q kept => ?_
    exact ⟨kept.counter, kept.collected⟩

end Pass

end LiveItems
