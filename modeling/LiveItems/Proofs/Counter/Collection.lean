import LiveItems.Proofs.Counter.Component
import LiveItems.Proofs.Counter.Coverage
import LiveItems.Proofs.Graph.Components
set_option autoImplicit false

/-!
# Collection passes are exact

A pass judges each component after all components with edges into it, so when a garbage component is
judged, whatever has held it from outside has gone. If some member has gone with that already, it is
the only member. So a pass frees all garbage, and it frees nothing else. It collects what lies on
cycles and what nothing has held; the rest goes as soon as what has held it goes: `sweep_swept`.
-/

namespace LiveItems

namespace Counter

def Garbage (c : Counter) (a : ItemId) : Prop := a ∈ c.ids ∧ ¬c.Live a

/-- Garbage that goes as a member of its component. All other garbage is held by garbage, and goes
with that. -/
def Doomed (c : Counter) (a : ItemId) : Prop :=
  c.Garbage a ∧ (Relation.TransGen (fun p b => 0 < c.flow p b) a a ∨ c.referenceCount a = 0)

section Garbage

variable {c : Counter} {p a : ItemId}

theorem Live.tail (h : c.Live p) (edge : 0 < c.flow p a) : c.Live a := by
  obtain ⟨r, rooted, path⟩ := h
  exact ⟨r, rooted, path.tail edge⟩

theorem Live.trans (h : c.Live p) (path : c.Leads p a) : c.Live a := by
  obtain ⟨r, rooted, path'⟩ := h
  exact ⟨r, rooted, path'.trans path⟩

theorem Garbage.rootless (h : c.Garbage a) : c.rootCount a = 0 := by
  by_contra rooted
  exact h.2 ⟨a, Nat.pos_of_ne_zero rooted, .refl⟩

theorem Garbage.pred (h : c.Garbage a) (edge : 0 < c.flow p a) : c.Garbage p :=
  ⟨mem_ids_of_flow edge, fun live => h.2 (live.tail edge)⟩

theorem garbage_swallows (touched : Set ItemId) : c.Swallows touched {a | c.Garbage a} := by
  intro a ha rootless _ preds
  refine ⟨ha, ?_⟩
  rintro ⟨r, rooted, path⟩
  rcases Relation.ReflTransGen.cases_tail path with rfl | ⟨p, path, edge⟩
  · omega
  · exact (preds p edge).2 ⟨r, rooted, path⟩

end Garbage

theorem reaches_iff {c : Counter} {owed : ItemId → Nat} (hc : Coherent owed c) {p a : ItemId} :
    Graph.Reaches c.successors p a ↔ c.Leads p a := by
  have same : (fun u v => v ∈ c.successors u) = fun p a => 0 < c.flow p a := by
    funext u v
    exact propext hc.mem_keys_iff
  rw [Graph.Reaches, Leads, same]

theorem edgeCount_eq (c : Counter) : c.edgeCount = ∑ p ∈ c.ids, (c.successors p).length := by
  have sum : ∀ (es : List (ItemId × Entry)) (n : Nat),
      es.foldl (fun n e => n + e.2.edges.size) n = n + (es.map fun e => e.2.edges.size).sum := by
    intro es
    induction es with
    | nil =>
      intro n
      rfl
    | cons e es ih =>
      intro n
      rw [List.foldl_cons, ih, List.map_cons, List.sum_cons]
      omega
  rw [edgeCount, Std.ExtTreeMap.foldl_eq_foldl_toList, sum, Nat.zero_add, ids,
    List.sum_toFinset _ Std.ExtTreeMap.nodup_keys, ← Std.ExtTreeMap.map_fst_toList_eq_keys,
    List.map_map]
  congr 1
  refine List.map_congr_left fun e he => ?_
  have found : c.get? e.1 = some e.2 := Std.ExtTreeMap.mem_toList_iff_getElem?_eq_some.1 he
  rw [Function.comp_apply, successors, edges_eq, entry_of_get? found, OrderedMap.keys,
    List.length_map, OrderedMap.length_toList]

/-- A pass has enough fuel to meet everything below the candidates. -/
theorem candidateComponents_spec {c : Counter} (hc : Coherent (fun _ => 0) c) :
    Graph.Search.Finds c.successors (c.candidates.keys.filter c.isTracked) {}
      c.candidateComponents.1 c.candidateComponents.2 := by
  refine Graph.Search.components_spec (U := c.ids) (Graph.Search.idle_empty _) (fun r hr => ?_)
    (fun p _ a ha => hc.closed (hc.mem_keys_iff.1 ha)) ?_
  · exact mem_ids.2 (List.mem_filter.1 hr).2
  · rw [Finset.sum_add_distrib, ← Finset.card_eq_sum_ones, card_ids, edgeCount_eq]
    omega

end Counter

namespace Pass

open Counter

/-- The components that a pass has to judge: a component leads to itself and to later ones, and all
garbage is in one of them. -/
structure Agenda (c : Counter) (todo : List (List ItemId)) : Prop where
  coherent : Coherent (fun _ => 0) c
  layers : Graph.Layers c.successors ∅ todo
  nodup : todo.flatten.Nodup
  garbage : ∀ a, c.Garbage a → a ∈ todo.flatten

section Agenda

variable {c : Counter} {done rest : List (List ItemId)} {k : List ItemId}

theorem Agenda.later (h : Agenda c (done ++ rest)) {p a : ItemId} (hp : p ∈ rest.flatten)
    (path : c.Leads p a) : a ∈ rest.flatten :=
  h.layers.later hp ((reaches_iff h.coherent).2 path)

theorem Agenda.apart (h : Agenda c (done ++ rest)) {a : ItemId} (ha : a ∈ done.flatten) :
    a ∉ rest.flatten := by
  have := h.nodup
  rw [List.flatten_append, List.nodup_append] at this
  exact fun hr => this.2.2 a ha a hr rfl

theorem Agenda.nodup_head (h : Agenda c (done ++ k :: rest)) : k.Nodup := by
  have := h.nodup
  rw [List.flatten_append, List.flatten_cons, List.nodup_append, List.nodup_append] at this
  exact this.2.1.1

theorem Agenda.connected (h : Agenda c (done ++ k :: rest)) {a b : ItemId} (ha : a ∈ k)
    (hb : b ∈ k) : c.Leads a b :=
  (reaches_iff h.coherent).1 (h.layers.drop.2.1 a ha b hb)

theorem mem_cons_flatten {a : ItemId} (ha : a ∈ k) : a ∈ (k :: rest).flatten := by
  rw [List.flatten_cons]
  exact List.mem_append_left _ ha

/-- Edges into a component come from itself or from what has been judged before. -/
theorem Agenda.pred (h : Agenda c (done ++ k :: rest)) {p a : ItemId} (ha : a ∈ k)
    (hp : p ∈ (done ++ k :: rest).flatten) (edge : 0 < c.flow p a) : p ∈ done.flatten ∨ p ∈ k := by
  rw [List.flatten_append, List.flatten_cons, List.mem_append, List.mem_append] at hp
  rcases hp with hp | hp | hp
  · exact .inl hp
  · exact .inr hp
  · have shifted : Agenda c ((done ++ [k]) ++ rest) := by
      rw [List.append_assoc]
      exact h
    have hk : a ∈ (done ++ [k]).flatten := by
      rw [List.flatten_append]
      exact List.mem_append_right _ (mem_cons_flatten ha)
    exact absurd (shifted.later hp (.single edge)) (shifted.apart hk)

theorem Agenda.inner (h : Agenda c (done ++ k :: rest)) {a b : ItemId} (ha : a ∈ k) (hb : b ∈ k)
    (path : Relation.TransGen (fun p b => 0 < c.flow p b) b a) : ∃ p ∈ k, 0 < c.flow p a := by
  obtain ⟨p, path, edge⟩ := Relation.TransGen.tail'_iff.1 path
  have hp := h.later (mem_cons_flatten hb) path
  have all : p ∈ (done ++ k :: rest).flatten := by
    rw [List.flatten_append]
    exact List.mem_append_right _ hp
  refine ⟨p, (h.pred ha all edge).resolve_left fun hd => ?_, edge⟩
  exact h.apart hd hp

theorem Agenda.leads_of_ne (h : Agenda c (done ++ k :: rest)) {a b : ItemId} (ha : a ∈ k)
    (hb : b ∈ k) (ne : b ≠ a) : Relation.TransGen (fun p b => 0 < c.flow p b) b a := by
  rcases Relation.reflTransGen_iff_eq_or_transGen.1 (h.connected hb ha) with same | path
  · exact absurd same.symm ne
  · exact path

/-- A component with a cycle is held from inside at every member. -/
theorem Agenda.cyclic (h : Agenda c (done ++ k :: rest)) {a : ItemId} (ha : a ∈ k)
    (cycle : Relation.TransGen (fun p b => 0 < c.flow p b) a a) :
    ∀ b ∈ k, ∃ p ∈ k, 0 < c.flow p b := by
  intro b hb
  by_cases same : b = a
  · subst same
    exact h.inner hb hb cycle
  · exact h.inner hb ha (h.leads_of_ne hb ha (Ne.symm same))

end Agenda

/-- The components in `done` have been judged: the garbage in them has gone, and what was doomed in
them has been collected, once. -/
structure Judged (c : Counter) (done : List (List ItemId)) (gone : Finset ItemId) (p : Pass) :
    Prop where
  coherent : Coherent (fun _ => 0) p.counter
  sheds : Sheds {a | a ∈ p.collected} ∅ gone c p.counter
  garbage : ∀ a ∈ p.collected, c.Garbage a
  judged : ∀ a ∈ p.collected, a ∈ done.flatten
  swept : ∀ a ∈ done.flatten, c.Garbage a → a ∈ gone
  doomed : ∀ a ∈ done.flatten, (a ∈ p.collected ↔ c.Doomed a)
  nodup : p.collected.Nodup

section Judged

variable {c : Counter} {done rest : List (List ItemId)} {k : List ItemId} {gone : Finset ItemId}
  {p : Pass}

theorem Judged.gone_garbage (h : Judged c done gone p) : ∀ a ∈ gone, c.Garbage a :=
  h.sheds.least {a | c.Garbage a} h.garbage (garbage_swallows ∅)

theorem Judged.sound (h : Judged c done gone p) (unreachable : p.counter.Unreachable k) :
    ∀ a ∈ k, a ∈ c.ids ∧ ¬c.Live a := by
  intro a ha
  refine ⟨(h.sheds.mem_ids.1 (unreachable.tracked a ha)).1, ?_⟩
  rintro ⟨r, rooted, path⟩
  -- the way from a root to `a` never enters the component, since it would have to start inside
  have kept : ∀ x, c.Live x → x ∉ gone := fun x live hx => (h.gone_garbage x hx).2 live
  have outside : ∀ x, c.Leads r x → x ∉ k := by
    intro x path
    induction path with
    | refl =>
      intro hr
      have := unreachable.rootless r hr
      rw [h.sheds.rootCount (kept r ⟨r, rooted, .refl⟩)] at this
      omega
    | @tail x y path edge ih =>
      intro hy
      refine ih (unreachable.closed y hy x ?_)
      exact h.sheds.flow_pos.2 ⟨edge, kept x ⟨r, rooted, path⟩⟩
  exact outside a path ha

/-- A component that holds all its members has not been touched before it is judged. -/
theorem Judged.kept (h : Judged c done gone p) (agenda : Agenda c (done ++ k :: rest))
    (held : ∀ a ∈ k, ∃ q ∈ k, 0 < c.flow q a) : ∀ a ∈ k, a ∉ gone := by
  intro a hk ha
  refine h.sheds.least {x | x ∉ k} (fun x hx hk => ?_) (fun x _ _ _ preds hx => ?_) a ha hk
  · exact agenda.apart (h.judged x hx) (mem_cons_flatten hk)
  · obtain ⟨q, hq, edge⟩ := held x hx
    exact preds q edge hq

/-- A garbage component that has not gone as a whole is found. -/
theorem Judged.complete (h : Judged c done gone p) (agenda : Agenda c (done ++ k :: rest))
    {a : ItemId} (ha : a ∈ k) (garbage : c.Garbage a) (kept : a ∉ gone) :
    p.counter.Unreachable k := by
  have all : ∀ b ∈ k, c.Garbage b := by
    intro b hb
    have path := agenda.connected hb ha
    refine ⟨?_, fun live => garbage.2 (live.trans path)⟩
    rcases Relation.ReflTransGen.cases_head path with rfl | ⟨x, edge, -⟩
    · exact garbage.1
    · exact mem_ids_of_flow edge
  have none_gone : ∀ b ∈ k, b ∉ gone := by
    intro b hb hg
    -- a member that goes before the others do is held by another member
    have ne : b ≠ a := fun e => kept (e ▸ hg)
    have cycle := (agenda.leads_of_ne ha hb ne).trans (agenda.leads_of_ne hb ha ne.symm)
    exact h.kept agenda (agenda.cyclic hb cycle) b hb hg
  refine ⟨fun b hb => h.sheds.mem_ids.2 ⟨(all b hb).1, none_gone b hb⟩, fun b hb => ?_,
    fun b hb q edge => ?_⟩
  · rw [h.sheds.rootCount (none_gone b hb)]
    exact (all b hb).rootless
  · obtain ⟨edge, stays⟩ := h.sheds.flow_pos.1 edge
    have hq := (all b hb).pred edge
    rcases agenda.pred hb (agenda.garbage q hq) edge with hd | hk
    · exact absurd (h.swept q hd hq) stays
    · exact hk

theorem Judged.doomed_of_unreachable (h : Judged c done gone p)
    (agenda : Agenda c (done ++ k :: rest)) (unreachable : p.counter.Unreachable k) :
    ∀ a ∈ k, c.Doomed a := by
  intro a ha
  refine ⟨h.sound unreachable a ha, ?_⟩
  by_cases held : ∃ q ∈ k, 0 < c.flow q a
  · obtain ⟨q, hq, edge⟩ := held
    exact .inl (.tail' (agenda.connected ha hq) edge)
  · -- a sole member without references had none before, or it would have gone with the last one
    refine .inr (h.sheds.held a (unreachable.tracked a ha) (unreachable.rootless a ha) ?_)
    rw [h.coherent.references, Nat.add_zero, inflow]
    refine Finset.sum_eq_zero fun q _ => Nat.eq_zero_of_not_pos fun edge => ?_
    exact held ⟨q, unreachable.closed a ha q edge, (h.sheds.flow_pos.1 edge).1⟩

/-- What goes before its component is judged was held by garbage outside it. -/
theorem Judged.not_doomed (h : Judged c done gone p) (agenda : Agenda c (done ++ k :: rest))
    {a : ItemId} (ha : a ∈ k) (hg : a ∈ gone) : ¬c.Doomed a := by
  rintro ⟨-, cycle | loose⟩
  · exact h.kept agenda (agenda.cyclic ha cycle) a ha hg
  · refine h.sheds.least {x | x ≠ a} (fun x hx same => ?_) (fun x _ _ lost _ same => ?_) a hg rfl
    · exact agenda.apart (h.judged x hx) (mem_cons_flatten (same ▸ ha))
    · obtain none | ⟨q, edge⟩ := lost
      · exact Set.notMem_empty x none
      · rw [same, agenda.coherent.no_flow loose q] at edge
        exact lt_irrefl 0 edge

theorem Judged.step (h : Judged c done gone p) (agenda : Agenda c (done ++ k :: rest)) :
    ∃ gone' p', (if p.counter.isUnreachable k then freeComponent k else pure ()).apply p =
        (.ok (), p') ∧ Judged c (done ++ [k]) gone' p' := by
  have nodup := agenda.nodup_head
  have flatten : ∀ a, a ∈ (done ++ [k]).flatten ↔ a ∈ done.flatten ∨ a ∈ k := by
    intro a
    simp [List.flatten_append]
  by_cases test : p.counter.isUnreachable k = true
  · have unreachable := (isUnreachable_iff h.coherent nodup).1 test
    obtain ⟨gone', c', run, coherent, sheds, members⟩ :=
      freeComponent_sheds h.coherent nodup unreachable
    refine ⟨gone ∪ gone', _, by rw [if_pos test, run], coherent, ?_, fun a ha => ?_,
      fun a ha => ?_, fun a ha garbage => ?_, fun a ha => ?_, ?_⟩
    · have both := h.sheds.trans sheds
      have seeds : {a | a ∈ k ++ p.collected} = {a | a ∈ p.collected} ∪ {a | a ∈ k} := by
        ext a
        simp [or_comm]
      rwa [Set.union_empty, ← seeds] at both
    · exact (List.mem_append.1 ha).elim (h.sound unreachable a) (h.garbage a)
    · exact (flatten a).2 ((List.mem_append.1 ha).symm.imp_left (h.judged a))
    · rcases (flatten a).1 ha with hd | hk
      · exact Finset.mem_union_left _ (h.swept a hd garbage)
      · exact Finset.mem_union_right _ (members a hk)
    · rw [List.mem_append]
      rcases (flatten a).1 ha with hd | hk
      · have outside : a ∉ k := fun hk => agenda.apart hd (mem_cons_flatten hk)
        rw [← h.doomed a hd]
        exact or_iff_right outside
      · exact iff_of_true (.inl hk) (h.doomed_of_unreachable agenda unreachable a hk)
    · refine List.nodup_append.2 ⟨nodup, h.nodup, fun a hk b hb same => ?_⟩
      exact agenda.apart (h.judged b hb) (mem_cons_flatten (same ▸ hk))
  · have found : ∀ a ∈ k, c.Garbage a → a ∈ gone := by
      intro a hk garbage
      by_contra kept
      exact test ((isUnreachable_iff h.coherent nodup).2 (h.complete agenda hk garbage kept))
    refine ⟨gone, p, by rw [if_neg test]; rfl, h.coherent, h.sheds, h.garbage, fun a ha => ?_,
      fun a ha garbage => ?_, fun a ha => ?_, h.nodup⟩
    · exact (flatten a).2 (.inl (h.judged a ha))
    · exact ((flatten a).1 ha).elim (fun hd => h.swept a hd garbage) fun hk => found a hk garbage
    · rcases (flatten a).1 ha with hd | hk
      · exact h.doomed a hd
      · refine iff_of_false (fun hp => agenda.apart (h.judged a hp) (mem_cons_flatten hk)) ?_
        exact fun doomed => h.not_doomed agenda hk (found a hk doomed.1) doomed

theorem judge_judged (rest : List (List ItemId)) :
    ∀ (done : List (List ItemId)) (gone : Finset ItemId) (p : Pass), Judged c done gone p →
      Agenda c (done ++ rest) →
      ∃ gone' p', (judge rest).apply p = (.ok (), p') ∧ Judged c (done ++ rest) gone' p' := by
  induction rest with
  | nil =>
    intro done gone p h _
    exact ⟨gone, p, rfl, by rwa [List.append_nil]⟩
  | cons k rest ih =>
    intro done gone p h agenda
    obtain ⟨gone', p', run, judged⟩ := h.step agenda
    obtain ⟨gone'', p'', runs, all⟩ := ih (done ++ [k]) gone' p' judged
      (by rwa [List.append_assoc])
    refine ⟨gone'', p'', ?_, by rwa [List.append_assoc] at all⟩
    simp only [judge, Action.apply_bind, Action.apply_get]
    by_cases test : p.counter.isUnreachable k = true
    · rw [if_pos test] at run ⊢
      rw [Action.apply_bind, run]
      exact runs
    · rw [if_neg test] at run ⊢
      obtain rfl : p = p' := congrArg Prod.snd run
      exact runs

theorem Judged.start (hc : Coherent (fun _ => 0) c) : Judged c [] ∅ { counter := c } := by
  refine ⟨hc, ?_, by simp, by simp, by simp, by simp, by simp⟩
  exact .nothing fun a ha => absurd ha (Set.notMem_empty a)

theorem Judged.mem_gone (h : Judged c done gone p) (agenda : Agenda c done) {a : ItemId} :
    a ∈ gone ↔ c.Garbage a :=
  ⟨h.gone_garbage a, fun garbage => h.swept a (agenda.garbage a garbage) garbage⟩

theorem Judged.mem_ids (h : Judged c done gone p) (agenda : Agenda c done) {a : ItemId} :
    a ∈ p.counter.ids ↔ a ∈ c.ids ∧ c.Live a := by
  rw [h.sheds.mem_ids, h.mem_gone agenda, Garbage]
  refine and_congr_right fun ha => ?_
  rw [not_and, not_not]
  exact ⟨fun live => live ha, fun live _ => live⟩

end Judged

/-- What the search from the candidates finds is all that a pass has to judge. -/
theorem candidateComponents_agenda {c : Counter} (hc : Coherent (fun _ => 0) c)
    (covered : c.Covered ∅) :
    Agenda { c with candidates := {} } c.candidateComponents.1.reverse := by
  have finds := candidateComponents_spec hc
  have perm := (List.reverse_perm c.candidateComponents.1).flatten
  refine ⟨hc.congr rfl rfl, ?_, perm.nodup_iff.2 finds.nodup, fun a garbage => ?_⟩
  · have layers := finds.layers
    simp only [Std.ExtTreeMap.not_mem_empty] at layers
    exact layers
  · obtain ⟨r, rooted | candidate | none, path⟩ := covered a garbage.1
    · exact absurd ⟨r, rooted, path⟩ garbage.2
    · have tracked : r ∈ c.ids := by
        rcases Relation.ReflTransGen.cases_head path with rfl | ⟨x, edge, -⟩
        · exact garbage.1
        · exact mem_ids_of_flow edge
      have start := List.mem_filter.2 ⟨candidate, Counter.mem_ids.1 tracked⟩
      exact perm.mem_iff.2 ((finds.mem a).2 ⟨by simp, r, start, (reaches_iff hc).2 path⟩)
    · exact absurd none (Set.notMem_empty r)

/-- What a pass leaves of a counter: what roots hold, and no candidate. It has collected what was
doomed, once, and has counted that and the components it has met. -/
structure Swept (c : Counter) (collected : List ItemId) (c' : Counter) : Prop where
  coherent : Coherent (fun _ => 0) c'
  ids : ∀ a, a ∈ c'.ids ↔ a ∈ c.ids ∧ c.Live a
  entries : ∀ a ∈ c'.ids, (c.entry a).Agrees (c'.entry a)
  count : c'.count + c.weight = c.count + c'.weight
  highest : c'.highest = c.highest
  candidates : c'.candidates.isEmpty = true
  doomed : ∀ a, a ∈ collected ↔ c.Doomed a
  nodup : collected.Nodup
  items : c'.stats.collected = c.stats.collected + collected.length
  components : c'.stats.components = c.stats.components + c.candidateComponents.1.length
  passes : c'.stats.passes = c.stats.passes + if c.candidates.isEmpty then 0 else 1

theorem Swept.collected {c c' : Counter} {collected : List ItemId} (swept : Swept c collected c') :
    ∀ a ∈ collected, c.Garbage a := fun a ha => ((swept.doomed a).1 ha).1

theorem isEmpty_iff {s : OrderedSet ItemId} : s.isEmpty = true ↔ ∀ a, a ∉ s.keys := by
  rw [OrderedMap.isEmpty, Array.isEmpty_iff_size_eq_zero, ← OrderedMap.size,
    ← OrderedMap.length_toList, List.length_eq_zero_iff, ← List.map_eq_nil_iff (f := Prod.fst),
    List.eq_nil_iff_forall_not_mem]
  rfl

theorem swept_of_empty {c : Counter} (hc : Coherent (fun _ => 0) c) (covered : c.Covered ∅)
    (none : c.candidates.isEmpty = true) : Swept c [] c := by
  have live : ∀ a ∈ c.ids, c.Live a := by
    intro a ha
    obtain ⟨r, rooted | candidate | none', path⟩ := covered a ha
    · exact ⟨r, rooted, path⟩
    · exact absurd candidate (isEmpty_iff.1 none r)
    · exact absurd none' (Set.notMem_empty r)
  have nothing : c.candidateComponents.1 = [] := by
    have keys : c.candidates.keys = [] := List.eq_nil_iff_forall_not_mem.2 (isEmpty_iff.1 none)
    rw [candidateComponents, keys]
    rfl
  refine ⟨hc, fun a => ⟨fun ha => ⟨ha, live a ha⟩, fun ha => ha.1⟩, fun _ _ => .refl _, rfl, rfl,
    none, fun a => ?_, List.nodup_nil, rfl, by rw [nothing]; rfl, by rw [if_pos none]; rfl⟩
  exact iff_of_false List.not_mem_nil fun doomed => doomed.1.2 (live a doomed.1.1)

/-- A pass succeeds, and keeps exactly what roots hold. -/
theorem sweep_swept {c : Counter} (hc : Coherent (fun _ => 0) c) (covered : c.Covered ∅) :
    ∃ c' collected, sweep.apply { counter := c } = (.ok (), { counter := c', collected }) ∧
      Swept c collected c' := by
  by_cases none : c.candidates.isEmpty = true
  · refine ⟨c, [], ?_, swept_of_empty hc covered none⟩
    simp only [sweep, Action.apply_bind, Action.apply_get, none, if_true, Action.apply_pure]
  · have finds := candidateComponents_spec hc
    have agenda := candidateComponents_agenda hc covered
    obtain ⟨gone, p, run, judged⟩ :=
      judge_judged c.candidateComponents.1.reverse [] ∅ _ (.start agenda.coherent) agenda
    rw [List.nil_append] at judged
    have stats : p.counter.stats = c.stats := judged.sheds.stats
    let last : Counter :=
      { p.counter with
        candidates := p.counter.candidates.filterKeys fun id =>
          !c.candidateComponents.2.marks.contains id
        stats :=
          { passes := p.counter.stats.passes + 1
            components := p.counter.stats.components + c.candidateComponents.1.length
            collected := p.counter.stats.collected + p.collected.length } }
    refine ⟨last, p.collected, ?_, ?_⟩
    · simp only [sweep, Action.apply_bind, Action.apply_get, if_neg none, Action.apply_modify, run]
      rfl
    · refine ⟨judged.coherent.congr rfl rfl, fun a => judged.mem_ids agenda, fun a ha => ?_, ?_,
        judged.sheds.highest, isEmpty_iff.2 fun a ha => ?_, fun a => ?_, judged.nodup,
        congrArg (fun stats : PassStats => stats.collected + p.collected.length) stats,
        congrArg (fun stats : PassStats => stats.components + c.candidateComponents.1.length) stats,
        ?_⟩
      · exact judged.sheds.entries a (judged.sheds.mem_ids.1 ha).2
      · have counts := judged.sheds.count
        have weights := judged.sheds.weight
        change p.counter.count + _ = c.count at counts
        change p.counter.weight + _ = c.weight at weights
        change p.counter.count + c.weight = c.count + p.counter.weight
        omega
      · -- what has come up as a candidate was held by garbage, so the search has met it
        have visited : a ∉ c.candidateComponents.2.marks ∧ a ∈ p.counter.candidates.keys := by
          rw [OrderedMap.keys, OrderedMap.toList_filterKeys] at ha
          obtain ⟨e, he, rfl⟩ := List.mem_map.1 ha
          obtain ⟨he, test⟩ := List.mem_filter.1 he
          rw [Bool.not_eq_true'] at test
          exact ⟨fun hm => by simp [Std.ExtTreeMap.mem_iff_contains.1 hm] at test,
            List.mem_map_of_mem he⟩
        rcases (judged.sheds.candidates a).1 visited.2 with known | ⟨-, -, none' | ⟨q, hq, edge⟩⟩
        · simp at known
        · exact Set.notMem_empty a none'
        · have hq := agenda.garbage q ((judged.mem_gone agenda).1 hq)
          have found :=
            (agenda.layers.closed hq (agenda.coherent.mem_keys_iff.2 edge)).resolve_right id
          exact visited.1 ((finds.marks a).2 (.inr ((List.reverse_perm _).flatten.mem_iff.1 found)))
      · by_cases met : a ∈ c.candidateComponents.1.reverse.flatten
        · exact judged.doomed a met
        · exact iff_of_false (fun ha => met (judged.judged a ha)) fun doomed =>
            met (agenda.garbage a doomed.1)
      · rw [if_neg none]
        exact congrArg (fun stats : PassStats => stats.passes + 1) stats

end Pass

end LiveItems
