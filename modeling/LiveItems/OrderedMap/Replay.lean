import LiveItems.OrderedMap.Lemmas
set_option autoImplicit false

namespace LiveItems.OrderedMap

variable {α β : Type}

inductive Change (α β : Type) where
  | set (k : α) (v : β)
  | remove (k : α)
  | clear

namespace Change

def key? : Change α β → Option α
  | set k _ => some k
  | remove k => some k
  | clear => none

def value? : Change α β → Option β
  | set _ v => some v
  | _ => none

end Change

variable [DecidableEq α]

def change (m : OrderedMap α β) : Change α β → OrderedMap α β
  | .set k v => m.insert k v
  | .remove k => m.erase k
  | .clear => {}

/-- The map after the changes of a log, the latest first. -/
def replay (m : OrderedMap α β) : List (Change α β) → OrderedMap α β
  | [] => m
  | latest :: earlier => (m.replay earlier).change latest

/-- What the last change of the key, or the last clearing, has left at the key. -/
def written (m : OrderedMap α β) : List (Change α β) → α → Option β
  | [], k => m.get? k
  | .set k' v :: earlier, k => if k = k' then some v else m.written earlier k
  | .remove k' :: earlier, k => if k = k' then none else m.written earlier k
  | .clear :: _, _ => none

/-- The time at which the key came in after it had last been absent. The keys that were there from
the beginning came in one by one before the first change, and a key that is written again while it
is present has not come in anew. -/
def since (m : OrderedMap α β) : List (Change α β) → α → Nat
  | [], k => m.keys.idxOf k
  | .set k' _ :: earlier, k =>
    if k = k' ∧ (m.written earlier k).isNone then m.size + earlier.length else m.since earlier k
  | _ :: earlier, k => m.since earlier k

variable (m : OrderedMap α β) {k : α}

theorem get?_replay (log : List (Change α β)) (k : α) :
    (m.replay log).get? k = m.written log k := by
  induction log with
  | nil => rfl
  | cons latest earlier ih =>
    cases latest with
    | set k' v => rw [replay, change, get?_insert, written, ih]
    | remove k' => rw [replay, change, get?_erase, written, ih]
    | clear => rfl

theorem mem_keys_replay {log : List (Change α β)} :
    k ∈ (m.replay log).keys ↔ (m.written log k).isSome := by
  rw [← get?_replay, Option.isSome_iff_ne_none, ne_eq, get?_eq_none_iff, Decidable.not_not]

theorem since_lt (log : List (Change α β)) (present : k ∈ (m.replay log).keys) :
    m.since log k < m.size + log.length := by
  induction log with
  | nil =>
    have bound := List.idxOf_lt_length_of_mem present
    rwa [keys, List.length_map, length_toList] at bound
  | cons latest earlier ih =>
    cases latest with
    | set k' v =>
      rw [since]
      split
      · exact Nat.lt_succ_self _
      · rename_i old
        refine Nat.lt_succ_of_lt (ih ?_)
        rw [replay, change, mem_keys_insert] at present
        rcases present with rfl | present
        · rw [mem_keys_replay, Option.isSome_iff_ne_none]
          exact fun absent => old ⟨rfl, Option.isNone_iff_eq_none.2 absent⟩
        · exact present
    | remove k' =>
      rw [replay, change, keys_erase] at present
      exact Nat.lt_succ_of_lt (ih (List.mem_filter.1 present).1)
    | clear => exact absurd present List.not_mem_nil

theorem since_set_of_mem {log : List (Change α β)} (present : k ∈ (m.replay log).keys) (k' : α)
    (v : β) : m.since (.set k' v :: log) k = m.since log k := by
  rw [mem_keys_replay] at present
  exact if_neg fun h => Option.not_isSome_iff_eq_none.2 (Option.isNone_iff_eq_none.1 h.2) present

theorem keys_pairwise_idxOf : m.keys.Pairwise fun a b => m.keys.idxOf a < m.keys.idxOf b := by
  rw [List.pairwise_iff_getElem]
  intro i j hi hj before
  rwa [m.nodup_keys.idxOf_getElem, m.nodup_keys.idxOf_getElem]

/-- The keys stand in the order in which they came in. -/
theorem keys_replay_pairwise (log : List (Change α β)) :
    (m.replay log).keys.Pairwise fun a b => m.since log a < m.since log b := by
  induction log with
  | nil => exact m.keys_pairwise_idxOf
  | cons latest earlier ih =>
    cases latest with
    | set k' v =>
      have kept : (m.replay earlier).keys.Pairwise fun a b =>
          m.since (.set k' v :: earlier) a < m.since (.set k' v :: earlier) b := by
        refine ih.imp_of_mem fun {a b} ha hb before => ?_
        rwa [m.since_set_of_mem ha, m.since_set_of_mem hb]
      rw [replay, change, keys_insert]
      split
      · exact kept
      · rename_i absent
        refine List.pairwise_append.2 ⟨kept, List.pairwise_singleton _ _, fun a ha b hb => ?_⟩
        obtain rfl := List.mem_singleton.1 hb
        rw [mem_keys_replay, Option.not_isSome_iff_eq_none] at absent
        rw [m.since_set_of_mem ha, since, if_pos ⟨rfl, Option.isNone_iff_eq_none.2 absent⟩]
        exact m.since_lt earlier ha
    | remove k' =>
      rw [replay, change, keys_erase]
      exact ih.sublist List.filter_sublist
    | clear => exact List.Pairwise.nil

theorem values_eq_get? : m.values.map some = m.keys.map m.get? := by
  rw [values, keys, List.map_map, List.map_map]
  refine List.map_congr_left fun e he => ?_
  exact (get?_eq_some_iff.2 he).symm

omit [DecidableEq α] in
theorem getElem?_flatMap_pair (es : List (α × α)) (i : Nat) :
    (es.flatMap fun (k, v) => [k, v])[2 * i]? = (es.map Prod.fst)[i]? ∧
      (es.flatMap fun (k, v) => [k, v])[2 * i + 1]? = (es.map Prod.snd)[i]? := by
  induction es generalizing i with
  | nil => exact ⟨rfl, rfl⟩
  | cons e es ih =>
    cases i with
    | zero => exact ⟨rfl, rfl⟩
    | succ i => exact ih i

end LiveItems.OrderedMap
