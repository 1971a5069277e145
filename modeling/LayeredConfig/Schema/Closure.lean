import LayeredConfig.Schema
import LayeredConfig.Sorting

/-!
# Enumeration of a node type

`Schema.declared` lists what a node type declares and inherits: leaves before slots, each by name.
`Schema.closure` lists everything that can be reached from a node type through the types of its slots, in
the order of a depth-first walk, each characteristic once: the leaves of a type, then each of its slots,
directly followed by the walk of the slot's type. The walk ends on cyclic graphs as well, since it enters
the type of each slot only once.
-/

namespace LayeredConfig

namespace Schema

variable {τ κ : Type} [DecidableEq κ] (S : Schema τ κ)

/-- What a type declares or inherits, leaves before slots and each by name; of one key declared twice the
first counts. -/
def declared (t : τ) : List κ :=
  Sorting.sortBy S.leafFirst ((if S.isBag t then [] else [S.id]) ++ S.own t).eraseDups

/-- How many slots are still to be entered. -/
def unseen (seen : List κ) : Nat := (S.slots.filter (· ∉ seen)).length

/-- The more is seen, the less is left to be entered. -/
theorem unseen_le_of_subset {seen seen' : List κ} (h : seen ⊆ seen') : S.unseen seen' ≤ S.unseen seen := by
  rw [unseen, unseen, ← List.countP_eq_length_filter, ← List.countP_eq_length_filter]
  refine List.countP_mono_left fun c _ hc => ?_
  rw [decide_eq_true_eq] at hc ⊢
  exact fun hseen => hc (h hseen)

theorem unseen_append_lt {seen : List κ} {c : κ} (hs : c ∈ S.slots) (hc : c ∉ seen) :
    S.unseen (seen ++ [c]) < S.unseen seen := by
  have hrest : S.slots.filter (· ∉ seen ++ [c]) = (S.slots.filter (· ∉ seen)).filter (· ≠ c) := by
    rw [List.filter_filter]
    refine List.filter_congr fun x _ => ?_
    simp [and_comm]
  rw [unseen, unseen, hrest]
  exact List.length_filter_lt_length_iff_exists.mpr ⟨c, by simp [hs, hc], by simp⟩

/-- How much the entry of one slot can put on the list of what is pending, at the most. -/
def breadth : List κ → Nat
  | [] => 0
  | c :: cs => ((S.slotType? c).elim 0 fun t => (S.declared t).length) + breadth cs

theorem length_declared_le_breadth {c : κ} {t : τ} (ht : S.slotType? c = some t) {cs : List κ}
    (hc : c ∈ cs) : (S.declared t).length ≤ S.breadth cs := by
  induction cs with
  | nil => simp at hc
  | cons a cs ih =>
    rw [breadth]
    rcases List.mem_cons.mp hc with e | hc
    · rw [← e, ht]
      exact Nat.le_add_right _ _
    · exact Nat.le_trans (ih hc) (Nat.le_add_left _ _)

/-- A bound on the number of steps that a walk has still to take. -/
def stepsLeft (pending seen : List κ) : Nat := S.unseen seen * (S.breadth S.slots + 1) + pending.length

theorem stepsLeft_slot_lt {c : κ} {t : τ} (rest : List κ) {seen : List κ} (hc : c ∉ seen)
    (ht : S.slotType? c = some t) :
    S.stepsLeft (S.declared t ++ rest) (seen ++ [c]) < S.stepsLeft (c :: rest) seen := by
  have h1 := S.unseen_append_lt (S.mem_slots_of_slotType ht) hc
  have h2 := S.length_declared_le_breadth ht (S.mem_slots_of_slotType ht)
  have h3 := Nat.mul_le_mul_right (S.breadth S.slots + 1) h1
  rw [Nat.succ_mul] at h3
  simp only [stepsLeft, List.length_append, List.length_cons]
  omega

theorem stepsLeft_leaf_lt (c : κ) (rest seen : List κ) :
    S.stepsLeft rest (seen ++ [c]) < S.stepsLeft (c :: rest) seen := by
  have h := Nat.mul_le_mul_right (S.breadth S.slots + 1)
    (S.unseen_le_of_subset (List.subset_append_left seen [c]))
  simp only [stepsLeft, List.length_cons]
  omega

/-- The depth-first walk: takes the pending characteristics one by one, skips those seen, and puts what the
type of a new slot declares in front of the rest. Answers all that was seen, in order. -/
def walk (pending seen : List κ) : List κ :=
  match pending with
  | [] => seen
  | c :: rest =>
    if _hc : c ∈ seen then walk rest seen
    else
      match _ht : S.slotType? c with
      | none => walk rest (seen ++ [c])
      | some t => walk (S.declared t ++ rest) (seen ++ [c])
termination_by S.stepsLeft pending seen
decreasing_by
  · simp [stepsLeft]
  · exact S.stepsLeft_leaf_lt c rest seen
  · exact S.stepsLeft_slot_lt rest _hc _ht

/-- Everything that can be reached from a type, in the order of the walk. -/
def closure (t : τ) : List κ := S.walk (S.declared t) []

/-- Whether a characteristic can be reached from a type. -/
def reaches (t : τ) (c : κ) : Bool := c ∈ S.closure t

def presentable (t : τ) (withSticky : Bool) : List κ := (S.closure t).filter (S.isPresentable withSticky)

/-! ## The walk step by step -/

theorem walk_nil (seen : List κ) : S.walk [] seen = seen := by rw [walk]

theorem walk_seen {c : κ} {seen : List κ} (rest : List κ) (h : c ∈ seen) :
    S.walk (c :: rest) seen = S.walk rest seen := by
  rw [walk, dif_pos h]

theorem walk_leaf {c : κ} {seen : List κ} (rest : List κ) (h : c ∉ seen) (ht : S.slotType? c = none) :
    S.walk (c :: rest) seen = S.walk rest (seen ++ [c]) := by
  rw [walk, dif_neg h]
  split
  · rfl
  · next t ht' => simp [ht] at ht'

theorem walk_slot {c : κ} {seen : List κ} {t : τ} (rest : List κ) (h : c ∉ seen)
    (ht : S.slotType? c = some t) :
    S.walk (c :: rest) seen = S.walk (S.declared t ++ rest) (seen ++ [c]) := by
  rw [walk, dif_neg h]
  split
  · next ht' => simp [ht] at ht'
  · next t' ht' =>
    rw [ht, Option.some.injEq] at ht'
    rw [ht']

/-- What is pending or seen is listed in the end. -/
theorem mem_walk {pending seen : List κ} {c : κ} (h : c ∈ pending ∨ c ∈ seen) :
    c ∈ S.walk pending seen := by
  fun_induction S.walk pending seen with
  | case1 => exact h.resolve_left List.not_mem_nil
  | case2 _ _ _ hc ih =>
    refine ih ?_
    rcases h with h | h
    · rcases List.mem_cons.mp h with rfl | h
      · exact Or.inr hc
      · exact Or.inl h
    · exact Or.inr h
  | case3 seen a rest _ _ ih =>
    refine ih ?_
    rw [List.mem_append, List.mem_singleton]
    rcases h with h | h
    · rcases List.mem_cons.mp h with rfl | h
      · exact Or.inr (Or.inr rfl)
      · exact Or.inl h
    · exact Or.inr (Or.inl h)
  | case4 seen a rest _ t _ ih =>
    refine ih ?_
    rw [List.mem_append, List.mem_append, List.mem_singleton]
    rcases h with h | h
    · rcases List.mem_cons.mp h with rfl | h
      · exact Or.inr (Or.inr rfl)
      · exact Or.inl (Or.inr h)
    · exact Or.inr (Or.inl h)

/-- A type reaches what it declares. -/
theorem reaches_of_mem_declared {t : τ} {c : κ} (h : c ∈ S.declared t) : S.reaches t c = true :=
  decide_eq_true (S.mem_walk (Or.inl h))

/-- No characteristic is listed twice. -/
theorem nodup_walk (pending seen : List κ) (h : seen.Nodup) : (S.walk pending seen).Nodup := by
  fun_induction S.walk pending seen with
  | case1 => exact h
  | case2 _ _ _ _ ih => exact ih h
  | case3 seen c rest hc _ ih =>
    refine ih (List.nodup_append.mpr ⟨h, by simp, ?_⟩)
    intro a ha b hb
    rw [List.mem_singleton] at hb
    exact fun e => hc (hb ▸ e ▸ ha)
  | case4 seen c rest hc t _ ih =>
    refine ih (List.nodup_append.mpr ⟨h, by simp, ?_⟩)
    intro a ha b hb
    rw [List.mem_singleton] at hb
    exact fun e => hc (hb ▸ e ▸ ha)

theorem nodup_closure (t : τ) : (S.closure t).Nodup := S.nodup_walk _ _ (by simp)

end Schema

end LayeredConfig
