import LayeredConfig.Schema.Closure
import Mathlib.Data.List.Nodup

/-!
# What a type declares

A type lists what it declares, and what it inherits, with leaves before slots and each by name
(`Schema.declared`). Here the list is told by what stands in it and in which order, without the sorting: it
consists of the leaves that the type declares (`Schema.leaves`) and the slots that it declares
(`Schema.ownSlots`), and of each kind there is one list `Schema.ByName`.

Characteristics of one name stay in the order in which the type declares them, and of what is declared twice the
first place counts.
-/

namespace LayeredConfig

open Std

namespace Schema

variable {τ κ : Type} [DecidableEq κ] {S : Schema τ κ}

/-! ## Declarations -/

/-- All that a type declares, as often as it does and in that order; the id, which bags do not inherit, comes
first. -/
def declarations (S : Schema τ κ) (t : τ) : List κ := (if S.isBag t then [] else [S.id]) ++ S.own t

theorem mem_declared_iff {t : τ} {k : κ} : k ∈ S.declared t ↔ k ∈ S.declarations t := by
  rw [declared, Sorting.mem_sortBy, List.mem_eraseDups, declarations]

theorem mem_declared {t : τ} {k : κ} (hk : k ∈ S.declared t) : k = S.id ∨ k ∈ S.own t := by
  rw [mem_declared_iff, declarations, List.mem_append] at hk
  refine hk.imp_left fun hid => ?_
  split at hid
  · cases hid
  · exact List.mem_singleton.mp hid

/-- What comes before an element that is kept, among all that is kept, came before it from the start. -/
theorem idxOf_lt_of_filter {p : κ → Bool} {l : List κ} {a b : κ} (hb : p b = true)
    (h : (l.filter p).idxOf a < (l.filter p).idxOf b) : l.idxOf a < l.idxOf b := by
  induction l with
  | nil => exact h
  | cons x l ih =>
      by_cases hxb : x = b
      · rw [hxb, List.filter_cons_of_pos hb, List.idxOf_cons_self] at h
        exact absurd h (Nat.not_lt_zero _)
      · by_cases hxa : x = a
        · rw [hxa, List.idxOf_cons_self, List.idxOf_cons_ne _ (hxa ▸ hxb)]
          exact Nat.succ_pos _
        · rw [List.idxOf_cons_ne _ hxa, List.idxOf_cons_ne _ hxb]
          refine Nat.succ_lt_succ (ih ?_)
          cases hx : p x with
          | true =>
              rw [List.filter_cons_of_pos hx, List.idxOf_cons_ne _ hxa, List.idxOf_cons_ne _ hxb] at h
              exact Nat.lt_of_succ_lt_succ h
          | false => rwa [List.filter_cons_of_neg (by rw [hx]; decide)] at h

/-- Where only the first of equal elements is kept, all stay in the order in which they came first. -/
theorem pairwise_idxOf_eraseDups (l : List κ) : l.eraseDups.Pairwise fun a b => l.idxOf a < l.idxOf b := by
  cases l with
  | nil => exact .nil
  | cons x l =>
      have hkept : ∀ {a}, a ∈ (l.filter fun b => !b == x).eraseDups → (!a == x) = true ∧ x ≠ a := by
        intro a ha
        have hpos := (List.mem_filter.mp (List.mem_eraseDups.mp ha)).2
        exact ⟨hpos, by rintro rfl; simp at hpos⟩
      rw [List.eraseDups_cons, List.pairwise_cons]
      constructor
      · intro a ha
        rw [List.idxOf_cons_self, List.idxOf_cons_ne _ (hkept ha).2]
        exact Nat.succ_pos _
      · refine (pairwise_idxOf_eraseDups _).imp_of_mem fun ha hb hab => ?_
        rw [List.idxOf_cons_ne _ (hkept ha).2, List.idxOf_cons_ne _ (hkept hb).2]
        exact Nat.succ_lt_succ (idxOf_lt_of_filter (hkept hb).1 hab)
termination_by l.length
decreasing_by exact Nat.lt_succ_of_le List.filter_sublist.length_le

theorem nodup_eraseDups (l : List κ) : l.eraseDups.Nodup := by
  refine (pairwise_idxOf_eraseDups l).imp ?_
  rintro a _ hab rfl
  exact Nat.lt_irrefl _ hab

/-! ## The order of declarations -/

omit [DecidableEq κ] in
theorem leafFirst_eq (a b : κ) :
    S.leafFirst a b = (compareLex (compareOn fun k => (S.isSlot k).toNat) (compareOn S.name) a b).isLE := rfl

/-- Leaves before slots and each by name, and by the first place among those of one kind and name. -/
theorem pairwise_declared (t : τ) : (S.declared t).Pairwise fun a b => S.leafFirst a b = true ∧
    (S.leafFirst b a = true → (S.declarations t).idxOf a < (S.declarations t).idxOf b) := by
  refine Sorting.pairwise_sortBy_of_pairwise ?_ ?_ (pairwise_idxOf_eraseDups (S.declarations t))
  · exact Sorting.isLE_total (compareLex (compareOn fun k => (S.isSlot k).toNat) (compareOn S.name))
  · intro a b c hab hbc
    rw [leafFirst_eq] at hab hbc ⊢
    exact TransCmp.isLE_trans hab hbc

theorem nodup_declared (t : τ) : (S.declared t).Nodup :=
  (Sorting.sortBy_perm _ _).nodup_iff.mpr (nodup_eraseDups _)

/-- By name, and among those of one name by the place where the type declares them first. -/
def Before (S : Schema τ κ) (t : τ) (a b : κ) : Prop :=
  compareLex (compareOn S.name) (compareOn fun k => (S.declarations t).idxOf k) a b = .lt

/-- Nothing comes before what comes before it. -/
theorem Before.asymm {t : τ} {a b : κ} (hab : S.Before t a b) : ¬ S.Before t b a := OrientedCmp.not_lt_of_lt hab

/-- The slots that a type declares, or else the leaves, each once and by name. -/
structure ByName (S : Schema τ κ) (t : τ) (slot : Bool) (ks : List κ) : Prop where
  mem_iff : ∀ {k}, k ∈ ks ↔ k ∈ S.declarations t ∧ S.isSlot k = slot
  sorted : ks.Pairwise (S.Before t)

namespace ByName

variable {t : τ} {slot : Bool} {ks ks' : List κ}

theorem nodup (h : S.ByName t slot ks) : ks.Nodup := by
  refine h.sorted.imp ?_
  rintro a _ hab rfl
  exact hab.asymm hab

/-- There is one such list. -/
theorem eq (h : S.ByName t slot ks) (h' : S.ByName t slot ks') : ks = ks' := by
  have hperm : ks.Perm ks' :=
    (List.perm_ext_iff_of_nodup h.nodup h'.nodup).mpr fun _ => h.mem_iff.trans h'.mem_iff.symm
  exact hperm.eq_of_pairwise (fun _ _ _ _ hab hba => absurd hba hab.asymm) h.sorted h'.sorted

theorem pairwise_name (h : S.ByName t slot ks) :
    ks.Pairwise fun a b => (compare (S.name a) (S.name b)).isLE = true := by
  refine h.sorted.imp fun {a b} hab => ?_
  rcases Ordering.then_eq_lt.mp hab with hlt | ⟨heq, -⟩
  · exact congrArg Ordering.isLE hlt
  · exact congrArg Ordering.isLE heq

end ByName

omit [DecidableEq κ] in
/-- Among leaves, as among slots, the name alone counts. -/
theorem leafFirst_of_isSlot_eq {a b : κ} (hkind : S.isSlot a = S.isSlot b) :
    S.leafFirst a b = (compare (S.name a) (S.name b)).isLE := by
  rw [leafFirst, hkind, compare_self]
  rfl

/-- Of each kind a type lists what it declares by name. -/
theorem byName_filter {t : τ} {slot : Bool} {p : κ → Bool} (hp : ∀ k, p k = true ↔ S.isSlot k = slot) :
    S.ByName t slot ((S.declared t).filter p) where
  mem_iff := by
    intro k
    rw [List.mem_filter, mem_declared_iff, hp]
  sorted := by
    refine ((pairwise_declared t).filter p).imp_of_mem ?_
    rintro a b ha hb ⟨hab, hplace⟩
    have hkind : S.isSlot a = S.isSlot b :=
      ((hp a).mp (List.mem_filter.mp ha).2).trans ((hp b).mp (List.mem_filter.mp hb).2).symm
    have hswap : compare (S.name b) (S.name a) = (compare (S.name a) (S.name b)).swap := OrientedCmp.eq_swap
    rw [leafFirst_of_isSlot_eq hkind] at hab
    rw [leafFirst_of_isSlot_eq hkind.symm, hswap] at hplace
    refine Ordering.then_eq_lt.mpr ?_
    cases hname : compare (S.name a) (S.name b) with
    | lt => exact Or.inl hname
    | eq => exact Or.inr ⟨hname, Nat.compare_eq_lt.mpr (hplace (by rw [hname]; rfl))⟩
    | gt =>
        rw [hname] at hab
        cases hab

/-! ## Leaves and slots -/

/-- The leaves that a type declares. -/
def leaves (S : Schema τ κ) (t : τ) : List κ := (S.declared t).filter fun k => !S.isSlot k

/-- The slots that a type declares. -/
def ownSlots (S : Schema τ κ) (t : τ) : List κ := (S.declared t).filter S.isSlot

theorem byName_leaves (t : τ) : S.ByName t false (S.leaves t) := byName_filter fun _ => by rw [Bool.not_eq_true']

theorem byName_ownSlots (t : τ) : S.ByName t true (S.ownSlots t) := byName_filter fun _ => Iff.rfl

theorem mem_leaves {t : τ} {k : κ} : k ∈ S.leaves t ↔ k ∈ S.declared t ∧ S.slotType? k = none := by
  rw [leaves, List.mem_filter, isSlot, Bool.not_eq_true', Option.isSome_eq_false_iff, Option.isNone_iff_eq_none]

theorem exists_of_mem_ownSlots {t : τ} {c : κ} (hc : c ∈ S.ownSlots t) :
    c ∈ S.declared t ∧ ∃ u, S.slotType? c = some u := by
  obtain ⟨hdeclared, hslot⟩ := List.mem_filter.mp hc
  exact ⟨hdeclared, Option.isSome_iff_exists.mp hslot⟩

/-- The leaves stand before the slots. -/
theorem declared_eq (t : τ) : S.declared t = S.leaves t ++ S.ownSlots t := by
  have hsplit : ∀ {l : List κ}, l.Pairwise (fun a b => S.leafFirst a b = true) →
      l = l.filter (fun k => !S.isSlot k) ++ l.filter S.isSlot := by
    intro l hl
    induction l with
    | nil => rfl
    | cons a l ih =>
        obtain ⟨ha, hl⟩ := List.pairwise_cons.mp hl
        cases hslot : S.isSlot a with
        | false =>
            rw [List.filter_cons_of_pos (by rw [hslot]; rfl), List.filter_cons_of_neg (by rw [hslot]; decide),
              List.cons_append, ← ih hl]
        | true =>
            -- Nothing but slots comes after a slot.
            have hall : ∀ b ∈ l, S.isSlot b = true := by
              intro b hb
              have hab := ha b hb
              rw [leafFirst, hslot] at hab
              cases hb' : S.isSlot b with
              | true => rfl
              | false =>
                  rw [hb'] at hab
                  cases hab
            rw [List.filter_cons_of_neg (by rw [hslot]; decide), List.filter_cons_of_pos hslot,
              List.filter_eq_self.mpr hall, List.filter_eq_nil_iff.mpr, List.nil_append]
            intro b hb
            rw [hall b hb]
            decide
  exact hsplit ((pairwise_declared t).imp And.left)

end Schema

end LayeredConfig
