/-!
# Stable sorting

Insertion sort by a Boolean order: a permutation of the list, sorted when the order is total and
transitive, and elements that are ordered both ways stay as they stood.
-/

namespace LayeredConfig.Sorting

variable {α : Type}

/-- Puts an element in front of the first one that it may precede. -/
def insertBy (le : α → α → Bool) (x : α) : List α → List α
  | [] => [x]
  | y :: ys => if le x y then x :: y :: ys else y :: insertBy le x ys

def sortBy (le : α → α → Bool) (xs : List α) : List α := xs.foldr (insertBy le) []

theorem insertBy_perm (le : α → α → Bool) (x : α) (ys : List α) : (insertBy le x ys).Perm (x :: ys) := by
  induction ys with
  | nil => exact List.Perm.refl _
  | cons y ys ih =>
    rw [insertBy]
    split
    · exact List.Perm.refl _
    · exact (ih.cons y).trans (List.Perm.swap x y ys)

theorem sortBy_perm (le : α → α → Bool) (xs : List α) : (sortBy le xs).Perm xs := by
  induction xs with
  | nil => exact List.Perm.refl _
  | cons x xs ih => exact (insertBy_perm le x _).trans (ih.cons x)

theorem mem_sortBy {le : α → α → Bool} {x : α} {xs : List α} : x ∈ sortBy le xs ↔ x ∈ xs :=
  (sortBy_perm le xs).mem_iff

theorem pairwise_insertBy {le : α → α → Bool} {R : α → α → Prop} (total : ∀ a b, le a b = true ∨ le b a = true)
    (trans : ∀ a b c, le a b = true → le b c = true → le a c = true) {x : α} {ys : List α} (hx : ∀ y ∈ ys, R x y)
    (h : ys.Pairwise fun a b => le a b = true ∧ (le b a = true → R a b)) :
    (insertBy le x ys).Pairwise fun a b => le a b = true ∧ (le b a = true → R a b) := by
  induction ys with
  | nil => simp [insertBy]
  | cons y ys ih =>
    rw [insertBy]
    have hcons := List.pairwise_cons.mp h
    split
    · next hxy =>
      refine List.pairwise_cons.mpr ⟨fun z hz => ⟨?_, fun _ => hx z hz⟩, h⟩
      rcases List.mem_cons.mp hz with e | hz
      · exact e ▸ hxy
      · exact trans x y z hxy (hcons.1 z hz).1
    · next hxy =>
      refine List.pairwise_cons.mpr ⟨fun z hz => ?_, ih (fun z hz => hx z (List.mem_cons_of_mem y hz)) hcons.2⟩
      rcases List.mem_cons.mp ((insertBy_perm le x ys).mem_iff.mp hz) with rfl | hz
      · exact ⟨(total z y).resolve_left hxy, fun h => absurd h hxy⟩
      · exact hcons.1 z hz

/-- The outcome is sorted, and elements that are ordered both ways stay as they stood. -/
theorem pairwise_sortBy_of_pairwise {le : α → α → Bool} {R : α → α → Prop}
    (total : ∀ a b, le a b = true ∨ le b a = true)
    (trans : ∀ a b c, le a b = true → le b c = true → le a c = true) {xs : List α} (h : xs.Pairwise R) :
    (sortBy le xs).Pairwise fun a b => le a b = true ∧ (le b a = true → R a b) := by
  induction xs with
  | nil => exact List.Pairwise.nil
  | cons x xs ih =>
    obtain ⟨hx, hxs⟩ := List.pairwise_cons.mp h
    exact pairwise_insertBy total trans (fun y hy => hx y (mem_sortBy.mp hy)) (ih hxs)

theorem pairwise_sortBy {le : α → α → Bool} (total : ∀ a b, le a b = true ∨ le b a = true)
    (trans : ∀ a b c, le a b = true → le b c = true → le a c = true) (xs : List α) :
    (sortBy le xs).Pairwise fun a b => le a b = true :=
  (pairwise_sortBy_of_pairwise total trans (List.pairwise_of_forall fun _ _ => trivial)).imp And.left

/-- To sort a sorted list changes nothing. -/
theorem sortBy_of_pairwise {le : α → α → Bool} {xs : List α} (h : xs.Pairwise fun a b => le a b = true) :
    sortBy le xs = xs := by
  induction xs with
  | nil => rfl
  | cons x xs ih =>
    rw [List.pairwise_cons] at h
    show insertBy le x (sortBy le xs) = x :: xs
    rw [ih h.2]
    cases xs with
    | nil => rfl
    | cons y ys => rw [insertBy, if_pos (h.1 y (List.mem_cons_self ..))]

/-- Of two elements that a lawful comparison orders, one may precede the other. -/
theorem isLE_total (cmp : α → α → Ordering) [Std.OrientedCmp cmp] (a b : α) :
    (cmp a b).isLE = true ∨ (cmp b a).isLE = true := by
  have hswap : cmp a b = (cmp b a).swap := Std.OrientedCmp.eq_swap
  rw [hswap]
  cases cmp b a <;> simp

end LayeredConfig.Sorting
