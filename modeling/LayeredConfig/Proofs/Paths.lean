import LayeredConfig.Proofs.Declarations
import Mathlib.Logic.Relation

/-!
# Paths in a graph of types

A type reaches a characteristic by a *path*: through some slots, one after the other, to a type that declares
it. Whatever the walk of a type lists is reached by a path (`Schema.exists_path`). The walk misses nothing
either, since it leaves no slot that it has seen unexpanded (`Schema.Expanded.walk`): a type enumerates what is
declared by the types that it leads to (`Schema.mem_closure_iff`).

A walk is written with one list of what was seen for the whole graph. Where the walk of a slot's type meets
nothing that was seen before, it lists what it would list by itself (`Schema.walk_apart`). That is so in a
`Treelike` type, in which every characteristic is reached by one path, the inherited id apart: there the
enumeration is made of the leaves that the type declares and, for each of its slots, the slot and the
enumeration of the slot's type (`Schema.fields_eq`).
-/

namespace LayeredConfig

namespace Schema

variable {τ κ : Type} [DecidableEq κ] {S : Schema τ κ}

/-! ## Paths -/

/-- A type reaches a characteristic through the slots of a path. -/
inductive Path (S : Schema τ κ) : τ → List κ → κ → Prop where
  | declared {t : τ} {k : κ} (hk : k ∈ S.declared t) : Path S t [] k
  | through {t u : τ} {c k : κ} {p : List κ} (hc : c ∈ S.declared t) (hu : S.slotType? c = some u)
    (hk : Path S u p k) : Path S t (c :: p) k

/-- What a walk lists was seen or pending, or is reached through a pending slot. -/
theorem exists_path_of_mem_walk {pending seen : List κ} {k : κ} (hk : k ∈ S.walk pending seen) :
    k ∈ seen ∨ k ∈ pending ∨ ∃ c ∈ pending, ∃ u p, S.slotType? c = some u ∧ Path S u p k := by
  fun_induction S.walk pending seen with
  | case1 seen => exact Or.inl hk
  | case2 seen a rest _ ih =>
      rcases ih hk with h | h | ⟨c, hc, hpath⟩
      · exact Or.inl h
      · exact Or.inr (Or.inl (List.mem_cons_of_mem a h))
      · exact Or.inr (Or.inr ⟨c, List.mem_cons_of_mem a hc, hpath⟩)
  | case3 seen a rest _ _ ih =>
      rcases ih hk with h | h | ⟨c, hc, hpath⟩
      · rcases List.mem_append.mp h with h | h
        · exact Or.inl h
        · exact Or.inr (Or.inl (List.mem_cons.mpr (Or.inl (List.mem_singleton.mp h))))
      · exact Or.inr (Or.inl (List.mem_cons_of_mem a h))
      · exact Or.inr (Or.inr ⟨c, List.mem_cons_of_mem a hc, hpath⟩)
  | case4 seen a rest _ u hu ih =>
      -- What the slot's type declares or reaches is reached through the slot.
      have hslot : ∀ {p}, Path S u p k → ∃ c ∈ a :: rest, ∃ u p, S.slotType? c = some u ∧ Path S u p k :=
        fun hpath => ⟨a, List.mem_cons_self .., u, _, hu, hpath⟩
      rcases ih hk with h | h | ⟨c, hc, v, p, hv, hpath⟩
      · rcases List.mem_append.mp h with h | h
        · exact Or.inl h
        · exact Or.inr (Or.inl (List.mem_cons.mpr (Or.inl (List.mem_singleton.mp h))))
      · rcases List.mem_append.mp h with h | h
        · exact Or.inr (Or.inr (hslot (.declared h)))
        · exact Or.inr (Or.inl (List.mem_cons_of_mem a h))
      · rcases List.mem_append.mp hc with hc | hc
        · exact Or.inr (Or.inr (hslot (.through hc hv hpath)))
        · exact Or.inr (Or.inr ⟨c, List.mem_cons_of_mem a hc, v, p, hv, hpath⟩)

/-- **Whatever a type enumerates is reached by a path.** -/
theorem exists_path {t : τ} {k : κ} (hk : k ∈ S.closure t) : ∃ p, Path S t p k := by
  rcases exists_path_of_mem_walk hk with h | h | ⟨c, hc, u, p, hu, hpath⟩
  · exact absurd h List.not_mem_nil
  · exact ⟨[], .declared h⟩
  · exact ⟨c :: p, .through hc hu hpath⟩

/-! ## What a type leads to -/

def LeadsTo (S : Schema τ κ) (t u : τ) : Prop := ∃ c ∈ S.declarations t, S.slotType? c = some u

instance [DecidableEq τ] (S : Schema τ κ) (t u : τ) : Decidable (S.LeadsTo t u) :=
  inferInstanceAs (Decidable (∃ c ∈ S.declarations t, S.slotType? c = some u))

theorem Path.leadsTo {t : τ} {p : List κ} {k : κ} (h : Path S t p k) :
    ∃ u, Relation.ReflTransGen S.LeadsTo t u ∧ k ∈ S.declarations u := by
  induction h with
  | declared hk => exact ⟨_, .refl, mem_declared_iff.mp hk⟩
  | through hc hu _ ih =>
      obtain ⟨v, hv, hk⟩ := ih
      exact ⟨v, .head ⟨_, mem_declared_iff.mp hc, hu⟩ hv, hk⟩

/-- What the type of a slot declares was seen when the slot was, or is pending. -/
def Expanded (S : Schema τ κ) (pending seen : List κ) : Prop :=
  ∀ c ∈ seen, ∀ u, S.slotType? c = some u → ∀ k ∈ S.declared u, k ∈ pending ∨ k ∈ seen

/-- **A walk expands all the slots that it lists.** A slot is expanded from the moment it is listed, by what it
puts in front of the pending list. -/
theorem Expanded.walk {pending seen : List κ} (h : S.Expanded pending seen) :
    S.Expanded [] (S.walk pending seen) := by
  fun_induction S.walk pending seen with
  | case1 seen => exact h
  | case2 seen a rest ha ih =>
      refine ih fun c hc u hu k hk => ?_
      rcases h c hc u hu k hk with hk | hk
      · rcases List.mem_cons.mp hk with rfl | hk
        · exact Or.inr ha
        · exact Or.inl hk
      · exact Or.inr hk
  | case3 seen a rest _ hleaf ih =>
      refine ih fun c hc u hu k hk => ?_
      rcases List.mem_append.mp hc with hc | hc
      · rw [List.mem_append, List.mem_singleton]
        rcases h c hc u hu k hk with hk | hk
        · exact (List.mem_cons.mp hk).symm.imp_right Or.inr
        · exact Or.inr (Or.inl hk)
      · rw [List.mem_singleton.mp hc, hleaf] at hu
        cases hu
  | case4 seen a rest _ v hv ih =>
      refine ih fun c hc u hu k hk => ?_
      rw [List.mem_append, List.mem_append, List.mem_singleton]
      rcases List.mem_append.mp hc with hc | hc
      · rcases h c hc u hu k hk with hk | hk
        · exact (List.mem_cons.mp hk).symm.imp Or.inr Or.inr
        · exact Or.inr (Or.inl hk)
      · rw [List.mem_singleton.mp hc, hv, Option.some.injEq] at hu
        exact Or.inl (Or.inl (hu ▸ hk))

theorem mem_closure_of_slot {t u : τ} {c k : κ} (hc : c ∈ S.closure t) (hu : S.slotType? c = some u)
    (hk : k ∈ S.declarations u) : k ∈ S.closure t := by
  have hstart : S.Expanded (S.declared t) [] := fun c hc => absurd hc List.not_mem_nil
  exact (hstart.walk c hc u hu k (mem_declared_iff.mpr hk)).resolve_left List.not_mem_nil

/-- **A type enumerates what is declared by the types that it leads to.** -/
theorem mem_closure_iff {t : τ} {k : κ} :
    k ∈ S.closure t ↔ ∃ u, Relation.ReflTransGen S.LeadsTo t u ∧ k ∈ S.declarations u := by
  constructor
  · intro hk
    obtain ⟨p, hp⟩ := exists_path hk
    exact hp.leadsTo
  · rintro ⟨u, hu, hk⟩
    induction hu generalizing k with
    | refl => exact S.mem_walk (Or.inl (mem_declared_iff.mpr hk))
    | tail _ hstep ih =>
        obtain ⟨c, hc, hv⟩ := hstep
        exact mem_closure_of_slot (ih hc) hv hk

/-- Where all the types that a type leads to are known, what it enumerates is what these declare. -/
theorem mem_closure_iff_of_types {t : τ} {types : List τ} (hstart : t ∈ types)
    (hled : ∀ u ∈ types, Relation.ReflTransGen S.LeadsTo t u)
    (hclosed : ∀ u ∈ types, ∀ c ∈ S.declarations u, ∀ v, S.slotType? c = some v → v ∈ types) {k : κ} :
    k ∈ S.closure t ↔ ∃ u ∈ types, k ∈ S.declarations u := by
  have hmem : ∀ {u}, Relation.ReflTransGen S.LeadsTo t u → u ∈ types := by
    intro u hu
    induction hu with
    | refl => exact hstart
    | tail _ hstep ih =>
        obtain ⟨c, hc, hv⟩ := hstep
        exact hclosed _ ih c hc _ hv
  rw [mem_closure_iff]
  exact ⟨fun ⟨u, hu, hk⟩ => ⟨u, hmem hu, hk⟩, fun ⟨u, hu, hk⟩ => ⟨u, hled u hu, hk⟩⟩

theorem mem_closure_iff_of_leaves {t : τ} (hleaves : ∀ c ∈ S.declarations t, S.slotType? c = none) {k : κ} :
    k ∈ S.closure t ↔ k ∈ S.declarations t := by
  have hled : ∀ u ∈ [t], Relation.ReflTransGen S.LeadsTo t u := fun u hu => List.mem_singleton.mp hu ▸ .refl
  have hclosed : ∀ u ∈ [t], ∀ c ∈ S.declarations u, ∀ v, S.slotType? c = some v → v ∈ [t] := by
    intro u hu c hc v hv
    rw [List.mem_singleton.mp hu] at hc
    rw [hleaves c hc] at hv
    cases hv
  rw [mem_closure_iff_of_types (List.mem_singleton.mpr rfl) hled hclosed]
  simp

theorem closure_subset_of_slot {t u : τ} {c : κ} (hc : c ∈ S.closure t) (hu : S.slotType? c = some u) :
    S.closure u ⊆ S.closure t := by
  intro k hk
  obtain ⟨v, hv, hdeclared⟩ := mem_closure_iff.mp hc
  obtain ⟨w, hw, hkw⟩ := mem_closure_iff.mp hk
  exact mem_closure_iff.mpr ⟨w, hv.trans (.head ⟨c, hdeclared, hu⟩ hw), hkw⟩

/-! ## Walks one after the other -/

def withoutId (S : Schema τ κ) (ks : List κ) : List κ := ks.filter (· ≠ S.id)

theorem mem_withoutId {ks : List κ} {k : κ} : k ∈ S.withoutId ks ↔ k ∈ ks ∧ k ≠ S.id := by
  rw [withoutId, List.mem_filter, decide_eq_true_eq]

theorem withoutId_append (ks ks' : List κ) : S.withoutId (ks ++ ks') = S.withoutId ks ++ S.withoutId ks' :=
  List.filter_append ..

theorem withoutId_id : S.withoutId [S.id] = [] := by simp [withoutId]

theorem withoutId_singleton {k : κ} (hk : k ≠ S.id) : S.withoutId [k] = [k] := by simp [withoutId, hk]

theorem walk_append (ps qs seen : List κ) : S.walk (ps ++ qs) seen = S.walk qs (S.walk ps seen) := by
  fun_induction S.walk ps seen with
  | case1 => rfl
  | case2 seen a rest ha ih => rw [List.cons_append, walk_seen S _ ha, ih]
  | case3 seen a rest ha hleaf ih => rw [List.cons_append, walk_leaf S _ ha hleaf, ih]
  | case4 seen a rest ha u hu ih => rw [List.cons_append, walk_slot S _ ha hu, ← List.append_assoc, ih]

omit [DecidableEq κ] in
theorem ne_id_of_slotType? {c : κ} {u : τ} (hu : S.slotType? c = some u) : c ≠ S.id := by
  rintro rfl
  rw [slotType?_id] at hu
  cases hu

/-- **A walk that meets nothing of a base lists behind it what it lists without it.** The id does not count: it is
a leaf, and may have been seen or not. -/
theorem walk_apart {ps seen base seen' : List κ} (hseen : S.withoutId seen' = base ++ S.withoutId seen)
    (hbase : ∀ k ∈ base, k ∉ S.walk ps seen) :
    S.withoutId (S.walk ps seen') = base ++ S.withoutId (S.walk ps seen) := by
  -- What is not the id was seen in the one walk if it was seen in the other, or is in the base.
  have hmem : ∀ {s s' : List κ} {a : κ}, S.withoutId s' = base ++ S.withoutId s → a ≠ S.id →
      (a ∈ s' ↔ a ∈ base ∨ a ∈ s) := by
    intro s s' a hs ha
    have hwithout : ∀ l : List κ, a ∈ S.withoutId l ↔ a ∈ l := fun l => by simp [mem_withoutId, ha]
    rw [← hwithout s', hs, List.mem_append, hwithout]
  have hadd : ∀ {s s' : List κ} (a : κ), S.withoutId s' = base ++ S.withoutId s →
      S.withoutId (s' ++ [a]) = base ++ S.withoutId (s ++ [a]) := by
    intro s s' a hs
    rw [withoutId_append, hs, withoutId_append, List.append_assoc]
  fun_induction S.walk ps seen generalizing seen' with
  | case1 => rwa [walk_nil]
  | case2 seen a rest ha ih =>
      by_cases ha' : a ∈ seen'
      · rw [walk_seen S _ ha', ih hseen hbase]
      · have hid : a = S.id := by_contra fun hne => ha' ((hmem hseen hne).mpr (Or.inr ha))
        subst hid
        rw [walk_leaf S _ ha' S.slotType?_id]
        exact ih (by rw [withoutId_append, withoutId_id, List.append_nil, hseen]) hbase
  | case3 seen a rest ha hleaf ih =>
      by_cases ha' : a ∈ seen'
      · have hid : a = S.id := by
          refine by_contra fun hne => ?_
          rcases (hmem hseen hne).mp ha' with hb | hs
          · exact hbase a hb (S.mem_walk (Or.inr (List.mem_append_right _ (List.mem_singleton.mpr rfl))))
          · exact ha hs
        subst hid
        rw [walk_seen S _ ha']
        exact ih (by rw [withoutId_append, withoutId_id, List.append_nil, hseen]) hbase
      · rw [walk_leaf S _ ha' hleaf]
        exact ih (hadd a hseen) hbase
  | case4 seen a rest ha u hu ih =>
      have ha' : a ∉ seen' := by
        rw [hmem hseen (ne_id_of_slotType? hu), not_or]
        refine ⟨fun hb => hbase a hb ?_, ha⟩
        exact S.mem_walk (Or.inr (List.mem_append_right _ (List.mem_singleton.mpr rfl)))
      rw [walk_slot S _ ha' hu]
      exact ih (hadd a hseen) hbase

/-! ## Types in which every path is the only one -/

/-- What a type reaches, the id left out. -/
def fields (S : Schema τ κ) (t : τ) : List κ := S.withoutId (S.closure t)

/-- A slot and what its type reaches. -/
def block (S : Schema τ κ) (c : κ) : List κ := c :: (S.slotType? c).elim [] S.fields

/-- A type from which no bag is reached, and nothing on two paths, the inherited id apart. -/
structure Treelike (S : Schema τ κ) (t : τ) : Prop where
  not_bag : S.isBag t = false
  slots_not_bag : ∀ {p c u}, Path S t p c → S.slotType? c = some u → S.isBag u = false
  unique : ∀ {p q k}, k ≠ S.id → Path S t p k → Path S t q k → p = q

theorem Treelike.slot {t u : τ} {c : κ} (h : S.Treelike t) (hc : c ∈ S.declared t) (hu : S.slotType? c = some u) :
    S.Treelike u where
  not_bag := h.slots_not_bag (.declared hc) hu
  slots_not_bag := fun hpath hv => h.slots_not_bag (.through hc hu hpath) hv
  unique := fun hk hp hq => (List.cons.inj (h.unique hk (.through hc hu hp) (.through hc hu hq))).2

theorem path_of_mem_block {t : τ} {c k : κ} (hc : c ∈ S.declared t) (hk : k ∈ S.block c) :
    ∃ p, Path S t p k ∧ (p = [] ∧ k = c ∨ ∃ q, p = c :: q) := by
  rcases List.mem_cons.mp hk with rfl | hk
  · exact ⟨[], .declared hc, Or.inl ⟨rfl, rfl⟩⟩
  · cases hu : S.slotType? c with
    | none =>
        rw [hu] at hk
        cases hk
    | some u =>
        rw [hu] at hk
        obtain ⟨q, hq⟩ := exists_path (mem_withoutId.mp hk).1
        exact ⟨c :: q, .through hc hu hq, Or.inr ⟨q, rfl⟩⟩

namespace Treelike

variable {t : τ} (h : S.Treelike t)

include h

theorem disjoint_block {c d : κ} (hc : c ∈ S.ownSlots t) (hd : d ∈ S.ownSlots t) (hne : c ≠ d) :
    (S.block c).Disjoint (S.block d) := by
  obtain ⟨hc, u, hu⟩ := exists_of_mem_ownSlots hc
  obtain ⟨hd, v, hv⟩ := exists_of_mem_ownSlots hd
  intro k hkc hkd
  have hid : k ≠ S.id := by
    rcases List.mem_cons.mp hkc with rfl | hk
    · exact ne_id_of_slotType? hu
    · rw [hu] at hk
      exact (mem_withoutId.mp hk).2
  obtain ⟨p, hp, hpc⟩ := path_of_mem_block hc hkc
  obtain ⟨q, hq, hqd⟩ := path_of_mem_block hd hkd
  obtain rfl := h.unique hid hp hq
  rcases hpc with ⟨rfl, rfl⟩ | ⟨p', rfl⟩
  · rcases hqd with ⟨-, rfl⟩ | ⟨q', hq'⟩
    · exact hne rfl
    · cases hq'
  · rcases hqd with ⟨hq', -⟩ | ⟨q', hq'⟩
    · cases hq'
    · exact hne (List.cons.inj hq').1

theorem nodup_block {c : κ} (hc : c ∈ S.ownSlots t) : (S.block c).Nodup := by
  obtain ⟨hc, u, hu⟩ := exists_of_mem_ownSlots hc
  rw [block, hu]
  refine List.nodup_cons.mpr ⟨fun hmem => ?_, (S.nodup_closure u).filter _⟩
  -- The slot would be reached through itself.
  obtain ⟨p, hp⟩ := exists_path (mem_withoutId.mp hmem).1
  cases h.unique (ne_id_of_slotType? hu) (.declared hc) (.through hc hu hp)

theorem nodup_blocks : (S.withoutId (S.leaves t) ++ (S.ownSlots t).flatMap S.block).Nodup := by
  have hslots : (S.ownSlots t).Nodup := (nodup_declared t).filter _
  refine List.nodup_append.mpr ⟨((nodup_declared t).filter _).filter _, ?_, ?_⟩
  · refine List.nodup_flatMap.mpr ⟨fun c hc => h.nodup_block hc, ?_⟩
    exact hslots.imp_of_mem fun hc hd hne => h.disjoint_block hc hd hne
  · rintro k hk _ hk' rfl
    obtain ⟨hleaf, hid⟩ := mem_withoutId.mp hk
    obtain ⟨hdeclared, hnone⟩ := mem_leaves.mp hleaf
    obtain ⟨c, hc, hmem⟩ := List.mem_flatMap.mp hk'
    obtain ⟨hc, u, hu⟩ := exists_of_mem_ownSlots hc
    obtain ⟨p, hp, hpc⟩ := path_of_mem_block hc hmem
    obtain rfl := h.unique hid (.declared hdeclared) hp
    rcases hpc with ⟨-, rfl⟩ | ⟨q, hq⟩
    · rw [hnone] at hu
      cases hu
    · cases hq

end Treelike

/-! ## Enumerations of treelike types -/

theorem walk_leaves {ks seen : List κ} (hleaf : ∀ k ∈ ks, S.slotType? k = none) (hks : ks.Nodup) :
    S.walk ks seen = seen ++ ks.filter (· ∉ seen) := by
  induction ks generalizing seen with
  | nil => rw [walk_nil, List.filter_nil, List.append_nil]
  | cons k ks ih =>
      obtain ⟨hk, hks⟩ := List.nodup_cons.mp hks
      have hrest := fun k' hk' => hleaf k' (List.mem_cons_of_mem k hk')
      by_cases hseen : k ∈ seen
      · rw [walk_seen S _ hseen, ih hrest hks, List.filter_cons_of_neg (by simpa using hseen)]
      · -- The leaf itself does not come again, so that it makes no difference that it has been seen.
        have hfilter : ks.filter (· ∉ seen ++ [k]) = ks.filter (· ∉ seen) := by
          refine List.filter_congr fun k' hk' => ?_
          have hne : k' ≠ k := fun e => hk (e ▸ hk')
          simp [hne]
        rw [walk_leaf S _ hseen (hleaf k (List.mem_cons_self ..)), ih hrest hks, hfilter,
          List.filter_cons_of_pos (by simpa using hseen), List.append_assoc, List.singleton_append]

theorem walk_declared {u : τ} {seen : List κ} (hnew : (S.withoutId seen ++ S.fields u).Nodup) :
    S.withoutId (S.walk (S.declared u) seen) = S.withoutId seen ++ S.fields u := by
  have hstart : S.withoutId seen = S.withoutId seen ++ S.withoutId [] := (List.append_nil _).symm
  refine walk_apart hstart fun k hk hmem => ?_
  have hfield : k ∈ S.fields u := mem_withoutId.mpr ⟨hmem, (mem_withoutId.mp hk).2⟩
  exact (List.nodup_append.mp hnew).2.2 k hk k hfield rfl

theorem walk_slots {cs seen : List κ} (hslot : ∀ c ∈ cs, S.isSlot c = true)
    (hnew : (S.withoutId seen ++ cs.flatMap S.block).Nodup) :
    S.withoutId (S.walk cs seen) = S.withoutId seen ++ cs.flatMap S.block := by
  induction cs generalizing seen with
  | nil => rw [walk_nil, List.flatMap_nil, List.append_nil]
  | cons c cs ih =>
      obtain ⟨u, hu⟩ := Option.isSome_iff_exists.mp (hslot c (List.mem_cons_self ..))
      have hid := ne_id_of_slotType? hu
      have hc : c ∉ seen := by
        intro hc
        have hmem : c ∈ (c :: cs).flatMap S.block :=
          List.mem_flatMap.mpr ⟨c, List.mem_cons_self .., List.mem_cons_self ..⟩
        exact (List.nodup_append.mp hnew).2.2 c (mem_withoutId.mpr ⟨hc, hid⟩) c hmem rfl
      -- To enter the slot is to see it, and then to walk through its type.
      have hentered : S.withoutId seen ++ S.block c = S.withoutId (seen ++ [c]) ++ S.fields u := by
        rw [withoutId_append, withoutId_singleton hid, List.append_assoc, block, hu]
        rfl
      rw [List.flatMap_cons, ← List.append_assoc, hentered] at hnew ⊢
      have hwalk := walk_declared (List.nodup_append.mp hnew).1
      rw [walk_slot S _ hc hu, walk_append, ← hwalk]
      exact ih (fun c' hc' => hslot c' (List.mem_cons_of_mem c hc')) (hwalk ▸ hnew)

/-- **A treelike type enumerates its leaves, and then each of its slots with what the slot's type enumerates.** -/
theorem fields_eq {t : τ} (h : S.Treelike t) :
    S.fields t = S.withoutId (S.leaves t) ++ (S.ownSlots t).flatMap S.block := by
  have hleaves : S.walk (S.leaves t) [] = S.leaves t := by
    rw [walk_leaves (fun k hk => (mem_leaves.mp hk).2) ((nodup_declared t).filter _), List.nil_append]
    exact List.filter_eq_self.mpr fun _ _ => decide_eq_true List.not_mem_nil
  rw [fields, closure, declared_eq, walk_append, hleaves]
  exact walk_slots (fun c hc => (List.mem_filter.mp hc).2) h.nodup_blocks

/-! ## Plans -/

/-- A plan of some types: the path to each of them, and to what they declare. -/
structure Plan (S : Schema τ κ) where
  types : List τ
  place : τ → List κ
  route : κ → List κ
  not_bag : ∀ u ∈ types, S.isBag u = false
  route_eq : ∀ u ∈ types, ∀ k ∈ S.own u, k ≠ S.id → route k = place u
  place_eq : ∀ u ∈ types, ∀ c ∈ S.own u, ∀ v, S.slotType? c = some v → v ∈ types ∧ place v = place u ++ [c]

namespace Plan

variable (P : Plan S)

theorem mem_own_of_slot {t u : τ} {c : κ} (hc : c ∈ S.declared t) (hu : S.slotType? c = some u) : c ∈ S.own t :=
  (mem_declared hc).resolve_left (ne_id_of_slotType? hu)

theorem route_of_path {t : τ} {p : List κ} {k : κ} (h : Path S t p k) (ht : t ∈ P.types) (hk : k ≠ S.id) :
    P.route k = P.place t ++ p := by
  induction h with
  | declared hd => rw [List.append_nil, P.route_eq _ ht _ ((mem_declared hd).resolve_left hk) hk]
  | @through t u c k p hc hu _ ih =>
      obtain ⟨hmem, hplace⟩ := P.place_eq t ht c (mem_own_of_slot hc hu) u hu
      rw [ih hmem hk, hplace, List.append_assoc, List.singleton_append]

theorem mem_of_path {t u : τ} {p : List κ} {c : κ} (h : Path S t p c) (ht : t ∈ P.types)
    (hu : S.slotType? c = some u) : u ∈ P.types := by
  induction h with
  | declared hc => exact (P.place_eq _ ht _ (mem_own_of_slot hc hu) u hu).1
  | through hc hv _ ih => exact ih (P.place_eq _ ht _ (mem_own_of_slot hc hv) _ hv).1 hu

/-- **What has a plan is treelike.** -/
theorem treelike {t : τ} (ht : t ∈ P.types) : S.Treelike t where
  not_bag := P.not_bag t ht
  slots_not_bag := fun hpath hu => P.not_bag _ (P.mem_of_path hpath ht hu)
  unique := by
    intro p q k hk hp hq
    have hroutes : P.place t ++ p = P.place t ++ q := by
      rw [← P.route_of_path hp ht hk, P.route_of_path hq ht hk]
    exact List.append_cancel_left hroutes

end Plan

end Schema

end LayeredConfig
