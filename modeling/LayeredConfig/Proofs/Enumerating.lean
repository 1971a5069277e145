import LayeredConfig.Catalog
import LayeredConfig.Proofs.Paths

/-!
# What a type enumerates

The order of an enumeration is told here by a walk that goes down into the type of a slot and comes back from it
(`TypeWalk`, `SlotWalk`), where `Schema.walk` keeps one list of what is pending and sorts what a type declares.
Such a walk lists what was not listed before: of a type the leaves by name, and then, for each of its slots by
name, the slot and at once what the walk of the slot's type lists.

* `TypeWalk.walk_eq`: the walk of a type lists what `Schema.walk` adds, so that there is at most one;
* `exists_slotWalk`: there is one, that is, the walk ends. Types may lead to each other in circles; what goes down
  with every slot that is followed is the number of slots that are not listed yet;
* `Schema.enumerates_closure`: the enumeration is what the walk lists, it consists of what the types that are led
  to declare, each characteristic once, and it contains the enumerations of the types of its slots.
-/

namespace LayeredConfig

variable {τ κ : Type} [DecidableEq κ] {S : Schema τ κ}

namespace Schema

/-! ## Walks that go down and come back -/

mutual

/-- What the walk of a type lists, after what was listed before. -/
inductive TypeWalk (S : Schema τ κ) : τ → List κ → List κ → Prop
  | enter {t : τ} {leaves slots seen below : List κ} (hleaves : S.ByName t false leaves)
    (hslots : S.ByName t true slots) (hbelow : SlotWalk S slots (seen ++ leaves.filter (· ∉ seen)) below) :
    TypeWalk S t seen (leaves.filter (· ∉ seen) ++ below)

inductive SlotWalk (S : Schema τ κ) : List κ → List κ → List κ → Prop
  | done {seen : List κ} : SlotWalk S [] seen []
  | skip {c : κ} {cs seen new : List κ} (hc : c ∈ seen) (hrest : SlotWalk S cs seen new) :
    SlotWalk S (c :: cs) seen new
  | follow {c : κ} {u : τ} {cs seen below after : List κ} (hc : c ∉ seen) (hu : S.slotType? c = some u)
    (hbelow : TypeWalk S u (seen ++ [c]) below) (hafter : SlotWalk S cs (seen ++ c :: below) after) :
    SlotWalk S (c :: cs) seen (c :: below ++ after)

end

/-! ## There is at most one walk -/

mutual

theorem TypeWalk.walk_eq {t : τ} {seen new : List κ} :
    TypeWalk S t seen new → S.walk (S.declared t) seen = seen ++ new
  | .enter hleaves hslots hbelow => by
      -- There is one list of each kind by name, so that these are the lists that `Schema.declared` consists of.
      have hwalk := hbelow.walk_eq
      rw [hleaves.eq (byName_leaves t), hslots.eq (byName_ownSlots t)] at hwalk
      rw [declared_eq, walk_append, walk_leaves (fun k hk => (mem_leaves.mp hk).2) (byName_leaves t).nodup, hwalk,
        hleaves.eq (byName_leaves t), List.append_assoc]

theorem SlotWalk.walk_eq {cs seen new : List κ} : SlotWalk S cs seen new → S.walk cs seen = seen ++ new
  | .done => by rw [walk_nil, List.append_nil]
  | .skip hc hrest => by rw [walk_seen S _ hc, hrest.walk_eq]
  | @SlotWalk.follow _ _ _ _ c u cs seen below after hc hu hbelow hafter => by
      rw [walk_slot S _ hc hu, walk_append, hbelow.walk_eq, ← List.append_cons, hafter.walk_eq, List.append_assoc]

end

/-! ## The walk ends -/

theorem exists_typeWalk_of_slotWalk {t : τ} {seen : List κ}
    (h : ∃ below, SlotWalk S (S.ownSlots t) (seen ++ (S.leaves t).filter (· ∉ seen)) below) :
    ∃ new, TypeWalk S t seen new := by
  obtain ⟨below, hbelow⟩ := h
  exact ⟨_, .enter (byName_leaves t) (byName_ownSlots t) hbelow⟩

/-- **Every walk through slots ends**: the induction is on the number of slots that are not listed yet, which goes
down with each slot that is followed, and for one number on the slots to walk through. -/
theorem exists_slotWalk {cs seen : List κ} (hcs : ∀ c ∈ cs, S.isSlot c = true) : ∃ new, SlotWalk S cs seen new := by
  induction hn : S.unseen seen using Nat.strongRecOn generalizing cs seen with
  | _ n fewer =>
      induction cs with
      | nil => exact ⟨[], .done⟩
      | cons c cs rest =>
          have hrest := fun c' hc' => hcs c' (List.mem_cons_of_mem c hc')
          by_cases hc : c ∈ seen
          · obtain ⟨new, hnew⟩ := rest hrest
            exact ⟨new, .skip hc hnew⟩
          · obtain ⟨u, hu⟩ := Option.isSome_iff_exists.mp (hcs c (List.mem_cons_self ..))
            -- Whatever is listed from now on, the slot is.
            have hless : ∀ {seen'}, seen ++ [c] ⊆ seen' → S.unseen seen' < n := fun hsub =>
              hn ▸ Nat.lt_of_le_of_lt (S.unseen_le_of_subset hsub)
                (S.unseen_append_lt (S.mem_slots_of_slotType hu) hc)
            obtain ⟨below, hbelow⟩ : ∃ below, TypeWalk S u (seen ++ [c]) below :=
              exists_typeWalk_of_slotWalk (fewer _ (hless (List.subset_append_left ..))
                (fun c' hc' => (List.mem_filter.mp hc').2) rfl)
            obtain ⟨after, hafter⟩ : ∃ after, SlotWalk S cs (seen ++ c :: below) after := by
              rw [List.append_cons]
              exact fewer _ (hless (List.subset_append_left ..)) hrest rfl
            exact ⟨_, .follow hc hu hbelow hafter⟩

theorem exists_typeWalk (t : τ) (seen : List κ) : ∃ new, TypeWalk S t seen new :=
  exists_typeWalk_of_slotWalk (exists_slotWalk fun _ hc => (List.mem_filter.mp hc).2)

/-- **The walk of a type lists one thing**, whatever was listed before: what `Schema.walk` adds to it. -/
theorem typeWalk_iff {t : τ} {seen new : List κ} :
    TypeWalk S t seen new ↔ S.walk (S.declared t) seen = seen ++ new := by
  refine ⟨TypeWalk.walk_eq, fun h => ?_⟩
  obtain ⟨new', hnew'⟩ := exists_typeWalk (S := S) t seen
  have heq : new' = new := List.append_cancel_left (hnew'.walk_eq.symm.trans h)
  exact heq ▸ hnew'

/-! ## Enumerations -/

structure Enumerates (S : Schema τ κ) (t : τ) (ks : List κ) : Prop where
  walk_iff : ∀ ks', TypeWalk S t [] ks' ↔ ks' = ks
  /-- What is listed is what the type declares, or one that it leads to. -/
  mem_iff : ∀ k, k ∈ ks ↔ ∃ u, Relation.ReflTransGen S.LeadsTo t u ∧ k ∈ S.declarations u
  nodup : ks.Nodup
  reaches_iff : ∀ k, S.reaches t k = true ↔ k ∈ ks
  closure_subset : ∀ c ∈ ks, ∀ u, S.slotType? c = some u → S.closure u ⊆ ks

/-- **A type enumerates what it leads to, in the order of the depth-first walk.** Nothing is asked of the schema:
types may lead to themselves, be in several slots, and declare a characteristic twice, the id included. -/
theorem enumerates_closure (S : Schema τ κ) (t : τ) : S.Enumerates t (S.closure t) where
  walk_iff := fun _ => typeWalk_iff.trans eq_comm
  mem_iff := fun _ => mem_closure_iff
  nodup := S.nodup_closure t
  reaches_iff := fun _ => decide_eq_true_iff
  closure_subset := fun _ hc _ hu => closure_subset_of_slot hc hu

example : catalog.closure .duo = [.id, .specimen .title, .specimen .first, .specimen .alpha, .specimen .beta,
    .specimen .gamma, .specimen .second] := by decide +kernel

end Schema

end LayeredConfig
