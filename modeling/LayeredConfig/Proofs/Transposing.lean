import LayeredConfig.Proofs.Attaching
import LayeredConfig.Proofs.Tracking

/-!
# Slots that come over in another order

The slots of an attached node come over one by one, in the order in which they were filled. Two slots are
*apart* in a store if neither occupant takes the other slot along, and nothing that is stored would go along
with both: then it does not matter which of the two comes over first (`Grafting.tracks_swap`), and if any two
slots of a node are apart, to graft it gives the same in every order (`Grafting.tracks_of_perm`). In one order
or in orders that do not matter, a graft keeps alike forests alike (`Alike.graft`).
-/

namespace LayeredConfig

variable {τ κ : Type} [DecidableEq τ] [DecidableEq κ]

namespace Store

variable {ν : Type} {s t : Store κ ν} {es es' : List (κ × ν)}

/-- Stores that hold the same have the same entries, in some order. -/
theorem entries_perm (h : ∀ k, t.get? k = s.get? k) : s.entries.Perm t.entries := by
  have hnodup : ∀ s : Store κ ν, s.entries.Nodup := fun s =>
    List.Pairwise.of_map Prod.fst (fun _ _ hne e => hne (congrArg Prod.fst e)) s.nodup_keys
  refine (List.perm_ext_iff_of_nodup (hnodup s) (hnodup t)).mpr fun e => ?_
  rw [← get?_eq_some_iff, ← get?_eq_some_iff, h]

/-- Entries under different keys may be inserted in any order. -/
theorem get?_insertAll_of_perm (h : ∀ k, t.get? k = s.get? k) (hp : es.Perm es')
    (hn : (es.map Prod.fst).Nodup) (k : κ) : (t.insertAll es').get? k = (s.insertAll es).get? k := by
  by_cases hk : k ∈ es.map Prod.fst
  · obtain ⟨⟨k, v⟩, he, rfl⟩ := List.mem_map.mp hk
    rw [get?_insertAll_of_mem s hn he,
      get?_insertAll_of_mem t ((hp.map Prod.fst).nodup_iff.mp hn) (hp.mem_iff.mp he)]
  · rw [get?_insertAll_of_notMem s hk, get?_insertAll_of_notMem t fun hk' => hk ((hp.map _).mem_iff.mpr hk'), h]

end Store

namespace Schema

variable (S : Schema τ κ)

/-- Two slots that can be emptied in either order. -/
structure Apart (s : Store κ (Value τ)) (k k' : κ) : Prop where
  ne : k ≠ k'
  left : S.displaces s k k' = false
  right : S.displaces s k' k = false
  /-- Nothing that is stored goes along with both occupants. -/
  common : ∀ b, s.contains b = true → S.displaces s k b = true → S.displaces s k' b = false

variable {S}

omit [DecidableEq τ] in
theorem Apart.symm {s : Store κ (Value τ)} {k k' : κ} (h : S.Apart s k k') : S.Apart s k' k where
  ne := h.ne.symm
  left := h.right
  right := h.left
  common := by
    intro b hb hd
    rw [Bool.eq_false_iff]
    intro hd'
    rw [h.common b hb hd'] at hd
    cases hd

end Schema

namespace Forest

open Schema

variable {S : Schema τ κ} {loose : Node τ → Prop} {F G : Forest τ κ} {r d m x : Node τ} {c k b : κ}
  {es : List (κ × Value τ)}

/-! ## What one slot does -/

/-- The nodes that go along when a slot is emptied. -/
def along (S : Schema τ κ) (F : Forest τ κ) (r : Node τ) (k : κ) : List (Node τ) :=
  match F.child? r k with
  | some d => nodesIn (takenBy S F k d)
  | none => []

theorem mem_along (h : Sound S loose F) (hr : F.Stands loose r) : x ∈ along S F r k ↔
    ∃ b, b ≠ k ∧ S.displaces (F.storeOf r) k b = true ∧ F.child? r b = some x := by
  rw [along]
  simp only [displaces, ← child?_eq_occupant]
  cases hc : F.child? r k with
  | none => simp
  | some d => exact mem_nodesIn_takenBy h hr hc

/-- An occupant goes along with another one only if its slot does. -/
theorem notMem_along_of_child? (h : Sound S loose F) (hr : F.Stands loose r)
    (hd : S.displaces (F.storeOf r) k c = false) (hc : F.child? r c = some x) : x ∉ along S F r k := by
  intro hx
  obtain ⟨b, -, hdb, hb⟩ := (mem_along h hr).mp hx
  rw [h.slot_inj hr hb hc, hd] at hdb
  cases hdb

/-- Nothing goes along with both of two slots that are apart. -/
theorem notMem_along_of_apart (h : Sound S loose F) (hr : F.Stands loose r) (ha : S.Apart (F.storeOf r) k c)
    (hx : x ∈ along S F r k) : x ∉ along S F r c := by
  intro hx'
  obtain ⟨b, -, hd, hb⟩ := (mem_along h hr).mp hx
  obtain ⟨b', -, hd', hb'⟩ := (mem_along h hr).mp hx'
  obtain rfl := h.slot_inj hr hb hb'
  rw [ha.common b (Option.isSome_iff_exists.mpr ⟨_, child?_eq_some.mp hb⟩) hd] at hd'
  cases hd'

theorem owner?_evict (h : Sound S loose F) (hr : F.Stands loose r) (k : κ) (x : Node τ) :
    (F.evict S r k).owner? x =
      if x ∈ along S F r k then F.child? r k else if F.child? r k = some x then none else F.owner? x := by
  rw [along]
  cases hc : F.child? r k with
  | none => simp [evict_of_none hc]
  | some d =>
      rw [evict_of_some hc, owner?_release h hr hc]
      simp only [Option.some.injEq, eq_comm (a := d)]

theorem frozen_evict (h : Sound S loose F) (hr : F.Stands loose r) (k : κ) (x : Node τ) :
    ((F.evict S r k).cell x).frozen =
      if x ∈ along S F r k ∨ F.child? r k = some x then false else (F.cell x).frozen := by
  rw [along]
  cases hc : F.child? r k with
  | none => simp [evict_of_none hc]
  | some d =>
      rw [evict_of_some hc, cell_release h hr hc]
      by_cases hx : x ∈ nodesIn (takenBy S F k d)
      · simp [hx]
      · by_cases hd : x = d
        · subst hd
          simp [hx]
        · simp [hx, hd, Ne.symm hd]

theorem next_evict (h : Sound S loose F) (hr : F.Stands loose r) (k : κ) :
    (F.evict S r k).next = F.next + (F.child? r k).isSome.toNat := by
  cases hc : F.child? r k with
  | none => rw [evict_of_none hc]; rfl
  | some d => rw [evict_of_some hc, next_release h hr hc]; rfl

namespace Grafting

section Step

variable (h : Grafting S r ((k, .node m) :: es) F)

include h

theorem owner?_step (x : Node τ) : (graftSlot S r F (k, .node m)).owner? x =
    if x = m then some r else if x ∈ along S F r k then F.child? r k
    else if F.child? r k = some x then none else F.owner? x := by
  rw [graftSlot, receive_node, owner?_settle, owner?_evict h.sound h.stands]

theorem frozen_step (x : Node τ) : ((graftSlot S r F (k, .node m)).cell x).frozen =
    if x = m ∨ x ∈ along S F r k ∨ F.child? r k = some x then false else (F.cell x).frozen := by
  rw [graftSlot, receive_node, cell_settle]
  by_cases hx : x = m
  · simp [hx]
  · rw [if_neg hx, frozen_evict h.sound h.stands]
    simp [hx]

theorem next_step : (graftSlot S r F (k, .node m)).next = F.next + (F.child? r k).isSome.toNat := by
  rw [graftSlot, receive_node, next_settle, next_evict h.sound h.stands]

theorem knows_step (x : Node τ) : (graftSlot S r F (k, .node m)).knows x = F.knows x := by
  rw [graftSlot, receive_node, knows_settle, knows_evict h.sound h.stands]
  by_cases hx : x = m
  · simp [hx, h.known m (List.mem_cons_self ..)]
  · simp [hx]

/-- The node that comes over stands in no slot before. -/
theorem child?_ne (b : κ) : F.child? r b ≠ some m := fun hb =>
  (h.sound.slot h.stands hb).2.1 (List.mem_cons_self ..)

theorem notMem_along (b : κ) : m ∉ along S F r b := by
  rw [mem_along h.sound h.stands]
  rintro ⟨b', -, -, hb'⟩
  exact h.child?_ne b' hb'

theorem storeOf_step : (graftSlot S r F (k, .node m)).storeOf r =
    (S.vacated (F.storeOf r) k).insert k (.node m) := by
  have hrm : r ≠ m := fun e => h.stands.fixed (e ▸ List.mem_cons_self ..)
  rw [graftSlot, receive_node, storeOf, place_settle, if_neg hrm, storeAt_settle, if_pos rfl,
    storeOf_evict h.sound h.stands]

theorem explicit?_step_root (b : κ) : (graftSlot S r F (k, .node m)).explicit? r b =
    if b = k then some (.node m) else if S.displaces (F.storeOf r) k b = true then none
    else F.explicit? r b := by
  rw [explicit?, h.storeOf_step, Store.get?_insert]
  by_cases hb : b = k
  · rw [if_pos hb, if_pos hb]
  · rw [if_neg hb, if_neg hb, get?_vacated hb]
    rfl

/-- The node that was in the slot holds what went along. -/
theorem explicit?_step_evicted (hc : F.child? r k = some d) (b : κ) :
    (graftSlot S r F (k, .node m)).explicit? d b =
      if b ≠ k ∧ S.displaces (F.storeOf r) k b = true then F.explicit? r b else none := by
  have hdm : d ≠ m := fun e => h.child?_ne k (e ▸ hc)
  have hplace : (F.evict S r k).place d ≠ (F.evict S r k).place r := by
    rw [evict_of_some hc, place_release_root h.sound h.stands hc, place_release h.sound h.stands hc,
      if_pos (Or.inr rfl)]
    exact (Nat.ne_of_lt (h.sound.place_lt h.stands.known)).symm
  rw [graftSlot, receive_node, explicit?_settle, if_neg (not_or.mpr ⟨hdm, hplace⟩), evict_of_some hc,
    explicit?_release_self h.sound h.stands hc, displaces, ← child?_eq_occupant, hc]

theorem explicit?_step_of_ne (hx : F.Stands (fun m' => m' ∈ nodesIn ((k, .node m) :: es)) x) (hne : x ≠ r)
    (b : κ) : (graftSlot S r F (k, .node m)).explicit? x b = F.explicit? x b := by
  have hxm : x ≠ m := fun e => hx.fixed (e ▸ List.mem_cons_self ..)
  have hp : F.place r ≠ F.place x := fun e => hne (h.sound.place_inj h.stands hx e).symm
  have hkeeps := Keeps.evict h.sound h.stands hp (h.sound.place_lt hx.known) k
  have hplace : (F.evict S r k).place x ≠ (F.evict S r k).place r := by
    rw [hkeeps.place hx.known rfl]
    exact (hkeeps.apart h.stands.known hp).symm
  rw [graftSlot, receive_node, explicit?_settle, if_neg (not_or.mpr ⟨hxm, hplace⟩)]
  exact explicit?_congr (by rw [hkeeps.place hx.known rfl, hkeeps.store]) b

variable {k' : κ}

theorem child?_step_of_apart (ha : S.Apart (F.storeOf r) k k') :
    (graftSlot S r F (k, .node m)).child? r k' = F.child? r k' := by
  rw [h.child?_step, if_neg ha.ne.symm, if_neg (Bool.eq_false_iff.mp ha.left)]

/-- What the occupant of a slot takes along does not depend on whether a slot apart from it came over. -/
theorem displaces_step (ha : S.Apart (F.storeOf r) k k') (b : κ) :
    S.displaces ((graftSlot S r F (k, .node m)).storeOf r) k' b = S.displaces (F.storeOf r) k' b :=
  displaces_congr (h.child?_step_of_apart ha) b

theorem mem_along_step (ha : S.Apart (F.storeOf r) k k') (x : Node τ) :
    x ∈ along S (graftSlot S r F (k, .node m)) r k' ↔ x ∈ along S F r k' := by
  rw [mem_along h.step.sound h.step.stands, mem_along h.sound h.stands]
  simp only [h.displaces_step ha, h.child?_step]
  constructor
  · rintro ⟨b, hb, hd, hx⟩
    by_cases hbk : b = k
    · rw [hbk, ha.right] at hd
      cases hd
    · rw [if_neg hbk] at hx
      split at hx
      · cases hx
      · exact ⟨b, hb, hd, hx⟩
  · rintro ⟨b, hb, hd, hx⟩
    have hbk : b ≠ k := by
      rintro rfl
      rw [ha.right] at hd
      cases hd
    have hstored : (F.storeOf r).contains b = true := by
      rw [child?_eq_some] at hx
      exact Option.isSome_iff_exists.mpr ⟨_, hx⟩
    have hstays : S.displaces (F.storeOf r) k b = false := by
      rw [Bool.eq_false_iff]
      intro hd'
      rw [ha.common b hstored hd'] at hd
      cases hd
    exact ⟨b, hb, hd, by rw [if_neg hbk, hstays, if_neg Bool.false_ne_true]; exact hx⟩

/-- What stands goes on standing when a slot comes over. -/
theorem stands_step (hx : F.Stands (fun m' => m' ∈ nodesIn ((k, .node m) :: es)) x) :
    (graftSlot S r F (k, .node m)).Stands (fun m' => m' ∈ nodesIn es) x := by
  have hxm : x ≠ m := fun e => hx.fixed (e ▸ List.mem_cons_self ..)
  have hevict := Stands.evict h.sound h.stands k hx
  refine ⟨(h.knows_step x).trans hx.known, fun hl => hx.fixed (List.mem_cons_of_mem _ hl), ?_⟩
  rw [graftSlot, receive_node, owner?_settle, if_neg hxm, hevict.root]

theorem stands_step_evicted (hc : F.child? r k = some d) :
    (graftSlot S r F (k, .node m)).Stands (fun m' => m' ∈ nodesIn es) d := by
  obtain ⟨hdk, hdl, -⟩ := h.sound.slot h.stands hc
  have hdm : d ≠ m := fun e => h.child?_ne k (e ▸ hc)
  refine ⟨(h.knows_step d).trans hdk, fun hl => hdl (List.mem_cons_of_mem _ hl), ?_⟩
  rw [graftSlot, receive_node, owner?_settle, if_neg hdm, evict_of_some hc,
    (stands_released h.sound h.stands hc).root]

/-- A root after a slot came over was one before, or was in the slot. -/
theorem of_stands_step (hx : (graftSlot S r F (k, .node m)).Stands (fun m' => m' ∈ nodesIn es) x) :
    F.child? r k = some x ∨ F.Stands (fun m' => m' ∈ nodesIn ((k, .node m) :: es)) x := by
  have hroot := hx.root
  rw [h.owner?_step] at hroot
  split at hroot
  · cases hroot
  · next hxm =>
    split at hroot
    · next halong =>
      rw [along, hroot] at halong
      cases halong
    · split at hroot
      · next hc => exact Or.inl hc
      · refine Or.inr ⟨(h.knows_step x).symm.trans hx.known, fun hl => ?_, hroot⟩
        rcases List.mem_cons.mp hl with e | hl
        · exact hxm e
        · exact hx.fixed hl

end Step

/-! ## Two slots -/

/-- The slots that are still to come over may be listed in any order. -/
theorem perm {es' : List (κ × Value τ)} (h : Grafting S r es F) (hp : es.Perm es') : Grafting S r es' F := by
  have hnodes : (nodesIn es).Perm (nodesIn es') := hp.filterMap _
  have hloose : ∀ x, x ∈ nodesIn es' ↔ x ∈ nodesIn es := fun x => hnodes.mem_iff.symm
  constructor
  case sound => exact h.sound.of_loose_iff hloose
  case stands => exact ⟨h.stands.known, fun hl => h.stands.fixed ((hloose r).mp hl), h.stands.root⟩
  case nodup_keys => exact (hp.map Prod.fst).nodup_iff.mp h.nodup_keys
  case nodup_nodes => exact hnodes.nodup_iff.mp h.nodup_nodes
  case slot => exact fun e he => h.slot e (hp.mem_iff.mpr he)
  case known => exact fun x hx => h.known x ((hloose x).mp hx)

section Swap

variable {k₁ k₂ : κ} {m₁ m₂ : Node τ} (h : Grafting S r ((k₁, .node m₁) :: (k₂, .node m₂) :: es) F)
  (ha : S.Apart (F.storeOf r) k₁ k₂)

include h ha

/-- Who owns a node after two slots came over does not depend on which was the first. -/
theorem owner?_swap (x : Node τ) :
    (graftSlot S r (graftSlot S r F (k₂, .node m₂)) (k₁, .node m₁)).owner? x =
      (graftSlot S r (graftSlot S r F (k₁, .node m₁)) (k₂, .node m₂)).owner? x := by
  have h' := h.perm (List.Perm.swap (k₂, .node m₂) (k₁, .node m₁) es)
  have hne : m₁ ≠ m₂ := fun e => (List.nodup_cons.mp h.nodup_nodes).1 (e ▸ List.mem_cons_self ..)
  -- What goes along with one occupant is neither the other occupant nor goes along with it.
  have hl : F.child? r k₂ = some x → x ∉ along S F r k₁ := notMem_along_of_child? h.sound h.stands ha.left
  have hr : F.child? r k₁ = some x → x ∉ along S F r k₂ := notMem_along_of_child? h.sound h.stands ha.right
  have hboth : x ∈ along S F r k₁ → x ∉ along S F r k₂ := notMem_along_of_apart h.sound h.stands ha
  have hone : F.child? r k₁ = some x → F.child? r k₂ ≠ some x := fun hx hx' =>
    ha.ne (h.sound.slot_inj h.stands hx hx')
  rw [h'.step.owner?_step, h.step.owner?_step, h'.owner?_step, h.owner?_step, h'.child?_step_of_apart ha.symm,
    h.child?_step_of_apart ha]
  simp only [h'.mem_along_step ha.symm, h.mem_along_step ha]
  by_cases hx₁ : x = m₁
  · subst hx₁
    simp [hne, h.notMem_along, h.child?_ne]
  · by_cases hx₂ : x = m₂
    · subst hx₂
      simp [hne.symm, h'.notMem_along, h'.child?_ne]
    · simp only [if_neg hx₁, if_neg hx₂]
      grind

theorem frozen_swap (x : Node τ) :
    ((graftSlot S r (graftSlot S r F (k₂, .node m₂)) (k₁, .node m₁)).cell x).frozen =
      ((graftSlot S r (graftSlot S r F (k₁, .node m₁)) (k₂, .node m₂)).cell x).frozen := by
  have h' := h.perm (List.Perm.swap (k₂, .node m₂) (k₁, .node m₁) es)
  rw [h'.step.frozen_step, h.step.frozen_step, h'.frozen_step, h.frozen_step, h'.child?_step_of_apart ha.symm,
    h.child?_step_of_apart ha]
  simp only [h'.mem_along_step ha.symm, h.mem_along_step ha]
  split <;> split <;> rfl

theorem explicit?_swap_root (b : κ) :
    (graftSlot S r (graftSlot S r F (k₂, .node m₂)) (k₁, .node m₁)).explicit? r b =
      (graftSlot S r (graftSlot S r F (k₁, .node m₁)) (k₂, .node m₂)).explicit? r b := by
  have h' := h.perm (List.Perm.swap (k₂, .node m₂) (k₁, .node m₁) es)
  rw [h'.step.explicit?_step_root, h.step.explicit?_step_root, h'.explicit?_step_root, h.explicit?_step_root,
    h'.displaces_step ha.symm, h.displaces_step ha]
  by_cases hb₁ : b = k₁
  · rw [if_pos hb₁, if_pos hb₁, if_neg (hb₁ ▸ ha.ne), hb₁, ha.right, if_neg Bool.false_ne_true]
  · by_cases hb₂ : b = k₂
    · rw [if_neg hb₁, if_pos hb₂, if_pos hb₂, hb₂, ha.left, if_neg Bool.false_ne_true]
    · rw [if_neg hb₁, if_neg hb₂, if_neg hb₂, if_neg hb₁]
      cases S.displaces (F.storeOf r) k₁ b <;> cases S.displaces (F.storeOf r) k₂ b <;> rfl

theorem explicit?_swap_evicted (hc : F.child? r k₁ = some d) (b : κ) :
    (graftSlot S r (graftSlot S r F (k₂, .node m₂)) (k₁, .node m₁)).explicit? d b =
      (graftSlot S r (graftSlot S r F (k₁, .node m₁)) (k₂, .node m₂)).explicit? d b := by
  have h' := h.perm (List.Perm.swap (k₂, .node m₂) (k₁, .node m₁) es)
  have hc' := (h'.child?_step_of_apart ha.symm).trans hc
  have hdr : d ≠ r := (root_ne h.sound h.stands hc).symm
  rw [h.step.explicit?_step_of_ne (h.stands_step_evicted hc) hdr, h.explicit?_step_evicted hc,
    h'.step.explicit?_step_evicted hc', h'.displaces_step ha.symm, h'.explicit?_step_root]
  by_cases hd : b ≠ k₁ ∧ S.displaces (F.storeOf r) k₁ b = true
  · have hb₂ : b ≠ k₂ := by
      rintro rfl
      rw [ha.left] at hd
      cases hd.2
    rw [if_pos hd, if_pos hd, if_neg hb₂]
    split
    · next hd' =>
      -- What would go along with both is not stored.
      cases hv : F.explicit? r b with
      | none => rfl
      | some v =>
          rw [ha.common b (Option.isSome_iff_exists.mpr ⟨v, hv⟩) hd.2] at hd'
          cases hd'
    · rfl
  · rw [if_neg hd, if_neg hd]

/-- **Two slots that are apart may come over in either order.** -/
theorem tracks_swap : Tracks (fun m' => m' ∈ nodesIn es)
    (graftSlot S r (graftSlot S r F (k₁, .node m₁)) (k₂, .node m₂))
    (graftSlot S r (graftSlot S r F (k₂, .node m₂)) (k₁, .node m₁)) := by
  have h' := h.perm (List.Perm.swap (k₂, .node m₂) (k₁, .node m₁) es)
  constructor
  case next =>
    rw [h'.step.next_step, h.step.next_step, h'.next_step, h.next_step, h'.child?_step_of_apart ha.symm,
      h.child?_step_of_apart ha, Nat.add_right_comm]
  case knows => exact fun x => by rw [h'.step.knows_step, h.step.knows_step, h'.knows_step, h.knows_step]
  case owner => exact h.owner?_swap ha
  case frozen => exact h.frozen_swap ha
  case stored =>
    intro x hx b
    by_cases hxr : x = r
    · rw [hxr, h.explicit?_swap_root ha]
    · rcases h.step.of_stands_step hx with hc | hx
      · rw [h.child?_step_of_apart ha] at hc
        exact (h'.explicit?_swap_evicted ha.symm hc b).symm
      · rcases h.of_stands_step hx with hc | hx
        · exact h.explicit?_swap_evicted ha hc b
        · -- A root that was in neither slot is not touched.
          have hx' : F.Stands (fun m' => m' ∈ nodesIn ((k₂, .node m₂) :: (k₁, .node m₁) :: es)) x := by
            refine ⟨hx.known, fun hl => hx.fixed ?_, hx.root⟩
            exact ((List.Perm.swap (k₁, Value.node m₁) (k₂, .node m₂) es).filterMap _).mem_iff.mp hl
          rw [h'.step.explicit?_step_of_ne (h'.stands_step hx') hxr, h'.explicit?_step_of_ne hx' hxr,
            h.step.explicit?_step_of_ne (h.stands_step hx) hxr, h.explicit?_step_of_ne hx hxr]

end Swap

/-! ## All slots -/

theorem tracks_step (h : Grafting S r ((k, .node m) :: es) F) (hG : Grafting S r ((k, .node m) :: es) G)
    (ht : Tracks (fun m' => m' ∈ nodesIn ((k, .node m) :: es)) F G) :
    Tracks (fun m' => m' ∈ nodesIn es) (graftSlot S r F (k, .node m)) (graftSlot S r G (k, .node m)) := by
  have hnodes := List.nodup_cons.mp (nodesIn_cons_node k m es ▸ h.nodup_nodes)
  have hevict := ht.evict h.sound hG.sound h.stands k
  have hsettle := hevict.settle (h.sound.evict h.stands k) (hG.sound.evict hG.stands k)
    (Stands.evict h.sound h.stands k h.stands) k m
  rw [graftSlot, graftSlot, receive_node, receive_node]
  refine hsettle.of_loose_iff fun x => ?_
  rw [nodesIn_cons_node, List.mem_cons]
  constructor
  · exact fun hx => ⟨Or.inr hx, fun e => hnodes.1 (e ▸ hx)⟩
  · rintro ⟨rfl | hx, hne⟩
    · exact absurd rfl hne
    · exact hx

theorem tracks_run (h : Grafting S r es F) (hG : Grafting S r es G)
    (ht : Tracks (fun m' => m' ∈ nodesIn es) F G) :
    Tracks (fun _ => False) (es.foldl (graftSlot S r) F) (es.foldl (graftSlot S r) G) := by
  induction es generalizing F G with
  | nil => exact ht.of_loose_iff fun m => by simp [nodesIn]
  | cons e es ih =>
      obtain ⟨k, v⟩ := e
      obtain ⟨m, he, -⟩ := h.slot _ (List.mem_cons_self ..)
      obtain rfl : v = .node m := he
      exact ih h.step hG.step (h.tracks_step hG ht)

/-- Slots that are apart stay so when one comes over that is apart from both. -/
theorem apart_step (h : Grafting S r ((k, .node m) :: es) F) {k₁ k₂ : κ} (h₁ : S.Apart (F.storeOf r) k k₁)
    (h₂ : S.Apart (F.storeOf r) k k₂) (ha : S.Apart (F.storeOf r) k₁ k₂) :
    S.Apart ((graftSlot S r F (k, .node m)).storeOf r) k₁ k₂ where
  ne := ha.ne
  left := (h.displaces_step h₁ k₂).trans ha.left
  right := (h.displaces_step h₂ k₁).trans ha.right
  common := by
    intro b hb hd
    rw [h.displaces_step h₁] at hd
    rw [h.displaces_step h₂]
    by_cases hbk : b = k
    · rw [hbk, h₁.right] at hd
      cases hd
    · refine ha.common b ?_ hd
      have hb : ((graftSlot S r F (k, .node m)).explicit? r b).isSome = true := hb
      rw [h.explicit?_step_root, if_neg hbk] at hb
      split at hb
      · cases hb
      · exact hb

theorem pairwise_apart_step {e : κ × Value τ} (h : Grafting S r (e :: es) F)
    (ha : ((e :: es).map Prod.fst).Pairwise (S.Apart (F.storeOf r))) :
    (es.map Prod.fst).Pairwise (S.Apart ((graftSlot S r F e).storeOf r)) := by
  obtain ⟨k, v⟩ := e
  obtain ⟨m, he, -⟩ := h.slot _ (List.mem_cons_self ..)
  obtain rfl : v = .node m := he
  rw [List.map_cons, List.pairwise_cons] at ha
  exact ha.2.imp_of_mem fun h₁ h₂ hapart => h.apart_step (ha.1 _ h₁) (ha.1 _ h₂) hapart

/-- **Slots that are apart from each other may come over in any order.** -/
theorem tracks_of_perm {es' : List (κ × Value τ)} (hp : es.Perm es') (h : Grafting S r es F)
    (ha : (es.map Prod.fst).Pairwise (S.Apart (F.storeOf r))) :
    Tracks (fun _ => False) (es.foldl (graftSlot S r) F) (es'.foldl (graftSlot S r) F) := by
  induction hp generalizing F with
  | nil => exact Tracks.refl _ F
  | cons e _ ih =>
      obtain ⟨k, v⟩ := e
      obtain ⟨m, he, -⟩ := h.slot _ (List.mem_cons_self ..)
      obtain rfl : v = .node m := he
      exact ih h.step (h.pairwise_apart_step ha)
  | swap e e' es =>
      obtain ⟨k₁, v₁⟩ := e'
      obtain ⟨k₂, v₂⟩ := e
      obtain ⟨m₁, he₁, -⟩ := h.slot _ (List.mem_cons_self ..)
      obtain ⟨m₂, he₂, -⟩ := h.slot _ (List.mem_cons_of_mem _ (List.mem_cons_self ..))
      obtain rfl : v₁ = .node m₁ := he₁
      obtain rfl : v₂ = .node m₂ := he₂
      have hapart := (List.pairwise_cons.mp ha).1 k₂ (List.mem_cons_self ..)
      have h' := h.perm (List.Perm.swap (k₂, .node m₂) (k₁, .node m₁) es)
      have hrun := tracks_run h.step.step h'.step.step (h.tracks_swap hapart)
      rw [List.foldl_cons, List.foldl_cons, List.foldl_cons, List.foldl_cons]
      exact hrun
  | trans hp₁ _ ih₁ ih₂ =>
      have ha' := ((hp₁.map Prod.fst).pairwise_iff fun hab => hab.symm).mp ha
      exact (ih₁ h ha).trans (ih₂ (h.perm hp₁) ha')

end Grafting

/-! ## The leaves, and the whole graft -/

/-- Another root keeps its slots when one of a root is emptied. -/
theorem slotsIn_evict (h : Coherent S F) (hr : F.IsTop r) (hd : F.IsTop d) (hne : d ≠ r) (c : κ) :
    (F.evict S r c).slotsIn d = F.slotsIn d := by
  have hp : F.place r ≠ F.place d := fun e => hne (h.place_inj hr hd e).symm
  have hkeeps := Keeps.evict h hr hp (h.place_lt hd.known) c
  rw [slotsIn, slotsIn, storeOf, hkeeps.place hd.known rfl, hkeeps.store]
  rfl

/-- What a root stores with a node in a slot that was emptied. -/
theorem storeOf_settle_evict (h : Coherent S F) (hr : F.IsTop r) (hne : r ≠ d) (c : κ) :
    ((F.evict S r c).settle r c d).storeOf r = (S.vacated (F.storeOf r) c).insert c (.node d) := by
  rw [storeOf, place_settle, if_neg hne, storeAt_settle, if_pos rfl, storeOf_evict h hr]

theorem Tracks.receiveLeaves {es' : List (κ × Value τ)} (h : Tracks (fun _ => False) F G) (hF : Coherent S F)
    (hG : Coherent S G) (hr : F.IsTop r) (hp : es.Perm es') (hk : (es.map Prod.fst).Nodup)
    (hes : nodesIn es = []) :
    Tracks (fun _ => False) (es.foldl (receive r) F) (es'.foldl (receive r) G) := by
  have hes' : nodesIn es' = [] := List.perm_nil.mp (hes ▸ (hp.filterMap _).symm)
  constructor
  case next => rw [next_receiveAll, next_receiveAll, h.next]
  case knows => exact fun m => by rw [knows_receiveLeaves hes, knows_receiveLeaves hes', h.knows]
  case owner =>
    intro m
    rw [owner?, owner?, cell_receiveLeaves hes, cell_receiveLeaves hes']
    exact h.owner m
  case frozen => exact fun m => by rw [cell_receiveLeaves hes, cell_receiveLeaves hes', h.frozen]
  case stored =>
    intro r' hr' k
    have htop : F.IsTop r' := by
      refine ⟨(knows_receiveLeaves hes r').symm.trans hr'.known, hr'.fixed, ?_⟩
      have hroot := hr'.root
      rwa [owner?, cell_receiveLeaves hes] at hroot
    rw [explicit?_foldl_receiveLeaves hes, explicit?_foldl_receiveLeaves hes']
    by_cases hrr : r' = r
    · rw [hrr, if_pos rfl, if_pos rfl]
      exact Store.get?_insertAll_of_perm (h.stored hr) hp hk k
    · have hplace : F.place r' ≠ F.place r := fun e => hrr (hF.place_inj htop hr e)
      have hplace' : G.place r' ≠ G.place r := fun e =>
        hrr (hG.place_inj (h.stands htop) (h.stands hr) e)
      rw [if_neg hplace, if_neg hplace']
      exact h.stored htop k

/-- **A graft keeps alike forests alike**, if the slots come over in one order or are apart from each other. -/
theorem Alike.graft (h : Alike F G) (hF : Coherent S F) (hG : Coherent S G) (hr : F.IsTop r) (hd : F.IsTop d)
    (hrd : r ≠ d) (hc : F.child? r c = none) (ht : S.slotType? c = some d.type)
    (horder : G.slotsIn d = F.slotsIn d ∨
      ((F.slotsIn d).map Prod.fst).Pairwise (S.Apart ((F.settle r c d).storeOf r))) :
    Tracks (fun _ => False) (F.graft S r c d) (G.graft S r c d) := by
  have htracks := h.tracks (fun _ => False)
  have hentries : (F.storeOf d).entries.Perm (G.storeOf d).entries := Store.entries_perm (h.stored d)
  have hslots : (F.slotsIn d).Perm (G.slotsIn d) := hentries.filter _
  have hstart := Grafting.start hF hr hd hrd hc ht
  have hstart' := Grafting.start hG (htracks.stands hr) (htracks.stands hd) hrd ((h.child?_eq r c).trans hc) ht
  have hsettle : ∀ es : List (κ × Value τ),
      Tracks (fun m => m ∈ nodesIn es) (F.settle r c d) (G.settle r c d) := fun es =>
    (htracks.settle hF hG hr c d).mono fun _ hm => hm.1.elim
  have hrun : Tracks (fun _ => False) ((F.slotsIn d).foldl (graftSlot S r) (F.settle r c d))
      ((G.slotsIn d).foldl (graftSlot S r) (G.settle r c d)) := by
    rcases horder with heq | hapart
    · rw [heq] at hstart' ⊢
      exact hstart.tracks_run hstart' (hsettle _)
    · exact (hstart.tracks_of_perm hslots hapart).trans
        ((hstart.perm hslots).tracks_run hstart' (hsettle _))
  rw [graft_eq, graft_eq]
  exact hrun.receiveLeaves hstart.run.coherent hstart'.run.coherent hstart.run.isTop
    (hentries.filter _) (nodup_keys_leavesIn F d) (nodesIn_leavesIn F d)

end Forest

end LayeredConfig
