import LayeredConfig.Proofs.Session
import Mathlib.Logic.ExistsUnique

/-!
# Ownership

Of every session that a client can reach, `OwnershipDiscipline` says how owners, stores and slots hang
together. There are no chains of owners, hence no cycles; every tree has a store of its own; a node is
attached exactly when one slot of its owner lists it; and only roots are frozen. So the nodes of a tree cannot
be told apart by what they store.
-/

namespace LayeredConfig

namespace Forest

variable {τ κ : Type} [DecidableEq τ] [DecidableEq κ]

/-- How owners, stores and slots hang together. -/
structure OwnershipDiscipline (S : Schema τ κ) (F : Forest τ κ) : Prop where
  owner : ∀ {n o}, F.owner? n = some o → F.IsTop o ∧ F.place n = F.place o
  apart : ∀ {r r'}, F.IsTop r → F.IsTop r' → F.place r = F.place r' → r = r'
  listed : ∀ {n o}, F.owner? n = some o → ∃! c, F.child? o c = some n
  occupant : ∀ {r c m}, F.IsTop r → F.child? r c = some m →
    F.knows m = true ∧ F.owner? m = some r ∧ S.slotType? c = some m.type
  /-- Under a slot nothing is stored but nodes of its type, and under a leaf no node. -/
  typed : ∀ {n c v}, F.explicit? n c = some v → v.node?.map Node.type = S.slotType? c
  flag : ∀ {n}, (F.cell n).frozen = true → F.IsTop n
  tree : ∀ {m n}, F.knows m = true → F.knows n = true → F.rootOf m = F.rootOf n →
    F.storeOf m = F.storeOf n ∧ F.stored S m = F.stored S n ∧ F.isFrozen m = F.isFrozen n ∧
      ∀ c, F.has m c = F.has n c ∧ F.explicit? m c = F.explicit? n c ∧ F.child? m c = F.child? n c

variable {S : Schema τ κ} {F : Forest τ κ}

omit [DecidableEq κ] in
theorem knows_of_frozen {n : Node τ} (h : (F.cell n).frozen = true) : F.knows n = true := by
  rw [knows, Store.contains]
  cases hc : F.cells.get? n with
  | none =>
      rw [cell, hc] at h
      cases h
  | some c => rfl

theorem Sound.ownershipDiscipline (h : Coherent S F) : OwnershipDiscipline S F := by
  constructor
  case owner => exact fun ho => h.owner (knows_of_owner? ho) (fun hf => hf) ho
  case apart => exact h.place_inj
  case listed =>
    intro n o ho
    have hn := knows_of_owner? ho
    obtain ⟨c, hc⟩ := h.listed hn (fun hf => hf) ho
    obtain ⟨hr, -⟩ := h.owner hn (fun hf => hf) ho
    exact ⟨c, hc, fun c' hc' => h.slot_inj hr hc' hc⟩
  case occupant =>
    intro r c m hr hm
    obtain ⟨hk, -, ho⟩ := h.slot hr hm
    exact ⟨hk, ho, h.type_of_child hm⟩
  case typed => exact h.typed
  case flag =>
    intro n hf
    have hn := knows_of_frozen hf
    exact ⟨hn, fun hl => hl, h.flag hn hf⟩
  case tree =>
    intro m n hm hn hroot
    have hplace : F.place m = F.place n := by rw [h.place_rootOf hm, h.place_rootOf hn, hroot]
    have hstore : F.storeOf m = F.storeOf n := congrArg F.storeAt hplace
    refine ⟨hstore, congrArg S.storedKeys hstore, isFrozen_congr hroot, fun c => ⟨?_, ?_, ?_⟩⟩
    · rw [has, has, hstore]
    · rw [explicit?, explicit?, hstore]
    · rw [child?, child?, explicit?, explicit?, hstore]

end Forest

namespace Session

variable {τ κ : Type} [DecidableEq τ] [DecidableEq κ] {S : Schema τ κ}

/-- **Every session that a client can reach keeps the discipline of ownership.** -/
theorem ownershipDiscipline_of_reachable {W : Session τ κ} (h : Reachable S W) :
    Forest.OwnershipDiscipline S W.forest := h.orderly.coherent.ownershipDiscipline

theorem ownershipDiscipline_joined :
    joined.forest.owner? ⟨2, .tree⟩ = some ⟨1, .tree⟩ ∧
      Forest.OwnershipDiscipline catalog joined.forest :=
  ⟨by decide, ownershipDiscipline_of_reachable reachable_joined⟩

end Session

end LayeredConfig
