import LayeredConfig.Proofs.Detaching

/-!
# Replacing a child

A root of the type of a slot takes the place of the node in the slot. Three stores change: the tree, the old
node's and the new node's. Nothing tells the entries of a child from the rest of a tree but the closure of its
type, so the two nodes change places exactly as far as their entries belong to the type: what belongs goes
with the old node and comes with the new one, and nothing of the old node is left for the new one. A sticky
leaf goes one way only, from the new node into the tree, and stays there when the node is detached again.
-/

namespace LayeredConfig

variable {τ κ : Type} [DecidableEq τ] [DecidableEq κ]

namespace Schema

variable {S : Schema τ κ} {t : τ} {k : κ}

omit [DecidableEq τ] in
theorem belongs_eq_true : S.belongs t k = true ↔ S.reaches t k = true ∧ S.isSticky k = false := by
  rw [belongs, Bool.and_eq_true, Bool.not_eq_true']

end Schema

namespace Forest

variable {S : Schema τ κ} {F G H : Forest τ κ} {r p n : Node τ} {c : κ}

/-- The root `n` is fit to take the place of the node `p` in the slot `c` of the root `r`: both roots are
unfrozen, `n` has the type of the slot and stores nothing foreign to it, and no slot of the type is sticky. -/
structure Replacement (S : Schema τ κ) (F : Forest τ κ) (r : Node τ) (c : κ) (p n : Node τ) : Prop where
  isTop : F.IsTop r
  unfrozen : F.isFrozen r = false
  occupant : F.child? r c = some p
  isTop_new : F.IsTop n
  unfrozen_new : F.isFrozen n = false
  ne : n ≠ r
  slotType : S.slotType? c = some n.type
  not_bag : S.isBag n.type = false
  slots_loose : ∀ k, S.reaches n.type k = true → S.isSlot k = true → S.isSticky k = false
  stored : ∀ k, F.has n k = true → S.reaches n.type k = true ∧ k ≠ c

/-- The forest `G` after the node `n` has taken the place of `p` in the slot `c` of the root `r` of `F`. -/
structure Replaced (S : Schema τ κ) (F G : Forest τ κ) (r : Node τ) (c : κ) (p n : Node τ) : Prop where
  isTop : G.IsTop r ∧ G.isFrozen r = false
  occupant : G.child? r c = some n ∧ G.owner? n = some r
  /-- The old node is an unfrozen root, and stores what belongs to its type. -/
  isTop_old : G.IsTop p ∧ G.isFrozen p = false
  old : ∀ k, G.explicit? p k = if k ≠ c ∧ S.belongs n.type k = true then F.explicit? r k else none
  /-- What belongs to the type is what the new node stored, and nothing else. -/
  belonging : ∀ {k}, k ≠ c → S.belongs n.type k = true → G.explicit? r k = F.explicit? n k
  /-- A sticky leaf has the value of the new node if that stored one, and else its own. -/
  sticky : ∀ {k}, S.reaches n.type k = true → S.isSticky k = true →
    G.explicit? r k = (F.explicit? n k).or (F.explicit? r k)
  foreign : ∀ {k}, k ≠ c → S.reaches n.type k = false → G.explicit? r k = F.explicit? r k
  /-- The nodes nested under the new node belong to the tree now, and those under the old node went along. -/
  nested : ∀ {m}, F.owner? m = some n → G.owner? m = some r
  nested_old : ∀ {k m}, k ≠ c → S.belongs n.type k = true → F.child? r k = some m → G.owner? m = some p

/-- The forest `H` after the node `n`, which was a root of `F`, was in a slot for a while: it is an unfrozen
root that stores what it stored, sticky entries apart. -/
structure Returned (S : Schema τ κ) (F H : Forest τ κ) (n : Node τ) : Prop where
  isTop : H.IsTop n
  unfrozen : H.isFrozen n = false
  stored : ∀ k, H.explicit? n k = if S.isSticky k = true then none else F.explicit? n k
  nested : ∀ {m}, F.owner? m = some n → H.owner? m = some n

theorem has_iff_exists {k : κ} : F.has n k = true ↔ ∃ v, F.explicit? n k = some v :=
  Option.isSome_iff_exists

namespace Replacement

variable (h : Coherent S F) (hx : Replacement S F r c p n)

include hx in
theorem explicit?_of_not_belongs {k : κ} (hk : ¬ (k ≠ c ∧ S.belongs n.type k = true))
    (hs : S.isSticky k = false) : F.explicit? n k = none := by
  rw [← has_eq_false_iff, Bool.eq_false_iff]
  intro hhas
  obtain ⟨hreach, hkc⟩ := hx.stored k hhas
  exact hk ⟨hkc, Schema.belongs_eq_true.mpr ⟨hreach, hs⟩⟩

include hx in
theorem explicit?_slot : F.explicit? n c = none := by
  rw [← has_eq_false_iff, Bool.eq_false_iff]
  exact fun hhas => (hx.stored c hhas).2 rfl

include h hx

theorem type_old : p.type = n.type :=
  Option.some.inj ((h.type_of_child hx.occupant).symm.trans hx.slotType)

/-- A slot that the new node brings belongs to its type. -/
theorem belongs_of_child {k : κ} {m : Node τ} (hm : F.child? n k = some m) :
    k ≠ c ∧ S.belongs n.type k = true := by
  obtain ⟨hreach, hkc⟩ := hx.stored k (has_iff_exists.mpr ⟨_, child?_eq_some.mp hm⟩)
  have hslot : S.isSlot k = true := by rw [Schema.isSlot, h.type_of_child hm]; rfl
  exact ⟨hkc, Schema.belongs_eq_true.mpr ⟨hreach, hx.slots_loose k hreach hslot⟩⟩

/-! ### The slot is emptied -/

theorem isTop_release : (F.release S c p).IsTop r := Stands.release h hx.isTop hx.occupant hx.isTop

theorem isTop_new_release : (F.release S c p).IsTop n :=
  Stands.release h hx.isTop hx.occupant hx.isTop_new

theorem isTop_old_release : (F.release S c p).IsTop p := stands_released h hx.isTop hx.occupant

theorem coherent_release : Coherent S (F.release S c p) := Sound.release h hx.isTop hx.occupant

/-- The new node is not touched when the old one leaves. -/
theorem explicit?_release_new (k : κ) : (F.release S c p).explicit? n k = F.explicit? n k := by
  have hplace : F.place r ≠ F.place n := fun e => hx.ne (h.place_inj hx.isTop hx.isTop_new e).symm
  have hkeeps : Keeps (F.place n) F (F.release S c p) :=
    Keeps.release h hx.isTop hx.occupant hplace (h.place_lt hx.isTop_new.known)
  rw [explicit?, explicit?, (hkeeps.tree h hx.isTop_new).1]

theorem explicit?_release_root (k : κ) : (F.release S c p).explicit? r k =
    if k = c ∨ S.belongs n.type k = true then none else F.explicit? r k := by
  rw [Forest.explicit?_release_root h hx.isTop hx.occupant, hx.type_old h]

theorem child?_release_slot : (F.release S c p).child? r c = none := by
  rw [child?_eq, hx.explicit?_release_root h, if_pos (Or.inl rfl)]
  rfl

theorem free (k : κ) (m : Node τ) (hm : (F.release S c p).child? n k = some m) :
    k ≠ c ∧ (F.release S c p).child? r k = none := by
  rw [child?_eq, hx.explicit?_release_new h] at hm
  obtain ⟨hkc, hb⟩ := hx.belongs_of_child h hm
  refine ⟨hkc, ?_⟩
  rw [child?_eq, hx.explicit?_release_root h, if_pos (Or.inr hb)]
  rfl

theorem root_notMem_broughtBy : r ∉ nodesIn ((F.release S c p).broughtBy n) := by
  intro hm
  obtain ⟨k, hk⟩ := mem_nodesIn.mp hm
  exact (hx.coherent_release h).child?_ne_root (hx.isTop_new_release h) (hx.isTop_release h).root k
    (child?_eq_some.mpr (mem_broughtBy.mp hk))

/-! ### The new node comes in -/

theorem set_eq : F.set S r c (.node n) = (.ok (), (F.release S c p).graft S r c n) := by
  have hne : F.child? r c ≠ some n := fun hn =>
    h.child?_ne_root hx.isTop hx.isTop_new.root c hn
  have hatt : Attachable S F (F.rootOf r) n :=
    ⟨hx.not_bag, hx.isTop.rootOf_eq.symm ▸ hx.ne, hx.isTop_new.root, hx.unfrozen_new⟩
  rw [set_of_attachable hx.unfrozen hx.slotType hne hatt, evict_of_some hx.occupant, hx.isTop.rootOf_eq]

theorem coherent_graft : Coherent S ((F.release S c p).graft S r c n) :=
  (hx.coherent_release h).graft (hx.isTop_release h) (hx.isTop_new_release h) (Ne.symm hx.ne)
    (hx.child?_release_slot h) hx.slotType

/-- What the root stores under every key in the end. -/
theorem explicit?_graft (k : κ) : ((F.release S c p).graft S r c n).explicit? r k =
    (F.explicit? n k).or
      (if k = c then some (.node n) else if S.belongs n.type k = true then none else F.explicit? r k) := by
  rw [explicit?_graft_of_free (Ne.symm hx.ne) (hx.root_notMem_broughtBy h) (hx.free h),
    hx.explicit?_release_new h, hx.explicit?_release_root h]
  by_cases hkc : k = c
  · rw [if_pos hkc, if_pos hkc]
  · rw [if_neg hkc, if_neg hkc]
    simp only [hkc, false_or]

theorem isTop_graft : ((F.release S c p).graft S r c n).IsTop r ∧
    ((F.release S c p).graft S r c n).isFrozen r = false := by
  have hcell : ((F.release S c p).graft S r c n).cell r = (F.release S c p).cell r := by
    rw [cell_graft_of_free (Ne.symm hx.ne) (hx.root_notMem_broughtBy h) (hx.free h),
      if_neg (not_or.mpr ⟨hx.root_notMem_broughtBy h, Ne.symm hx.ne⟩)]
  have hknown := Forest.isTop_graft (hx.coherent_release h) (hx.isTop_release h) (hx.isTop_new_release h)
    (Ne.symm hx.ne) (hx.child?_release_slot h) hx.slotType
  obtain ⟨htop, hf⟩ := (hx.isTop_release h).of_cell hknown.known hcell
  exact ⟨htop, hf.trans ((isFrozen_release h hx.isTop hx.occupant).trans hx.unfrozen)⟩

/-- The old node has left before the new one comes, and is not touched any more. -/
theorem keeps_old : Keeps ((F.release S c p).place p) (F.release S c p) ((F.release S c p).graft S r c n) := by
  have hold := hx.isTop_old_release h
  have hroot := hx.isTop_release h
  have hnew := hx.isTop_new_release h
  have hpr : r ≠ p := root_ne h hx.isTop hx.occupant
  have hpn : n ≠ p := by
    rintro rfl
    exact h.child?_ne_root hx.isTop hx.isTop_new.root c hx.occupant
  exact Keeps.graft (hx.coherent_release h) hroot hnew (Ne.symm hx.ne) (hx.child?_release_slot h) hx.slotType
    (fun e => hpr ((hx.coherent_release h).place_inj hroot hold e))
    (fun e => hpn ((hx.coherent_release h).place_inj hnew hold e))
    ((hx.coherent_release h).place_lt hold.known)

theorem child?_graft_slot : ((F.release S c p).graft S r c n).child? r c = some n := by
  rw [child?_eq_some, hx.explicit?_graft h, hx.explicit?_slot, if_pos rfl]
  rfl

/-- **The two nodes change places exactly.** -/
theorem replaced : Replaced S F ((F.release S c p).graft S r c n) r c p n := by
  have hcoh := hx.coherent_graft h
  have htop := hx.isTop_graft h
  have hkeeps := hx.keeps_old h
  obtain ⟨hold, hold'⟩ := hkeeps.isTop (hx.isTop_old_release h)
  have hstore := (hkeeps.tree (hx.coherent_release h) (hx.isTop_old_release h)).1
  have hbag : S.isBag p.type = false := by rw [hx.type_old h]; exact hx.not_bag
  have hbelongs : ∀ {k}, k ≠ c → S.belongs n.type k = true →
      ((F.release S c p).graft S r c n).explicit? r k = F.explicit? n k := by
    intro k hkc hb
    rw [hx.explicit?_graft h, if_neg hkc, if_pos hb, Option.or_none]
  have holdstore : ∀ k, ((F.release S c p).graft S r c n).explicit? p k =
      if k ≠ c ∧ S.belongs n.type k = true then F.explicit? r k else none := by
    intro k
    rw [explicit?, hstore, ← hx.type_old h]
    exact explicit?_release_self h hx.isTop hx.occupant k
  constructor
  case isTop => exact htop
  case occupant =>
    have hslot := hx.child?_graft_slot h
    exact ⟨hslot, (hcoh.slot htop.1 hslot).2.2⟩
  case isTop_old => exact ⟨hold, hold'.trans (attachable_released h hx.isTop hx.occupant hbag).unfrozen⟩
  case old => exact holdstore
  case belonging => exact hbelongs
  case sticky =>
    intro k hreach hs
    have hkc : k ≠ c := by
      rintro rfl
      have hslot : S.isSlot k = true := by rw [Schema.isSlot, hx.slotType]; rfl
      rw [hx.slots_loose k hreach hslot] at hs
      cases hs
    have hb : ¬ S.belongs n.type k = true := by
      rw [Schema.belongs_eq_true, hs]
      exact fun hand => Bool.false_ne_true hand.2.symm
    rw [hx.explicit?_graft h, if_neg hkc, if_neg hb]
  case foreign =>
    intro k hkc hreach
    have hb : ¬ S.belongs n.type k = true := by
      rw [Schema.belongs_eq_true, hreach]
      exact fun hand => Bool.false_ne_true hand.1
    have hnone : F.explicit? n k = none := by
      rw [← has_eq_false_iff, Bool.eq_false_iff]
      intro hhas
      rw [(hx.stored k hhas).1] at hreach
      cases hreach
    rw [hx.explicit?_graft h, if_neg hkc, if_neg hb, hnone]
    rfl
  case nested =>
    intro m hm
    obtain ⟨k, hk⟩ := h.listed (knows_of_owner? hm) (fun hf => hf) hm
    obtain ⟨hkc, hb⟩ := hx.belongs_of_child h hk
    have hin : ((F.release S c p).graft S r c n).child? r k = some m := by
      rw [child?_eq, hbelongs hkc hb]
      exact hk
    exact (hcoh.slot htop.1 hin).2.2
  case nested_old =>
    intro k m hkc hb hm
    have hin : ((F.release S c p).graft S r c n).child? p k = some m := by
      rw [child?_eq, holdstore, if_pos ⟨hkc, hb⟩]
      exact hm
    exact (hcoh.slot hold hin).2.2

end Replacement

/-! ## The new node leaves again -/

/-- A node that has replaced another leaves with what it brought, sticky entries apart. -/
theorem Replaced.returned (h : Coherent S F) (hx : Replacement S F r c p n) (hG : Coherent S G)
    (hr : Replaced S F G r c p n) : Returned S F (G.release S c n) n := by
  obtain ⟨htop, -⟩ := hr.isTop
  obtain ⟨hin, -⟩ := hr.occupant
  have hstands : (G.release S c n).IsTop n := stands_released hG htop hin
  have hstored : ∀ k, (G.release S c n).explicit? n k =
      if S.isSticky k = true then none else F.explicit? n k := by
    intro k
    rw [explicit?_release_self hG htop hin]
    by_cases hk : k ≠ c ∧ S.belongs n.type k = true
    · have hs := (Schema.belongs_eq_true.mp hk.2).2
      rw [if_pos hk, hr.belonging hk.1 hk.2, hs, if_neg Bool.false_ne_true]
    · rw [if_neg hk]
      cases hs : S.isSticky k with
      | true => rfl
      | false => rw [hx.explicit?_of_not_belongs hk hs, if_neg Bool.false_ne_true]
  constructor
  case isTop => exact hstands
  case unfrozen => exact (attachable_released hG htop hin hx.not_bag).unfrozen
  case stored => exact hstored
  case nested =>
    intro m hm
    obtain ⟨k, hk⟩ := h.listed (knows_of_owner? hm) (fun hf => hf) hm
    have hs := (Schema.belongs_eq_true.mp (hx.belongs_of_child h hk).2).2
    have hin' : (G.release S c n).child? n k = some m := by
      rw [child?_eq, hstored, hs, if_neg Bool.false_ne_true]
      exact hk
    exact ((Sound.release hG htop hin).slot hstands hin').2.2

end Forest

namespace Session

open Forest

variable {S : Schema τ κ} {W : Session τ κ} {r p n : Node τ} {c : κ}

/-- **A node that is set into an occupied slot changes places with the node there, and can be detached
again.** -/
theorem replaced_of_set (h : Reachable S W) (hx : Replacement S W.forest r c p n) :
    ∃ G H, W.forest.set S r c (.node n) = (.ok (), G) ∧ Replaced S W.forest G r c p n ∧
      G.detach S r c = (.ok (some n), H) ∧ Returned S W.forest H n := by
  have hcoh := h.orderly.coherent
  have hreplaced := hx.replaced hcoh
  have hdetach := detach_of_child hreplaced.isTop.2 hx.slotType hreplaced.occupant.1
  exact ⟨_, _, hx.set_eq hcoh, hreplaced, hdetach, hreplaced.returned hcoh hx (hx.coherent_graft hcoh)⟩

/-- A tree with an id and both slots filled, and another with an id and its right slot filled. -/
def rivals : Session NodeType Key :=
  ⟨[.bare .tree, .childOrNew ⟨1, .tree⟩ (.specimen .left), .childOrNew ⟨1, .tree⟩ (.specimen .right),
    .set ⟨1, .tree⟩ .id (.text "old"), .bare .tree, .childOrNew ⟨4, .tree⟩ (.specimen .right),
    .set ⟨4, .tree⟩ .id (.text "new")].foldl (Operation.run catalog) .empty, []⟩

theorem reachable_rivals : Reachable catalog rivals := by
  refine Reachable.run .refl ?_
  decide

/-- The slots of a tree lead to trees, so that nothing is reached but what the type declares. -/
theorem closure_tree : catalog.closure .tree = [.id, .specimen .label, .specimen .left, .specimen .right] := by
  have hdeclared : catalog.declared .tree = [.id, .specimen .label, .specimen .left, .specimen .right] := by
    decide
  rw [Schema.closure, hdeclared, Schema.walk_leaf _ _ (by decide) (by decide),
    Schema.walk_leaf _ _ (by decide) (by decide),
    Schema.walk_slot (t := .tree) _ _ (by decide) (by decide), hdeclared]
  simp only [List.nil_append, List.cons_append]
  rw [Schema.walk_seen _ _ (by decide), Schema.walk_seen _ _ (by decide), Schema.walk_seen _ _ (by decide),
    Schema.walk_slot (t := .tree) _ _ (by decide) (by decide), hdeclared]
  simp [Schema.walk_seen, Schema.walk_nil]

theorem replacement_rivals :
    Replacement catalog rivals.forest ⟨1, .tree⟩ (.specimen .left) ⟨2, .tree⟩ ⟨4, .tree⟩ := by
  have hreaches : ∀ k, catalog.reaches .tree k = true ↔
      k ∈ [Key.id, .specimen .label, .specimen .left, .specimen .right] := by
    intro k
    rw [Schema.reaches, decide_eq_true_eq, closure_tree]
  constructor
  case isTop => exact ⟨by decide, fun hf => hf, by decide⟩
  case unfrozen => decide
  case occupant => decide
  case isTop_new => exact ⟨by decide, fun hf => hf, by decide⟩
  case unfrozen_new => decide
  case ne => decide
  case slotType => rfl
  case not_bag => rfl
  case slots_loose =>
    intro k hk hslot
    rw [hreaches] at hk
    revert k
    decide
  case stored =>
    intro k hk
    have hkeys : (rivals.forest.storeOf ⟨4, .tree⟩).keys = [.specimen .right, .id] := by decide
    rw [has, Store.contains_iff_mem_keys, hkeys] at hk
    rw [hreaches]
    revert k
    decide

theorem replaced_rivals :
    (Reachable catalog rivals ∧
        Replacement catalog rivals.forest ⟨1, .tree⟩ (.specimen .left) ⟨2, .tree⟩ ⟨4, .tree⟩) ∧
      ∃ G H, rivals.forest.set catalog ⟨1, .tree⟩ (.specimen .left) (.node ⟨4, .tree⟩) = (.ok (), G) ∧
        Replaced catalog rivals.forest G ⟨1, .tree⟩ (.specimen .left) ⟨2, .tree⟩ ⟨4, .tree⟩ ∧
        G.detach catalog ⟨1, .tree⟩ (.specimen .left) = (.ok (some ⟨4, .tree⟩), H) ∧
        Returned catalog rivals.forest H ⟨4, .tree⟩ :=
  ⟨⟨reachable_rivals, replacement_rivals⟩, replaced_of_set reachable_rivals replacement_rivals⟩

end Session

end LayeredConfig
