import LayeredConfig.Proofs.Detaching
import LayeredConfig.Proofs.Isolation

/-!
# A detached node parts the tree in two

What belongs to a node is recorded nowhere: a node that is detached takes along what the closure of its type
tells, and the rest stays. Here both halves are described by what they hold.

* `Moves`: what goes along with a node that leaves its slot;
* `Parted`: every entry but the slot itself is in exactly one of the halves, the nodes attached to the old root
  have followed their entries, and no other tree has changed;
* `parted_of_detach`: whoever of the tree is asked, an occupied slot is emptied in this way, and an empty one
  is left as it is.
-/

namespace LayeredConfig

variable {τ κ : Type} [DecidableEq τ] [DecidableEq κ] {S : Schema τ κ}

namespace Forest

variable {F G : Forest τ κ} {r d n m : Node τ} {c k : κ}

/-- What goes along when the node `d` leaves the slot `c`: what its type reaches and is not sticky. The slot that
it leaves does not, even where the type of `d` has that slot itself. -/
def Moves (S : Schema τ κ) (c : κ) (d : Node τ) (k : κ) : Prop :=
  k ≠ c ∧ k ∈ S.closure d.type ∧ S.isSticky k = false

instance (S : Schema τ κ) (c : κ) (d : Node τ) (k : κ) : Decidable (Moves S c d k) :=
  inferInstanceAs (Decidable (_ ∧ _ ∧ _))

omit [DecidableEq τ] in
theorem moves_iff_belongs : Moves S c d k ↔ k ≠ c ∧ S.belongs d.type k = true := by
  rw [Moves, Schema.belongs, Schema.reaches, Bool.and_eq_true, decide_eq_true_eq, Bool.not_eq_true']

omit [DecidableEq τ] in
theorem eq_or_moves_iff : k = c ∨ Moves S c d k ↔ k = c ∨ S.belongs d.type k = true := by
  rw [moves_iff_belongs]
  by_cases hk : k = c
  · simp [hk]
  · simp [hk]

/-- The nodes of the tree of `r` that go along with `d`: itself, and what is in a slot that moves. -/
def Follows (S : Schema τ κ) (F : Forest τ κ) (r : Node τ) (c : κ) (d n : Node τ) : Prop :=
  n = d ∨ ∃ k, Moves S c d k ∧ F.child? r k = some n

/-- In the forest `G` the node `d` has left the slot `c` of the root `r`. -/
structure Parted (S : Schema τ κ) (F G : Forest τ κ) (r : Node τ) (c : κ) (d : Node τ) : Prop where
  child : G.IsTop d ∧ G.isFrozen d = false
  root : G.IsTop r ∧ G.isFrozen r = false
  taken : ∀ k, G.explicit? d k = if Moves S c d k then F.explicit? r k else none
  left : ∀ k, G.explicit? r k = if k = c ∨ Moves S c d k then none else F.explicit? r k
  /-- Nothing but the slot itself is lost, and nothing is in both halves. -/
  once : ∀ k, k ≠ c → ∀ v, F.explicit? r k = some v ↔
    (G.explicit? d k = some v ∧ G.explicit? r k = none) ∨ (G.explicit? d k = none ∧ G.explicit? r k = some v)
  occupant : ∀ {k m}, k ≠ c → F.child? r k = some m →
    G.owner? m = if Moves S c d k then some d else some r
  /-- Every node of the old tree is in one of the halves. -/
  member : ∀ {n}, F.rootOf n = r →
    (G.rootOf n = d ∨ G.rootOf n = r) ∧ (G.rootOf n = d ↔ Follows S F r c d n)
  aside : ∀ {n}, F.knows n = true → F.rootOf n ≠ r → Same F G n

section Release

variable (h : Coherent S F) (hr : F.IsTop r) (hc : F.child? r c = some d)

include h hr hc

theorem mem_nodesIn_takenBy_iff_moves :
    m ∈ nodesIn (takenBy S F c d) ↔ ∃ k, Moves S c d k ∧ F.child? r k = some m := by
  simp only [mem_nodesIn_takenBy h hr hc, moves_iff_belongs, and_assoc]

/-- A node in another slot is taken along exactly if its slot moves: no node is in two slots. -/
theorem mem_nodesIn_takenBy_of_child (hm : F.child? r k = some m) :
    m ∈ nodesIn (takenBy S F c d) ↔ Moves S c d k := by
  rw [mem_nodesIn_takenBy_iff_moves h hr hc]
  constructor
  · rintro ⟨k', hk', hm'⟩
    rwa [h.slot_inj hr hm hm']
  · intro hk
    exact ⟨k, hk, hm⟩

theorem owner?_release_of_child (hk : k ≠ c) (hm : F.child? r k = some m) :
    (F.release S c d).owner? m = if Moves S c d k then some d else some r := by
  have hmd : m ≠ d := by
    rintro rfl
    exact hk (h.slot_inj hr hm hc)
  simp only [owner?_release h hr hc, mem_nodesIn_takenBy_of_child h hr hc hm, if_neg hmd, (h.slot hr hm).2.2]

theorem rootOf_release_of_follows (hn : Follows S F r c d n) : (F.release S c d).rootOf n = d := by
  have hself : (F.release S c d).IsTop d := stands_released h hr hc
  rcases hn with rfl | hm
  · exact hself.rootOf_eq
  · rw [rootOf, owner?_release h hr hc, if_pos ((mem_nodesIn_takenBy_iff_moves h hr hc).mpr hm)]
    rfl

theorem rootOf_release_of_not_follows (hn : ¬ Follows S F r c d n) :
    (F.release S c d).rootOf n = F.rootOf n := by
  rw [Follows, not_or, ← mem_nodesIn_takenBy_iff_moves h hr hc] at hn
  rw [rootOf, owner?_release h hr hc, if_neg hn.2, if_neg hn.1, rootOf]

/-- **To release a node parts the tree.** -/
theorem parted_release (hf : F.isFrozen r = false) : Parted S F (F.release S c d) r c d := by
  have htop : (F.release S c d).IsTop r := Stands.release h hr hc hr
  have hself : (F.release S c d).IsTop d := stands_released h hr hc
  have htaken : ∀ k, (F.release S c d).explicit? d k = if Moves S c d k then F.explicit? r k else none := by
    intro k
    simp only [explicit?_release_self h hr hc, moves_iff_belongs]
  have hleft : ∀ k, (F.release S c d).explicit? r k =
      if k = c ∨ Moves S c d k then none else F.explicit? r k := by
    intro k
    simp only [explicit?_release_root h hr hc, eq_or_moves_iff]
  constructor
  case child =>
    refine ⟨hself, ?_⟩
    rw [hself.isFrozen_eq, cell_release h hr hc, if_neg (notMem_nodesIn_takenBy h hr hc), if_pos rfl]
  case root => exact ⟨htop, (isFrozen_release h hr hc).trans hf⟩
  case taken => exact htaken
  case left => exact hleft
  case once =>
    intro k hk v
    rw [htaken, hleft]
    by_cases hm : Moves S c d k
    · simp [hm]
    · simp [hk, hm]
  case occupant => exact fun hk hm => owner?_release_of_child h hr hc hk hm
  case member =>
    intro n hn
    by_cases hfol : Follows S F r c d n
    · have hroot := rootOf_release_of_follows h hr hc hfol
      exact ⟨Or.inl hroot, fun _ => hfol, fun _ => hroot⟩
    · have hroot := (rootOf_release_of_not_follows h hr hc hfol).trans hn
      exact ⟨Or.inr hroot, fun he => absurd (hroot.symm.trans he) (root_ne h hr hc), fun hf => absurd hf hfol⟩
  case aside =>
    intro n hn hne
    have htop' := h.isTop_rootOf hn
    have hp : F.place r ≠ F.place (F.rootOf n) := fun hp => hne (h.place_inj hr htop' hp).symm
    exact (Keeps.release h hr hc hp (h.place_lt htop'.known)).same h htop' rfl

end Release

end Forest

namespace Session

open Forest

variable {W : Session τ κ} {a : Node τ} {c : κ} {t : τ}

/-- **To detach parts the tree without loss or duplication.** The slot may be named through any node of the
tree, and that node goes where its entry goes. -/
theorem parted_of_detach (h : Reachable S W) (ha : W.forest.knows a = true)
    (hf : W.forest.isFrozen (W.forest.rootOf a) = false) (hc : S.slotType? c = some t) :
    (∀ d, W.forest.child? (W.forest.rootOf a) c = some d →
      d.type = t ∧ ∃ G, W.forest.detach S a c = (.ok (some d), G) ∧
        Parted S W.forest G (W.forest.rootOf a) c d) ∧
    (W.forest.child? (W.forest.rootOf a) c = none →
      W.forest.detach S a c = (.ok none, W.forest)) := by
  have hcoh := h.orderly.coherent
  have htop := hcoh.isTop_rootOf ha
  have hfa : W.forest.isFrozen a = false := by rwa [isFrozen, htop.rootOf_eq] at hf
  constructor
  · intro d hd
    have hty := hcoh.type_of_child hd
    refine ⟨Option.some.inj (hty.symm.trans hc), _, ?_, parted_release hcoh htop hd hf⟩
    exact detach_of_child hfa hc ((hcoh.child?_rootOf ha c).trans hd)
  · intro hnone
    have hna : W.forest.child? a c = none := (hcoh.child?_rootOf ha c).trans hnone
    rcases detach_cases S W.forest a c with ⟨hs, -⟩ | ⟨hfa', -⟩ | ⟨-, -, he⟩ | ⟨d, -, hd, -⟩
    · rw [hc] at hs
      cases hs
    · rw [hfa] at hfa'
      cases hfa'
    · exact he
    · rw [hna] at hd
      cases hd

/-- A tree with a node in each of its slots, a label and an id. -/
def branched : Session NodeType Key :=
  ⟨[.bare .tree, .childOrNew ⟨1, .tree⟩ (.specimen .left), .childOrNew ⟨1, .tree⟩ (.specimen .right),
    .set ⟨1, .tree⟩ (.specimen .label) (.text "low"), .set ⟨1, .tree⟩ .id (.text "top")].foldl
      (Operation.run catalog) .empty, []⟩

theorem reachable_branched : Reachable catalog branched := by
  refine Reachable.run .refl ?_
  decide

/-- The right node is detached through the left one, which goes along: the type of trees has both slots. -/
theorem parted_branched :
    (Reachable catalog branched ∧ branched.forest.knows ⟨2, .tree⟩ = true ∧
      branched.forest.isFrozen (branched.forest.rootOf ⟨2, .tree⟩) = false ∧
      catalog.slotType? (.specimen .right) = some .tree ∧
      branched.forest.child? (branched.forest.rootOf ⟨2, .tree⟩) (.specimen .right) = some ⟨3, .tree⟩) ∧
    ∃ G, branched.forest.detach catalog ⟨2, .tree⟩ (.specimen .right) = (.ok (some ⟨3, .tree⟩), G) ∧
      Parted catalog branched.forest G (branched.forest.rootOf ⟨2, .tree⟩) (.specimen .right) ⟨3, .tree⟩ :=
  ⟨⟨reachable_branched, by decide, by decide, rfl, by decide⟩,
    ((parted_of_detach reachable_branched (by decide) (by decide) rfl).1 ⟨3, .tree⟩ (by decide)).2⟩

end Session

end LayeredConfig
