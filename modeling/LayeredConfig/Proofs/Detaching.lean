import LayeredConfig.Proofs.Session

/-!
# To detach and to attach again

A node that is detached takes along what belongs to its type, and leaves the rest of the tree free of it. So
nothing is in the way when it is attached again: every slot that it brings is empty, and everything comes back
to where it was. `graft_eq_of_free` says what grafting is in that case; `cell_regraft` and `get?_regraft` say
of every cell and of every store that they are as before.
-/

namespace LayeredConfig

namespace Forest

variable {τ κ : Type} [DecidableEq τ] [DecidableEq κ]

variable {S : Schema τ κ} {F : Forest τ κ} {n r d : Node τ} {c : κ}

/-! ## Grafting with nothing in the way -/

/-- Everything that the node `d` brings: its slots and then its leaves. -/
def broughtBy (F : Forest τ κ) (d : Node τ) : List (κ × Value τ) := F.slotsIn d ++ F.leavesIn d

omit [DecidableEq κ] in
theorem broughtBy_perm (F : Forest τ κ) (d : Node τ) : (F.broughtBy d).Perm (F.storeOf d).entries :=
  List.filter_append_perm _ _

theorem mem_broughtBy {k : κ} {v : Value τ} : (k, v) ∈ F.broughtBy d ↔ F.explicit? d k = some v := by
  rw [(broughtBy_perm F d).mem_iff, ← Store.get?_eq_some_iff]
  rfl

omit [DecidableEq κ] in
theorem nodup_keys_broughtBy (F : Forest τ κ) (d : Node τ) : ((F.broughtBy d).map Prod.fst).Nodup :=
  ((broughtBy_perm F d).map Prod.fst).nodup_iff.mpr (F.storeOf d).nodup_keys

/-- An entry that comes in changes nothing under other keys. -/
theorem explicit?_receive_of_ne (F : Forest τ κ) (r : Node τ) {e : κ × Value τ} {k : κ} (hk : k ≠ e.1) :
    (receive r F e).explicit? r k = F.explicit? r k := by
  rcases entry_cases e with ⟨c, d, rfl⟩ | he
  · rw [receive_node, explicit?_settle, if_pos (Or.inr rfl), if_neg hk]
  · rw [receive_leaf r F he, explicit?_put, if_neg fun h => hk h.2]

/-- Slots that are empty are taken over as they are. -/
theorem graftSlots_of_free {es : List (κ × Value τ)} (hk : (es.map Prod.fst).Nodup)
    (hfree : ∀ e ∈ es, F.child? r e.1 = none) :
    es.foldl (graftSlot S r) F = es.foldl (receive r) F := by
  induction es generalizing F with
  | nil => rfl
  | cons e es ih =>
      rw [List.map_cons, List.nodup_cons] at hk
      have hstep : graftSlot S r F e = receive r F e := by
        rw [graftSlot, evict_of_none (hfree e (List.mem_cons_self ..))]
      rw [List.foldl_cons, List.foldl_cons, hstep]
      refine ih hk.2 fun e' he' => ?_
      have hne : e'.1 ≠ e.1 := fun h => hk.1 (h ▸ List.mem_map_of_mem he')
      rw [child?_eq, explicit?_receive_of_ne F r hne]
      exact hfree e' (List.mem_cons_of_mem _ he')

/-- If no slot that a node brings is taken, to graft it is to receive all that it brings. -/
theorem graft_eq_of_free (hfree : ∀ k m, F.child? d k = some m → k ≠ c ∧ F.child? r k = none) :
    F.graft S r c d = (F.broughtBy d).foldl (receive r) (F.settle r c d) := by
  rw [graft_eq, broughtBy, List.foldl_append, graftSlots_of_free (nodup_keys_slotsIn F d)]
  rintro ⟨k, v⟩ he
  obtain ⟨m, -, hm⟩ := mem_slotsIn.mp he
  obtain ⟨hkc, hk⟩ := hfree k m hm
  rw [child?_eq, explicit?_settle, if_pos (Or.inr rfl), if_neg hkc]
  exact hk

section Free

variable (hrd : r ≠ d) (hr : r ∉ nodesIn (F.broughtBy d))
  (hfree : ∀ k m, F.child? d k = some m → k ≠ c ∧ F.child? r k = none)

include hrd hr hfree

theorem cell_graft_of_free (m : Node τ) : (F.graft S r c d).cell m =
    if m ∈ nodesIn (F.broughtBy d) ∨ m = d then ⟨some r, F.place r, false⟩ else F.cell m := by
  rw [graft_eq_of_free hfree, cell_receiveAll hr, place_settle, if_neg hrd, cell_settle]
  by_cases hm : m ∈ nodesIn (F.broughtBy d)
  · rw [if_pos hm, if_pos (Or.inl hm)]
  · by_cases hd : m = d
    · rw [if_neg hm, if_pos hd, if_pos (Or.inr hd)]
    · rw [if_neg hm, if_neg hd, if_neg (not_or.mpr ⟨hm, hd⟩)]

/-- The root holds what the node brings, the node itself in its slot, and otherwise what it held before. -/
theorem get?_graft_of_free (a : Nat) (k : κ) : ((F.graft S r c d).storeAt a).get? k =
    if a = F.place r then (F.explicit? d k).or (if k = c then some (.node d) else F.explicit? r k)
    else (F.storeAt a).get? k := by
  have hstore : (F.settle r c d).storeOf r = (F.storeOf r).insert c (.node d) := by
    rw [storeOf, place_settle, if_neg hrd, storeAt_settle, if_pos rfl]
  rw [graft_eq_of_free hfree, storeAt_receiveAll hr, place_settle, if_neg hrd, hstore, storeAt_settle]
  by_cases ha : a = F.place r
  · rw [if_pos ha, if_pos ha]
    cases hv : F.explicit? d k with
    | some v => rw [Store.get?_insertAll_of_mem _ (nodup_keys_broughtBy F d) (mem_broughtBy.mpr hv)]; rfl
    | none =>
        have hkeys : k ∉ (F.broughtBy d).map Prod.fst := by
          intro hk
          obtain ⟨⟨k', v⟩, he, rfl⟩ := List.mem_map.mp hk
          rw [mem_broughtBy.mp he] at hv
          cases hv
        rw [Store.get?_insertAll_of_notMem _ hkeys, Store.get?_insert]
        rfl
  · rw [if_neg ha, if_neg ha, if_neg ha]

theorem explicit?_graft_of_free (k : κ) : (F.graft S r c d).explicit? r k =
    (F.explicit? d k).or (if k = c then some (.node d) else F.explicit? r k) := by
  have hp : (F.graft S r c d).place r = F.place r := by
    rw [place, cell_graft_of_free hrd hr hfree, if_neg (not_or.mpr ⟨hr, hrd⟩)]
    rfl
  rw [explicit?_eq, hp, get?_graft_of_free hrd hr hfree, if_pos rfl]

end Free

/-! ## The forest after a node has come back -/

section Regraft

variable (h : Coherent S F) (hr : F.IsTop r) (hc : F.child? r c = some d)

include h hr hc

theorem mem_broughtBy_release {k : κ} {v : Value τ} :
    (k, v) ∈ (F.release S c d).broughtBy d ↔
      k ≠ c ∧ S.belongs d.type k = true ∧ F.explicit? r k = some v := by
  rw [mem_broughtBy, explicit?_release_self h hr hc]
  by_cases hk : k ≠ c ∧ S.belongs d.type k = true
  · rw [if_pos hk]
    tauto
  · rw [if_neg hk]
    constructor
    · intro hv
      cases hv
    · rintro ⟨h₁, h₂, -⟩
      exact absurd ⟨h₁, h₂⟩ hk

theorem mem_nodesIn_release {m : Node τ} :
    m ∈ nodesIn ((F.release S c d).broughtBy d) ↔ m ∈ nodesIn (takenBy S F c d) := by
  simp only [mem_nodesIn, mem_broughtBy_release h hr hc, mem_takenBy h hr hc]

/-- Nothing is in the way of a node that was released. -/
theorem free_release (k : κ) (m : Node τ) (hm : (F.release S c d).child? d k = some m) :
    k ≠ c ∧ (F.release S c d).child? r k = none := by
  obtain ⟨hk, hb, -⟩ := (mem_broughtBy_release h hr hc).mp (mem_broughtBy.mpr (child?_eq_some.mp hm))
  refine ⟨hk, ?_⟩
  rw [child?_eq, explicit?_release_root h hr hc, if_pos (Or.inr hb)]
  rfl

theorem root_notMem_broughtBy_release : r ∉ nodesIn ((F.release S c d).broughtBy d) :=
  mt (mem_nodesIn_release h hr hc).mp (root_notMem_takenBy h hr hc hr.root)

theorem cell_child : F.cell d = ⟨some r, F.place r, false⟩ := by
  obtain ⟨hdk, -, hdo⟩ := h.slot hr hc
  have hp := place_child h hr hc
  have hfrozen : (F.cell d).frozen = false := by
    rw [Bool.eq_false_iff]
    intro hf
    rw [h.flag hdk hf] at hdo
    cases hdo
  rw [owner?] at hdo
  rw [place] at hp
  rw [← hdo, ← hp, ← hfrozen]

theorem cell_regraft (m : Node τ) : ((F.release S c d).graft S r c d).cell m = F.cell m := by
  have hmem := @mem_nodesIn_release _ _ _ _ S F r d c h hr hc m
  rw [cell_graft_of_free (root_ne h hr hc) (root_notMem_broughtBy_release h hr hc) (free_release h hr hc),
    place_release_root h hr hc]
  by_cases hm : m ∈ nodesIn (takenBy S F c d)
  · obtain ⟨k, -, -, hk⟩ := (mem_nodesIn_takenBy h hr hc).mp hm
    rw [if_pos (Or.inl (hmem.mpr hm)), cell_child h hr hk]
  · by_cases hd : m = d
    · rw [if_pos (Or.inr hd), hd, cell_child h hr hc]
    · rw [if_neg (not_or.mpr ⟨mt hmem.mp hm, hd⟩), cell_release h hr hc, if_neg hm, if_neg hd]

theorem knows_regraft (m : Node τ) : ((F.release S c d).graft S r c d).knows m = F.knows m := by
  have hk := knows_release h hr hc
  rw [Bool.eq_iff_iff, graft_eq_of_free (free_release h hr hc), knows_receiveAll, knows_settle, hk,
    Bool.or_eq_true, decide_eq_true_eq, mem_nodesIn_release h hr hc, mem_nodesIn_takenBy h hr hc]
  constructor
  · rintro (⟨k, -, -, hm⟩ | rfl | hm)
    · exact (h.slot hr hm).1
    · exact (h.slot hr hc).1
    · exact hm
  · exact fun hm => Or.inr (Or.inr hm)

/-- Every store that was in use holds what it held. -/
theorem get?_regraft {a : Nat} (ha : a < F.next) (k : κ) :
    (((F.release S c d).graft S r c d).storeAt a).get? k = (F.storeAt a).get? k := by
  rw [get?_graft_of_free (root_ne h hr hc) (root_notMem_broughtBy_release h hr hc) (free_release h hr hc),
    place_release_root h hr hc]
  by_cases har : a = F.place r
  · rw [if_pos har, har, explicit?_release_self h hr hc, explicit?_release_root h hr hc]
    show _ = F.explicit? r k
    by_cases hkc : k = c
    · rw [if_neg fun hand => hand.1 hkc, if_pos hkc, hkc, child?_eq_some.mp hc]
      rfl
    · -- What belongs to `d` went away with it and came back, and the rest stayed.
      by_cases hb : S.belongs d.type k = true
      · rw [if_pos ⟨hkc, hb⟩, if_neg hkc, if_pos (Or.inr hb), Option.or_none]
      · rw [if_neg fun hand => hb hand.2, if_neg hkc, if_neg (not_or.mpr ⟨hkc, hb⟩)]
        rfl
  · rw [if_neg har, storeAt_release h hr hc, if_neg (Nat.ne_of_lt ha), if_neg har]

/-- What is attached to the released node is what it has taken along: it owned nothing before. -/
theorem mem_takenBy_of_owner {n : Node τ} (hn : (F.release S c d).owner? n = some d) :
    n ∈ nodesIn (takenBy S F c d) := by
  rw [owner?_release h hr hc] at hn
  by_cases hm : n ∈ nodesIn (takenBy S F c d)
  · exact hm
  · rw [if_neg hm] at hn
    split at hn
    · cases hn
    · have hd := (h.owner (knows_of_owner? hn) (fun hl => hl) hn).1.root
      rw [(h.slot hr hc).2.2] at hd
      cases hd

theorem attachable_released (hb : S.isBag d.type = false) : Attachable S (F.release S c d) r d := by
  have hrd := root_ne h hr hc
  have htop : (F.release S c d).IsTop d := stands_released h hr hc
  refine ⟨hb, Ne.symm hrd, htop.root, ?_⟩
  rw [htop.isFrozen_eq, cell_release h hr hc, if_neg (notMem_nodesIn_takenBy h hr hc), if_pos rfl]

/-- The detached node leaves the rest of the tree as unfrozen as it was. -/
theorem isFrozen_release : (F.release S c d).isFrozen r = F.isFrozen r := by
  have hrm := root_notMem_takenBy h hr hc hr.root
  have hrd := root_ne h hr hc
  have htop : (F.release S c d).IsTop r := Stands.release h hr hc hr
  rw [htop.isFrozen_eq, hr.isFrozen_eq, cell_release h hr hc, if_neg hrm, if_neg hrd]

end Regraft

/-! ## The round trip -/

/-- The forest `G` has the nodes of `F`, and of every node it says what `F` says. -/
structure Restored (F G : Forest τ κ) : Prop where
  known : ∀ n, G.knows n = F.knows n
  owner : ∀ n, G.owner? n = F.owner? n
  root : ∀ n, G.rootOf n = F.rootOf n ∧ G.isRoot n = F.isRoot n
  frozen : ∀ n, G.isFrozen n = F.isFrozen n
  stored : ∀ {n}, F.knows n = true → ∀ k, G.has n k = F.has n k ∧ G.explicit? n k = F.explicit? n k
  occupant : ∀ {n}, F.knows n = true → ∀ k, G.child? n k = F.child? n k

theorem restored_regraft (h : Coherent S F) (hr : F.IsTop r) (hc : F.child? r c = some d) :
    Restored F ((F.release S c d).graft S r c d) := by
  have howner : ∀ n, ((F.release S c d).graft S r c d).owner? n = F.owner? n := fun n =>
    congrArg Cell.owner? (cell_regraft h hr hc n)
  have hroot : ∀ n, ((F.release S c d).graft S r c d).rootOf n = F.rootOf n := fun n => by
    rw [rootOf, rootOf, howner]
  have hexplicit : ∀ {n}, F.knows n = true → ∀ k,
      ((F.release S c d).graft S r c d).explicit? n k = F.explicit? n k := by
    intro n hn k
    rw [explicit?_eq, explicit?_eq, place, cell_regraft h hr hc]
    exact get?_regraft h hr hc (h.place_lt hn) k
  constructor
  case known => exact knows_regraft h hr hc
  case owner => exact howner
  case root => exact fun n => ⟨hroot n, by rw [isRoot, isRoot, howner]⟩
  case frozen =>
    intro n
    rw [isFrozen, isFrozen, hroot, cell_regraft h hr hc]
  case stored =>
    intro n hn k
    exact ⟨congrArg Option.isSome (hexplicit hn k), hexplicit hn k⟩
  case occupant =>
    intro n hn k
    rw [child?_eq, child?_eq, hexplicit hn]

end Forest

namespace Session

open Forest

variable {τ κ : Type} [DecidableEq τ] [DecidableEq κ] {S : Schema τ κ} {W : Session τ κ} {r d : Node τ}
  {c : κ}

/-- **A node that is detached can be attached again, and then everything is as it was.** -/
theorem restored_of_detach_attach (h : Reachable S W) (hr : W.forest.IsTop r)
    (hf : W.forest.isFrozen r = false) (hc : W.forest.child? r c = some d) (hb : S.isBag d.type = false) :
    ∃ G H, W.forest.detach S r c = (.ok (some d), G) ∧ G.set S r c (.node d) = (.ok (), H) ∧
      Restored W.forest H ∧ ∀ n, G.owner? n = some d → H.owner? n = some r := by
  have hcoh := h.orderly.coherent
  have htop : (W.forest.release S c d).IsTop r := Stands.release hcoh hr hc hr
  have hdetach : W.forest.detach S r c = (.ok (some d), W.forest.release S c d) := by
    rcases detach_cases S W.forest r c with ⟨hs, -⟩ | ⟨hf', -⟩ | ⟨-, hc', -⟩ | ⟨d', -, hc', he⟩
    · rw [hcoh.type_of_child hc] at hs
      cases hs
    · rw [hf] at hf'
      cases hf'
    · rw [hc] at hc'
      cases hc'
    · obtain rfl := Option.some.inj (hc.symm.trans hc')
      exact he
  have hempty : (W.forest.release S c d).child? r c = none := by
    rw [child?_eq, explicit?_release_root hcoh hr hc, if_pos (Or.inl rfl)]
    rfl
  have hattach : (W.forest.release S c d).set S r c (.node d) =
      (.ok (), (W.forest.release S c d).graft S r c d) := by
    have hset := set_of_attachable ((isFrozen_release hcoh hr hc).trans hf) (hcoh.type_of_child hc)
      (by rw [hempty]; exact fun he => nomatch he)
      (htop.rootOf_eq.symm ▸ attachable_released hcoh hr hc hb)
    rwa [evict_of_none hempty, htop.rootOf_eq] at hset
  refine ⟨_, _, hdetach, hattach, restored_regraft hcoh hr hc, fun n hn => ?_⟩
  obtain ⟨k, -, -, hk⟩ := (mem_nodesIn_takenBy hcoh hr hc).mp (mem_takenBy_of_owner hcoh hr hc hn)
  rw [(restored_regraft hcoh hr hc).owner]
  exact (hcoh.slot hr hk).2.2

/-- A node leaves its sticky value behind when it is detached, and its child comes along. -/
theorem restored_anchored :
    (Reachable catalog anchored ∧ anchored.forest.IsTop ⟨1, .holder⟩ ∧
      anchored.forest.isFrozen ⟨1, .holder⟩ = false ∧
      anchored.forest.child? ⟨1, .holder⟩ (.specimen .anchor) = some ⟨3, .testParent⟩) ∧
      ∃ G H, anchored.forest.detach catalog ⟨1, .holder⟩ (.specimen .anchor) = (.ok (some ⟨3, .testParent⟩), G) ∧
        G.set catalog ⟨1, .holder⟩ (.specimen .anchor) (.node ⟨3, .testParent⟩) = (.ok (), H) ∧
        Restored anchored.forest H ∧
          ∀ n, G.owner? n = some ⟨3, .testParent⟩ → H.owner? n = some ⟨1, .holder⟩ := by
  have htop : anchored.forest.IsTop ⟨1, .holder⟩ := ⟨by decide, fun hf => hf, by decide⟩
  exact ⟨⟨reachable_anchored, htop, by decide, by decide⟩,
    restored_of_detach_attach reachable_anchored htop (by decide) (by decide) rfl⟩

end Session

end LayeredConfig
