import LayeredConfig.Proofs.Session

/-!
# No store stands at place 0

A node that the forest does not know counts as a root at place 0. In every session that a client can reach
the known nodes are at other places, and nothing is stored at that one (`Session.Reachable.grounded`); so a
node that is not known holds nothing.
-/

namespace LayeredConfig

variable {τ κ : Type} [DecidableEq τ] [DecidableEq κ]

namespace Forest

/-- Known nodes have places of their own, and place 0 is empty. -/
structure Grounded (F : Forest τ κ) : Prop where
  next_pos : 0 < F.next
  place_pos : ∀ {n}, F.knows n = true → 0 < F.place n
  nowhere : ∀ k, (F.storeAt 0).get? k = none

variable {S : Schema τ κ} {F G : Forest τ κ} {n r d : Node τ} {c : κ} {v : Value τ} {t : τ}

/-- A node that is not known holds nothing. -/
theorem Grounded.explicit?_of_unknown (h : Grounded F) (hn : F.knows n = false) (k : κ) :
    F.explicit? n k = none := by
  rw [knows, Store.contains, Option.isSome_eq_false_iff, Option.isNone_iff_eq_none] at hn
  have hplace : F.place n = 0 := by rw [place, cell, hn]; rfl
  rw [explicit?_eq, hplace, h.nowhere]

/-! ## Elementary changes -/

namespace Grounded

theorem empty : Grounded (empty : Forest τ κ) where
  next_pos := Nat.one_pos
  place_pos := fun hn => nomatch hn
  nowhere := fun _ => rfl

theorem advance (h : Grounded F) : Grounded F.advance := ⟨Nat.succ_pos _, h.place_pos, h.nowhere⟩

/-- A store may be changed at any place but 0; there it can only lose entries. -/
theorem withStoreAt (h : Grounded F) {a : Nat} {s : Store κ (Value τ)}
    (hs : a = 0 → ∀ k, (F.storeAt 0).get? k = none → s.get? k = none) : Grounded (F.withStoreAt a s) where
  next_pos := h.next_pos
  place_pos := h.place_pos
  nowhere := by
    intro k
    rw [storeAt_withStoreAt]
    split
    · next ha => exact hs ha.symm k (h.nowhere k)
    · exact h.nowhere k

theorem put (h : Grounded F) (hn : F.knows n = true) (c : κ) (v : Value τ) : Grounded (F.put n c v) :=
  h.withStoreAt fun ha => absurd ha (Nat.ne_of_gt (h.place_pos hn))

theorem erase (h : Grounded F) (n : Node τ) (c : κ) :
    Grounded (F.withStoreAt (F.place n) ((F.storeOf n).erase c)) := by
  refine h.withStoreAt fun ha k hk => ?_
  rw [Store.get?_erase, storeOf, ha, hk, ite_self]

theorem plant (h : Grounded F) (n : Node τ) : Grounded (F.plant n) where
  next_pos := Nat.succ_pos _
  place_pos := by
    intro m hm
    rw [place_plant]
    split
    · exact h.next_pos
    · next hne =>
      rw [knows_plant, Bool.or_eq_true, decide_eq_true_eq] at hm
      exact h.place_pos (hm.resolve_left hne)
  nowhere := by
    intro k
    rw [storeAt_plant, if_neg (Nat.ne_of_lt h.next_pos)]
    exact h.nowhere k

theorem settle (h : Grounded F) (hr : F.knows r = true) (c : κ) (d : Node τ) : Grounded (F.settle r c d) where
  next_pos := h.next_pos
  place_pos := by
    intro m hm
    rw [place_settle]
    split
    · exact h.place_pos hr
    · next hne =>
      rw [knows_settle, Bool.or_eq_true, decide_eq_true_eq] at hm
      exact h.place_pos (hm.resolve_left hne)
  nowhere := by
    intro k
    rw [storeAt_settle, if_neg (Nat.ne_of_lt (h.place_pos hr))]
    exact h.nowhere k

theorem markFrozen (h : Grounded F) (hn : F.knows n = true) : Grounded (F.markFrozen n) where
  next_pos := h.next_pos
  place_pos := by
    intro m hm
    rw [place_markFrozen]
    rw [Forest.markFrozen, knows_withCell, Bool.or_eq_true, decide_eq_true_eq] at hm
    rcases hm with rfl | hm
    · exact h.place_pos hn
    · exact h.place_pos hm
  nowhere := h.nowhere

/-! ## Entries that come over -/

theorem receiveAll (h : Grounded F) (hr : F.knows r = true) (es : List (κ × Value τ)) :
    Grounded (es.foldl (receive r) F) ∧ (es.foldl (receive r) F).knows r = true := by
  induction es generalizing F with
  | nil => exact ⟨h, hr⟩
  | cons e es ih =>
      rw [List.foldl_cons]
      rcases entry_cases e with ⟨c, d, rfl⟩ | he
      · exact ih (h.settle hr c d) (by simp [receive_node, hr])
      · rw [receive_leaf r F he]
        exact ih (h.put hr e.1 e.2) hr

theorem release (h : Grounded F) (c : κ) (d : Node τ) : Grounded (F.release S c d) := by
  have hthin : Grounded (F.withStoreAt (F.place d) (S.remainder (F.storeOf d) c d.type)) := by
    refine h.withStoreAt fun ha k hk => ?_
    rw [Schema.get?_remainder, storeOf, ha, hk, ite_self]
  exact ((hthin.plant d).receiveAll (by simp) _).1

theorem evict (h : Grounded F) (n : Node τ) (c : κ) : Grounded (F.evict S n c) := by
  unfold Forest.evict
  split
  · exact h.release c _
  · exact h

end Grounded

/-- What is known stays known when a slot is emptied. -/
theorem knows_evict_of_knows (hr : F.knows r = true) (n : Node τ) (c : κ) : (F.evict S n c).knows r = true := by
  unfold evict
  split
  · rw [release, knows_receiveAll]
    exact Or.inr (by simp [hr])
  · exact hr

namespace Grounded

theorem graftSlots (h : Grounded F) (hr : F.knows r = true) (es : List (κ × Value τ)) :
    Grounded (es.foldl (graftSlot S r) F) ∧ (es.foldl (graftSlot S r) F).knows r = true := by
  induction es generalizing F with
  | nil => exact ⟨h, hr⟩
  | cons e es ih =>
      rw [List.foldl_cons]
      have hstep := (h.evict r e.1).receiveAll (knows_evict_of_knows (S := S) hr r e.1) [e]
      exact ih hstep.1 hstep.2

theorem graft (h : Grounded F) (hr : F.knows r = true) (c : κ) (d : Node τ) : Grounded (F.graft S r c d) := by
  have hslots := (h.settle hr c d).graftSlots (S := S) (r := r) (by simp [hr]) (F.slotsIn d)
  rw [graft_eq]
  exact (hslots.1.receiveAll hslots.2 _).1

/-! ## Growth and copies -/

theorem fill (h : Grounded F) (hr : F.knows (F.rootOf n) = true) (c : κ) (t : τ) : Grounded (F.fill n c t) := by
  unfold Forest.fill
  split
  · exact h
  · exact h.advance.settle hr c _

theorem create (h : Grounded F) (hF : Coherent S F) (t : τ) : Grounded (F.create S t).1 := by
  have hgoal : (Coherent S (F.create S t).1 ∧ (F.create S t).1.knows (F.bare t).2 = true) ∧
      Grounded (F.create S t).1 := by
    refine create_induction
      (P := fun G => (Coherent S G ∧ G.knows (F.bare t).2 = true) ∧ Grounded G)
      ⟨⟨hF.bare t, (isTop_bare F t).known⟩, h.plant _⟩ ?_
    rintro G c u hu ⟨⟨hG, hn⟩, hgrounded⟩
    exact ⟨⟨hG.fill hn hu, knows_fill hn⟩, hgrounded.fill (hG.isTop_rootOf hn).known c u⟩
  exact hgoal.2

theorem takeOver (h : Grounded F) (hF : Coherent S F) (hn : F.knows n = true) (e : κ × Value τ) :
    Grounded (takeOver n F e) := by
  rcases entry_cases e with ⟨c, d, rfl⟩ | hleaf
  · exact h.fill (hF.isTop_rootOf hn).known c d.type
  · rw [takeOver_leaf n F hleaf]
    exact h.put hn e.1 e.2

theorem overlay (h : Grounded F) (hF : Coherent S F) (hn : F.knows n = true) (source : Node τ) :
    Grounded (F.overlay S n source) := by
  have hgoal : (Coherent S (F.overlay S n source) ∧ (F.overlay S n source).knows n = true) ∧
      Grounded (F.overlay S n source) := by
    refine overlay_induction (P := fun G => (Coherent S G ∧ G.knows n = true) ∧ Grounded G) hF source
      ⟨⟨hF, hn⟩, h⟩ ?_
    rintro G e he ⟨⟨hG, hnG⟩, hgrounded⟩
    exact ⟨hG.takeOver hnG he, hgrounded.takeOver hG hnG e⟩
  exact hgoal.2

theorem overlayAll (h : Grounded F) (hF : Coherent S F) (hn : F.knows n = true) (sources : List (Node τ)) :
    Grounded (sources.foldl (fun F s => F.overlay S n s) F) := by
  induction sources generalizing F with
  | nil => exact h
  | cons s sources ih =>
      obtain ⟨hG, hnG⟩ := hF.overlay hn s
      exact ih (h.overlay hF hn s) hG hnG

/-! ## Operations -/

theorem set (h : Grounded F) (hF : Coherent S F) (hn : F.knows n = true) (c : κ) (v : Value τ) :
    Grounded (F.set S n c v).2 := by
  cases set_cases S F n c v with
  | frozen _ he => exact he ▸ h
  | refused _ _ he => exact he ▸ h
  | leaf _ _ _ he => exact he ▸ h.put hn c v
  | same _ _ _ _ _ he => exact he ▸ h
  | attached d _ _ _ _ _ he =>
      rw [he]
      exact (h.evict n c).graft (knows_evict_of_knows (hF.isTop_rootOf hn).known n c) c d

theorem draftStep (h : Grounded F) (hF : Coherent S F) (hn : F.knows n = true) (step : DraftStep S) :
    Grounded (F.draftStep S n step) := by
  rcases draftStep_cases S F n step with he | ⟨c, v, -, -, he⟩ | ⟨source, he⟩
  · rwa [he]
  · exact he ▸ h.put hn c v
  · exact he ▸ h.overlay hF hn source

/-- **Every operation leaves place 0 empty.** -/
theorem operation (h : Grounded F) (hF : Coherent S F) (o : Operation τ κ)
    (ho : ∀ n ∈ o.operands, F.knows n = true) : Grounded (o.run S F) := by
  cases o with
  | bare t => exact h.plant _
  | create t => exact h.create hF t
  | child n c => exact h
  | childOrNew n c =>
      have hn := ho n (List.mem_cons_self ..)
      show Grounded (F.childOrNew S n c).1
      rcases childOrNew_cases S F n c with he | ⟨t, -, he⟩ | ⟨t, -, -, he⟩
      · rwa [he]
      · exact he ▸ h.create hF t
      · exact he ▸ h.fill (hF.isTop_rootOf hn).known c t
  | set n c v => exact h.set hF (ho n (List.mem_cons_self ..)) c v
  | clear n c =>
      show Grounded (F.clear S n c).2
      rcases clear_cases S F n c with ⟨-, he⟩ | ⟨-, he⟩ | ⟨-, -, he⟩
      · exact he ▸ h
      · exact he ▸ h
      · exact he ▸ h.erase n c
  | detach n c =>
      show Grounded (F.detach S n c).2
      rcases detach_cases S F n c with ⟨-, he⟩ | ⟨-, he⟩ | ⟨-, -, he⟩ | ⟨d, -, -, he⟩
      · exact he ▸ h
      · exact he ▸ h
      · exact he ▸ h
      · exact he ▸ h.release c d
  | freeze n =>
      show Grounded (F.freeze S n).2
      rcases freeze_cases S F n with ⟨e, he⟩ | ⟨-, he⟩
      · exact he ▸ h
      · exact he ▸ h.markFrozen (ho n (List.mem_cons_self ..))
  | unfreezeCopy n =>
      show Grounded (F.unfreezeCopy S n).2
      rcases unfreezeCopy_cases S F n with ⟨e, he⟩ | ⟨-, he⟩
      · exact he ▸ h
      · obtain ⟨hcreate, hknown⟩ := hF.create n.type
        exact he ▸ (h.create hF n.type).overlay hcreate hknown n
  | applyAll n sources =>
      show Grounded (F.applyAll S n sources).2
      rcases applyAll_cases S F n sources with ⟨-, he⟩ | ⟨-, he⟩
      · exact he ▸ h
      · exact he ▸ h.overlayAll hF (ho n (List.mem_cons_self ..)) sources

end Grounded

end Forest

/-! ## Runs -/

namespace Session

open Forest

variable {S : Schema τ κ} {W W' : Session τ κ}

theorem Step.grounded (hs : Step S W W') (h : Orderly S W) (hW : Grounded W.forest) : Grounded W'.forest := by
  cases hs with
  | call o ho => exact hW.operation h.coherent o fun n hn => (ho n hn).1
  | begin t => exact hW.create h.coherent t
  | extend hn step _ => exact hW.draftStep h.coherent (h.draft _ hn).1.known step
  | finish _ => exact hW
  | finishFrozen hn => exact hW.markFrozen (h.draft _ hn).1.known

/-- **In every session that a client can reach place 0 is empty.** -/
theorem Reachable.grounded (h : Reachable S W) : Grounded W.forest := by
  induction h with
  | refl => exact Grounded.empty
  | tail hs hstep ih => exact hstep.grounded (Steps.orderly hs Orderly.empty) ih

end Session

end LayeredConfig
