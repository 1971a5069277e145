import LayeredConfig.Proofs.Reordering

/-!
# Changes to alike forests

What is done to one of two alike forests and to the other as well leaves them alike. In the middle of an
operation some nodes are loose, and the forests need agree on the trees that stand only (`Tracks`): each
elementary change keeps this, and so does the release of a node, since what goes along with a node is listed by
the closure of its type. Between operations no node is loose, every node stores what its root stores, and
forests that track each other are alike (`Tracks.alike`).
-/

namespace LayeredConfig

variable {τ κ : Type} [DecidableEq τ] [DecidableEq κ]

namespace Forest

variable {S : Schema τ κ} {loose : Node τ → Prop} {F G H : Forest τ κ} {n r d : Node τ} {c k : κ}

/-- The forests are alike as far as trees stand. -/
structure Tracks (loose : Node τ → Prop) (F G : Forest τ κ) : Prop where
  next : G.next = F.next
  knows : ∀ n, G.knows n = F.knows n
  owner : ∀ n, G.owner? n = F.owner? n
  frozen : ∀ n, (G.cell n).frozen = (F.cell n).frozen
  stored : ∀ {r}, F.Stands loose r → ∀ k, G.explicit? r k = F.explicit? r k

theorem Alike.tracks (h : Alike F G) (loose : Node τ → Prop) : Tracks loose F G :=
  ⟨h.next, h.knows, h.owner, h.frozen, fun {r} _ k => h.stored r k⟩

/-- A forest as it is between the operations of a client. -/
structure Settled (S : Schema τ κ) (F : Forest τ κ) : Prop where
  coherent : Coherent S F
  grounded : Grounded F

/-- When a node leaves a root, every other root stores what it stored. -/
theorem explicit?_release_of_ne (h : Sound S loose F) (hr : F.Stands loose r) (hc : F.child? r c = some d)
    {r' : Node τ} (hr' : F.Stands loose r') (hne : r' ≠ r) (k : κ) :
    (F.release S c d).explicit? r' k = F.explicit? r' k := by
  have hp : F.place r ≠ F.place r' := fun e => hne (h.place_inj hr hr' e).symm
  have hkeeps := Keeps.release h hr hc hp (h.place_lt hr'.known)
  exact explicit?_congr (by rw [hkeeps.place hr'.known rfl, hkeeps.store]) k

namespace Tracks

theorem stands (h : Tracks loose F G) (hr : F.Stands loose r) : G.Stands loose r :=
  ⟨(h.knows r).trans hr.known, hr.fixed, (h.owner r).trans hr.root⟩

theorem refl (loose : Node τ → Prop) (F : Forest τ κ) : Tracks loose F F :=
  ⟨rfl, fun _ => rfl, fun _ => rfl, fun _ => rfl, fun _ _ => rfl⟩

theorem trans (h : Tracks loose F G) (h' : Tracks loose G H) : Tracks loose F H where
  next := h'.next.trans h.next
  knows := fun n => (h'.knows n).trans (h.knows n)
  owner := fun n => (h'.owner n).trans (h.owner n)
  frozen := fun n => (h'.frozen n).trans (h.frozen n)
  stored := fun hr k => (h'.stored (h.stands hr) k).trans (h.stored hr k)

theorem of_loose_iff (h : Tracks loose F G) {loose' : Node τ → Prop} (hl : ∀ m, loose' m ↔ loose m) :
    Tracks loose' F G := by
  have e : loose' = loose := funext fun m => propext (hl m)
  exact e ▸ h

/-- The more nodes are loose, the fewer trees stand. -/
theorem mono (h : Tracks loose F G) {loose' : Node τ → Prop} (hl : ∀ m, loose m → loose' m) :
    Tracks loose' F G :=
  ⟨h.next, h.knows, h.owner, h.frozen, fun hr k => h.stored ⟨hr.known, fun hm => hr.fixed (hl _ hm), hr.root⟩ k⟩

theorem rootOf_eq (h : Tracks loose F G) (n : Node τ) : G.rootOf n = F.rootOf n := by
  rw [rootOf, rootOf, h.owner]

theorem child?_eq (h : Tracks loose F G) (hr : F.Stands loose r) (c : κ) : G.child? r c = F.child? r c := by
  rw [Forest.child?_eq, Forest.child?_eq, h.stored hr]

/-- Between operations, forests that track each other are alike. -/
theorem alike (h : Tracks (fun _ => False) F G) (hF : Settled S F) (hG : Settled S G) : Alike F G where
  next := h.next
  knows := h.knows
  owner := h.owner
  frozen := h.frozen
  stored := by
    intro n k
    cases hn : F.knows n with
    | false =>
        rw [hF.grounded.explicit?_of_unknown hn, hG.grounded.explicit?_of_unknown ((h.knows n).trans hn)]
    | true =>
        rw [hF.coherent.explicit?_rootOf hn, hG.coherent.explicit?_rootOf ((h.knows n).trans hn), h.rootOf_eq,
          h.stored (hF.coherent.isTop_rootOf hn)]

/-! ## Elementary changes -/

theorem advance (h : Tracks loose F G) : Tracks loose F.advance G.advance where
  next := congrArg (· + 1) h.next
  knows := h.knows
  owner := h.owner
  frozen := h.frozen
  stored := fun hr k => h.stored ⟨hr.known, hr.fixed, hr.root⟩ k

/-- The store of a root is changed in the same way. -/
theorem withStoreAt (h : Tracks loose F G) (hF : Sound S loose F) (hG : Sound S loose G)
    (hr : F.Stands loose r) {s t : Store κ (Value τ)} (hst : ∀ k, t.get? k = s.get? k) :
    Tracks loose (F.withStoreAt (F.place r) s) (G.withStoreAt (G.place r) t) where
  next := h.next
  knows := h.knows
  owner := h.owner
  frozen := h.frozen
  stored := by
    intro r' hr' k
    have hr' : F.Stands loose r' := ⟨hr'.known, hr'.fixed, hr'.root⟩
    rw [explicit?_eq, explicit?_eq, place_withStoreAt, place_withStoreAt, storeAt_withStoreAt,
      storeAt_withStoreAt]
    by_cases hp : F.place r' = F.place r
    · obtain rfl := hF.place_inj hr' hr hp
      rw [if_pos rfl, if_pos rfl, hst]
    · have hp' : G.place r' ≠ G.place r := by
        intro e
        rw [hG.place_inj (h.stands hr') (h.stands hr) e] at hp
        exact hp rfl
      rw [if_neg hp, if_neg hp']
      exact h.stored hr' k

theorem put (h : Tracks loose F G) (hF : Sound S loose F) (hG : Sound S loose G) (hr : F.Stands loose r)
    (c : κ) (v : Value τ) : Tracks loose (F.put r c v) (G.put r c v) := by
  refine h.withStoreAt hF hG hr fun k => ?_
  rw [Store.get?_insert, Store.get?_insert]
  split
  · rfl
  · exact h.stored hr k

theorem erase (h : Tracks loose F G) (hF : Sound S loose F) (hG : Sound S loose G) (hr : F.Stands loose r)
    (c : κ) : Tracks loose (F.withStoreAt (F.place r) ((F.storeOf r).erase c))
      (G.withStoreAt (G.place r) ((G.storeOf r).erase c)) := by
  refine h.withStoreAt hF hG hr fun k => ?_
  rw [Store.get?_erase, Store.get?_erase]
  split
  · rfl
  · exact h.stored hr k

theorem plant (h : Tracks loose F G) (hF : Sound S loose F) (hG : Sound S loose G) (n : Node τ) :
    Tracks (fun m => loose m ∧ m ≠ n) (F.plant n) (G.plant n) where
  next := congrArg (· + 1) h.next
  knows := fun m => by rw [knows_plant, knows_plant, h.knows]
  owner := fun m => by rw [owner?_plant, owner?_plant, h.owner]
  frozen := by
    intro m
    rw [cell_plant, cell_plant]
    split
    · rfl
    · exact h.frozen m
  stored := by
    intro r hr k
    by_cases hrn : r = n
    · rw [hrn, explicit?_plant_self, explicit?_plant_self]
    · have hstands : F.Stands loose r := by
        have hknown := hr.known
        have hroot := hr.root
        rw [knows_plant, Bool.or_eq_true, decide_eq_true_eq] at hknown
        rw [owner?_plant, if_neg hrn] at hroot
        exact ⟨hknown.resolve_left hrn, fun hl => hr.fixed ⟨hl, hrn⟩, hroot⟩
      rw [explicit?_plant_of_ne G n r k hrn (hG.place_lt (h.stands hstands).known),
        explicit?_plant_of_ne F n r k hrn (hF.place_lt hstands.known), h.stored hstands]

theorem settle (h : Tracks loose F G) (hF : Sound S loose F) (hG : Sound S loose G) (hr : F.Stands loose r)
    (c : κ) (d : Node τ) : Tracks (fun m => loose m ∧ m ≠ d) (F.settle r c d) (G.settle r c d) where
  next := h.next
  knows := fun m => by rw [knows_settle, knows_settle, h.knows]
  owner := fun m => by rw [owner?_settle, owner?_settle, h.owner]
  frozen := by
    intro m
    rw [cell_settle, cell_settle]
    split
    · rfl
    · exact h.frozen m
  stored := by
    intro r' hr' k
    have hroot := hr'.root
    rw [owner?_settle] at hroot
    split at hroot
    · cases hroot
    · next hne =>
      have hknown := hr'.known
      rw [knows_settle, Bool.or_eq_true, decide_eq_true_eq] at hknown
      have hstands : F.Stands loose r' :=
        ⟨hknown.resolve_left hne, fun hl => hr'.fixed ⟨hl, hne⟩, hroot⟩
      rw [explicit?_settle, explicit?_settle]
      by_cases hrr : r' = r
      · rw [if_pos (Or.inr (congrArg _ hrr)), if_pos (Or.inr (congrArg _ hrr)), h.stored hr]
      · have hp : ¬ (r' = d ∨ F.place r' = F.place r) :=
          not_or.mpr ⟨hne, fun e => hrr (hF.place_inj hstands hr e)⟩
        have hp' : ¬ (r' = d ∨ G.place r' = G.place r) :=
          not_or.mpr ⟨hne, fun e => hrr (hG.place_inj (h.stands hstands) (h.stands hr) e)⟩
        rw [if_neg hp, if_neg hp', h.stored hstands]

theorem markFrozen (h : Tracks loose F G) (hn : F.knows n = true) :
    Tracks loose (F.markFrozen n) (G.markFrozen n) where
  next := h.next
  knows := fun m => by simp only [Forest.markFrozen, knows_withCell, h.knows]
  owner := fun m => by rw [owner?_markFrozen, owner?_markFrozen, h.owner]
  frozen := by
    intro m
    rw [Forest.markFrozen, Forest.markFrozen, cell_withCell, cell_withCell]
    split
    · rfl
    · exact h.frozen m
  stored := by
    intro r hr k
    have hroot := hr.root
    rw [owner?_markFrozen] at hroot
    have hknown := hr.known
    rw [Forest.markFrozen, knows_withCell, Bool.or_eq_true, decide_eq_true_eq] at hknown
    have hstands : F.Stands loose r := ⟨hknown.elim (fun e => e ▸ hn) id, hr.fixed, hroot⟩
    have hread : ∀ F : Forest τ κ, (F.markFrozen n).explicit? r k = F.explicit? r k := fun F =>
      explicit?_congr (by rw [place_markFrozen]; rfl) k
    rw [hread, hread, h.stored hstands]

/-! ## A node leaves its slot -/

section Release

variable (h : Tracks loose F G) (hF : Sound S loose F) (hG : Sound S loose G) (hr : F.Stands loose r)

include h hF hG hr

/-- The same goes along with a node, in the same order. -/
theorem takenBy_eq (hc : F.child? r c = some d) : takenBy S G c d = takenBy S F c d := by
  have hstore : (G.storeOf d).get? = (F.storeOf d).get? := by
    have hc' := (h.child?_eq hr c).trans hc
    funext k
    rw [storeOf, storeOf, place_child hF hr hc, place_child hG (h.stands hr) hc']
    exact h.stored hr k
  have herase : ∀ k, ((G.storeOf d).erase c).get? k = ((F.storeOf d).erase c).get? k := fun k => by
    rw [Store.get?_erase, Store.get?_erase, hstore]
  simp only [takenBy, Schema.taken, Schema.belongings, herase]

/-- A node leaves its slot in both forests. -/
theorem release (hc : F.child? r c = some d) : Tracks loose (F.release S c d) (G.release S c d) := by
  have hrG := h.stands hr
  have hcG := (h.child?_eq hr c).trans hc
  have htaken := h.takenBy_eq hF hG hr hc
  constructor
  case next => rw [next_release hF hr hc, next_release hG hrG hcG, h.next]
  case knows => exact fun m => by rw [knows_release hF hr hc, knows_release hG hrG hcG, h.knows]
  case owner => exact fun m => by rw [owner?_release hF hr hc, owner?_release hG hrG hcG, htaken, h.owner]
  case frozen =>
    intro m
    rw [cell_release hF hr hc, cell_release hG hrG hcG, htaken]
    split
    · rfl
    · split
      · rfl
      · exact h.frozen m
  case stored =>
    intro r' hr' k
    have hroot := hr'.root
    rw [owner?_release hF hr hc] at hroot
    split at hroot
    · cases hroot
    · split at hroot
      · next hrd =>
        rw [hrd, explicit?_release_self hF hr hc, explicit?_release_self hG hrG hcG, h.stored hr]
      · have hstands : F.Stands loose r' :=
          ⟨(knows_release hF hr hc r').symm.trans hr'.known, hr'.fixed, hroot⟩
        by_cases hrr : r' = r
        · rw [hrr, explicit?_release_root hF hr hc, explicit?_release_root hG hrG hcG, h.stored hr]
        · -- Another tree is at another place.
          rw [explicit?_release_of_ne hF hr hc hstands hrr,
            explicit?_release_of_ne hG hrG hcG (h.stands hstands) hrr, h.stored hstands]

theorem evict (c : κ) : Tracks loose (F.evict S r c) (G.evict S r c) := by
  have hchild := h.child?_eq hr c
  cases hc : F.child? r c with
  | none => rwa [evict_of_none hc, evict_of_none (hchild.trans hc)]
  | some d =>
      rw [evict_of_some hc, evict_of_some (hchild.trans hc)]
      exact h.release hF hG hr hc

end Release

end Tracks

/-! ## Growth and copies -/

namespace Settled

variable {t : τ}

theorem bare (h : Settled S F) (t : τ) : Settled S (F.bare t).1 := ⟨h.coherent.bare t, h.grounded.plant _⟩

theorem put (h : Settled S F) (hn : F.knows n = true) {v : Value τ} (hc : S.slotType? c = none)
    (hv : v.node? = none) : Settled S (F.put n c v) := ⟨h.coherent.put_leaf n hc hv, h.grounded.put hn c v⟩

theorem fill (h : Settled S F) (hn : F.knows n = true) (ht : S.slotType? c = some t) :
    Settled S (F.fill n c t) :=
  ⟨h.coherent.fill hn ht, h.grounded.fill (h.coherent.isTop_rootOf hn).known c t⟩

theorem create (h : Settled S F) (t : τ) : Settled S (F.create S t).1 :=
  ⟨(h.coherent.create t).1, h.grounded.create h.coherent t⟩

theorem takeOver (h : Settled S F) (hn : F.knows n = true) {e : κ × Value τ}
    (he : e.2.node?.map Node.type = S.slotType? e.1) : Settled S (takeOver n F e) :=
  ⟨(h.coherent.takeOver hn he).1, h.grounded.takeOver h.coherent hn e⟩

theorem overlay (h : Settled S F) (hn : F.knows n = true) (source : Node τ) :
    Settled S (F.overlay S n source) :=
  ⟨(h.coherent.overlay hn source).1, h.grounded.overlay h.coherent hn source⟩

theorem draftStep (h : Settled S F) (hn : F.knows n = true) (step : DraftStep S) :
    Settled S (F.draftStep S n step) :=
  ⟨h.coherent.draftStep hn step, h.grounded.draftStep h.coherent hn step⟩

theorem evict (h : Settled S F) (hr : F.IsTop r) (c : κ) : Settled S (F.evict S r c) :=
  ⟨h.coherent.evict hr c, h.grounded.evict r c⟩

theorem operation (h : Settled S F) (o : Operation τ κ) (ho : ∀ n ∈ o.operands, F.knows n = true) :
    Settled S (o.run S F) := ⟨o.coherent h.coherent ho, h.grounded.operation h.coherent o ho⟩

theorem draftSteps (h : Settled S F) (hn : F.knows n = true) (steps : List (DraftStep S)) :
    Settled S (steps.foldl (Forest.draftStep S n) F) ∧ Grows F (steps.foldl (Forest.draftStep S n) F) := by
  induction steps generalizing F with
  | nil => exact ⟨h, Grows.refl F⟩
  | cons step steps ih =>
      have hgrows := Grows.draftStep h.coherent hn step
      obtain ⟨hrest, hgrows'⟩ := ih (h.draftStep hn step) (hgrows n hn).1
      exact ⟨hrest, hgrows.trans hgrows'⟩

theorem unfreezeCopy (h : Settled S F) (n : Node τ) : Settled S (F.unfreezeCopy S n).2 := by
  rcases unfreezeCopy_cases S F n with ⟨e, he⟩ | ⟨-, he⟩
  · exact he ▸ h
  · exact he ▸ (h.create n.type).overlay (h.coherent.create n.type).2 n

/-- A draft makes a root. -/
theorem draft (h : Settled S F) (t : τ) (steps : List (DraftStep S)) :
    Settled S (F.draft S t steps).1 ∧ (F.draft S t steps).1.IsTop (F.draft S t steps).2 := by
  have hnew := (h.coherent.create t).2
  obtain ⟨hsteps, hgrows⟩ := (h.create t).draftSteps hnew steps
  obtain ⟨hknown, hcell⟩ := hgrows _ hnew
  refine ⟨hsteps, hknown, fun hf => hf, ?_⟩
  show ((F.draft S t steps).1.cell (F.create S t).2).owner? = none
  rw [(Grows.create h.coherent t).2] at hcell
  exact congrArg Cell.owner? hcell

end Settled

namespace Alike

variable {t : τ}

/-- A node stores into the store of its root. -/
theorem put_rootOf (hF : Coherent S F) (hn : F.knows n = true) (c : κ) (v : Value τ) :
    F.put n c v = F.put (F.rootOf n) c v := by
  rw [Forest.put, Forest.put, storeOf, storeOf, hF.place_rootOf hn]

variable (h : Alike F G) (hF : Settled S F) (hG : Settled S G)

include h hF hG

theorem put (hn : F.knows n = true) {v : Value τ} (hc : S.slotType? c = none) (hv : v.node? = none) :
    Alike (F.put n c v) (G.put n c v) := by
  have hnG := (h.knows n).trans hn
  have htracks := (h.tracks _).put hF.coherent hG.coherent (hF.coherent.isTop_rootOf hn) c v
  rw [← h.rootOf_eq, ← put_rootOf hG.coherent hnG, h.rootOf_eq, ← put_rootOf hF.coherent hn] at htracks
  exact htracks.alike (hF.put hn hc hv) (hG.put hnG hc hv)

theorem bare (t : τ) : (G.bare t).2 = (F.bare t).2 ∧ Alike (F.bare t).1 (G.bare t).1 := by
  have hnode : (G.bare t).2 = (F.bare t).2 := by
    show (⟨G.next, t⟩ : Node τ) = ⟨F.next, t⟩
    rw [h.next]
  have htracks : Tracks (fun _ => False) (F.plant ⟨F.next, t⟩) (G.plant ⟨F.next, t⟩) :=
    ((h.tracks _).plant hF.coherent hG.coherent ⟨F.next, t⟩).of_loose_iff fun m => by simp
  have hplant : (G.bare t).1 = G.plant ⟨F.next, t⟩ := congrArg G.plant hnode
  rw [← hplant] at htracks
  exact ⟨hnode, htracks.alike (hF.bare t) (hG.bare t)⟩

theorem fill (hn : F.knows n = true) (ht : S.slotType? c = some t) : Alike (F.fill n c t) (G.fill n c t) := by
  have hnG := (h.knows n).trans hn
  refine Tracks.alike (S := S) ?_ (hF.fill hn ht) (hG.fill hnG ht)
  rw [Forest.fill, Forest.fill, h.has_eq]
  split
  · exact h.tracks _
  · have hstands := hF.coherent.isTop_rootOf hn
    have hsettle := (h.tracks fun _ => False).advance.settle hF.coherent.advance hG.coherent.advance
      ⟨hstands.known, hstands.fixed, hstands.root⟩ c ⟨F.next, t⟩
    rw [h.rootOf_eq, h.next]
    exact hsettle.of_loose_iff fun m => by simp

theorem fillAll (hn : F.knows n = true) {es : List (κ × τ)} (hes : ∀ e ∈ es, S.slotType? e.1 = some e.2) :
    Alike (es.foldl (fun F e => F.fill n e.1 e.2) F) (es.foldl (fun F e => F.fill n e.1 e.2) G) := by
  induction es generalizing F G with
  | nil => exact h
  | cons e es ih =>
      have hslot := hes e (List.mem_cons_self ..)
      have hnG := (h.knows n).trans hn
      exact ih (h.fill hF hG hn hslot) (hF.fill hn hslot) (hG.fill hnG hslot) (knows_fill hn)
        fun e' he' => hes e' (List.mem_cons_of_mem _ he')

theorem create (t : τ) : (G.create S t).2 = (F.create S t).2 ∧ Alike (F.create S t).1 (G.create S t).1 := by
  obtain ⟨hnode, hbare⟩ := h.bare hF hG t
  refine ⟨hnode, ?_⟩
  have hslots : ∀ e ∈ S.slotsOf t, S.slotType? e.1 = some e.2 := fun _ he => slotType?_of_mem_slotsOf he
  have hfill := hbare.fillAll (hF.bare t) (hG.bare t) (isTop_bare F t).known hslots
  show Alike ((S.slotsOf t).foldl (fun F e => F.fill _ e.1 e.2) (F.bare t).1)
    ((S.slotsOf t).foldl (fun F e => F.fill (G.bare t).2 e.1 e.2) (G.bare t).1)
  rw [hnode]
  exact hfill

theorem takeOver (hn : F.knows n = true) {e : κ × Value τ} (he : e.2.node?.map Node.type = S.slotType? e.1) :
    Alike (takeOver n F e) (takeOver n G e) := by
  rcases entry_cases e with ⟨c, d, rfl⟩ | hleaf
  · exact h.fill hF hG hn he.symm
  · rw [takeOver_leaf n F hleaf, takeOver_leaf n G hleaf]
    rw [hleaf] at he
    exact h.put hF hG hn he.symm hleaf

theorem takeOverAll (hn : F.knows n = true) {es : List (κ × Value τ)}
    (hes : ∀ e ∈ es, e.2.node?.map Node.type = S.slotType? e.1) :
    Alike (es.foldl (Forest.takeOver n) F) (es.foldl (Forest.takeOver n) G) := by
  induction es generalizing F G with
  | nil => exact h
  | cons e es ih =>
      have hty := hes e (List.mem_cons_self ..)
      have hnG := (h.knows n).trans hn
      have hnext := (hF.coherent.takeOver hn hty).2
      exact ih (h.takeOver hF hG hn hty) (hF.takeOver hn hty) (hG.takeOver hnG hty) hnext
        fun e' he' => hes e' (List.mem_cons_of_mem _ he')

variable (hnum : Function.Injective S.number)

include hnum

theorem overlay (hn : F.knows n = true) (source : Node τ) :
    Alike (F.overlay S n source) (G.overlay S n source) := by
  unfold Forest.overlay
  split
  · exact h
  · rw [(h.view source).contribution_eq hnum]
    exact h.takeOverAll hF hG hn fun e he => hF.coherent.typed (get?_of_mem_contribution he)

theorem overlayAll (hn : F.knows n = true) (sources : List (Node τ)) :
    Alike (sources.foldl (fun F s => F.overlay S n s) F) (sources.foldl (fun F s => F.overlay S n s) G) := by
  induction sources generalizing F G with
  | nil => exact h
  | cons s sources ih =>
      have hnG := (h.knows n).trans hn
      exact ih (h.overlay hF hG hnum hn s) (hF.overlay hn s) (hG.overlay hnG s) (hF.coherent.overlay hn s).2

/-! ## Drafts -/

theorem draftStep (hn : F.knows n = true) (step : DraftStep S) :
    Alike (F.draftStep S n step) (G.draftStep S n step) := by
  cases step with
  | id s => exact h.put hF hG hn S.slotType?_id rfl
  | value c x =>
      show Alike (if S.isSlot c then F else _) (if S.isSlot c then G else _)
      split
      · exact h
      · next hc =>
        have hc := Option.not_isSome_iff_eq_none.mp hc
        exact h.put hF hG hn hc (Schema.node?_write hc x)
  | raw c v =>
      show Alike (if S.isSlot c || !S.accepts c v then F else _) (if S.isSlot c || !S.accepts c v then G else _)
      split
      · exact h
      · next hc =>
        rw [Bool.or_eq_true, not_or, Bool.not_eq_true', Bool.not_eq_false] at hc
        have hslot := Option.not_isSome_iff_eq_none.mp hc.1
        have hv := Schema.node?_of_accepts hc.2
        rw [hslot, Option.map_eq_none_iff] at hv
        exact h.put hF hG hn hslot hv
  | merge source => exact h.overlay hF hG hnum hn source

theorem draftSteps (hn : F.knows n = true) (steps : List (DraftStep S)) :
    Alike (steps.foldl (Forest.draftStep S n) F) (steps.foldl (Forest.draftStep S n) G) := by
  induction steps generalizing F G with
  | nil => exact h
  | cons step steps ih =>
      have hnG := (h.knows n).trans hn
      exact ih (h.draftStep hF hG hnum hn step) (hF.draftStep hn step) (hG.draftStep hnG step)
        (Grows.draftStep hF.coherent hn step n hn).1

theorem draft (t : τ) (steps : List (DraftStep S)) :
    (G.draft S t steps).2 = (F.draft S t steps).2 ∧ Alike (F.draft S t steps).1 (G.draft S t steps).1 := by
  obtain ⟨hnode, hcreate⟩ := h.create hF hG t
  refine ⟨hnode, ?_⟩
  have hsteps := hcreate.draftSteps (hF.create t) (hG.create t) hnum (hF.coherent.create t).2 steps
  show Alike (steps.foldl (Forest.draftStep S (F.create S t).2) (F.create S t).1)
    (steps.foldl (Forest.draftStep S (G.create S t).2) (G.create S t).1)
  rw [hnode]
  exact hsteps

end Alike

end Forest

end LayeredConfig
