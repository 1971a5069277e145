import LayeredConfig.Forest.Request
import LayeredConfig.Proofs.Transposing

/-!
# Operations on alike forests

One operation on two alike forests is granted or refused in both, with the same answer, and leaves them alike
(`Alike.answer_eq`, `Alike.operation`). Of the operations, only to set a node goes through a store entry by
entry while stores change: for this one, the slots of the node must stand in one order in both forests, or be
apart from each other (`Operation.OrderFree`). No draft depends on any order; and of the resolvers only those
do whose derived defaults do.
-/

namespace LayeredConfig

variable {τ κ : Type} [DecidableEq τ] [DecidableEq κ]

namespace Operation

variable (S : Schema τ κ)

/-- What an operation answers, be it a node or nothing, or why it is refused. -/
def answer (F : Forest τ κ) : Operation τ κ → Except (Failure τ κ) (Option (Node τ))
  | bare t => .ok (some (F.bare t).2)
  | create t => .ok (some (F.create S t).2)
  | child n c => .ok (F.child? n c)
  | childOrNew n c => .ok (F.childOrNew S n c).2
  | set n c v => (F.set S n c v).1.map fun _ => none
  | clear n c => (F.clear S n c).1.map fun _ => none
  | detach n c => (F.detach S n c).1
  | freeze n => (F.freeze S n).1.map fun _ => none
  | unfreezeCopy n => (F.unfreezeCopy S n).1.map some
  | applyAll n sources => (F.applyAll S n sources).1.map fun _ => none

/-- What some operations answer, one after the other, and the forest after them. -/
def transcript (F : Forest τ κ) :
    List (Operation τ κ) → List (Except (Failure τ κ) (Option (Node τ))) × Forest τ κ
  | [] => ([], F)
  | o :: os =>
    let (answers, G) := transcript (o.run S F) os
    (o.answer S F :: answers, G)

/-- A node that is set, and is not in the slot already, has its slots filled in one order in both forests, or
all of them are apart from each other in what it comes to. -/
def OrderFree (F G : Forest τ κ) : Operation τ κ → Prop
  | set n c (.node d) =>
    (F.set S n c (.node d)).1 = .ok () → F.child? n c ≠ some d →
      G.slotsIn d = F.slotsIn d ∨
        ((F.slotsIn d).map Prod.fst).Pairwise
          (S.Apart ((S.vacated (F.storeOf n) c).insert c (.node d)))
  | _ => True

/-- Some operations, one after the other, none of which depends on the order. -/
def OrderFreeAll (F G : Forest τ κ) : List (Operation τ κ) → Prop
  | [] => True
  | o :: os => o.OrderFree S F G ∧ OrderFreeAll (o.run S F) (o.run S G) os

variable {S}

theorem orderFree_of_leaf {F G : Forest τ κ} {n : Node τ} {c : κ} {v : Value τ} (hv : v.node? = none) :
    (set n c v).OrderFree S F G := by
  cases v with
  | node d => cases hv
  | _ => exact trivial

end Operation

namespace Forest

open Schema

variable {S : Schema τ κ} {F G : Forest τ κ} {n r d : Node τ} {c : κ} {t : τ}

namespace Alike

/-! ## Checks -/

section Checks

variable (h : Alike F G) (hnum : Function.Injective S.number)

include h hnum

theorem requireUnfrozen_eq (n : Node τ) : G.requireUnfrozen S n = F.requireUnfrozen S n := by
  rw [requireUnfrozen, requireUnfrozen, h.isFrozen_eq, h.label_eq hnum]

theorem requireRoot_eq (n : Node τ) : G.requireRoot S n = F.requireRoot S n := by
  simp only [requireRoot, h.owner, h.label_eq hnum]

theorem requireAttachable_eq (r d : Node τ) : G.requireAttachable S r d = F.requireAttachable S r d := by
  simp only [requireAttachable, h.label_eq hnum, h.requireRoot_eq hnum, h.requireUnfrozen_eq hnum]

/-! ## Answers -/

/-- Whether something is set, or why it is refused, is found out before the first change. -/
theorem set_fst_eq (n : Node τ) (c : κ) (v : Value τ) : (G.set S n c v).1 = (F.set S n c v).1 := by
  unfold Forest.set
  rw [h.requireUnfrozen_eq hnum]
  split
  · rfl
  · split
    · split
      · next d =>
        unfold attach
        rw [h.child?_eq, h.rootOf_eq, h.requireAttachable_eq hnum]
        split
        · rfl
        · split <;> rfl
      · rfl
    · rfl

end Checks

/-! ## Changes -/

section Changes

variable (h : Alike F G) (hF : Settled S F) (hG : Settled S G)

include h hF hG

theorem markFrozen (hn : F.IsTop n) : Alike (F.markFrozen n) (G.markFrozen n) := by
  have hnG := (h.tracks _).stands hn
  exact ((h.tracks _).markFrozen hn.known).alike ⟨hF.coherent.markFrozen hn, hF.grounded.markFrozen hn.known⟩
    ⟨hG.coherent.markFrozen hnG, hG.grounded.markFrozen hnG.known⟩

theorem erase (hn : F.knows n = true) (hc : S.slotType? c = none) :
    Alike (F.withStoreAt (F.place n) ((F.storeOf n).erase c))
      (G.withStoreAt (G.place n) ((G.storeOf n).erase c)) := by
  have hnG := (h.knows n).trans hn
  have htracks := (h.tracks _).erase hF.coherent hG.coherent (hF.coherent.isTop_rootOf hn) c
  have hread : ∀ {H : Forest τ κ}, Coherent S H → H.knows n = true →
      H.withStoreAt (H.place (H.rootOf n)) ((H.storeOf (H.rootOf n)).erase c) =
        H.withStoreAt (H.place n) ((H.storeOf n).erase c) := by
    intro H hH hk
    rw [storeOf, storeOf, ← hH.place_rootOf hk]
  rw [hread hF.coherent hn, ← h.rootOf_eq, hread hG.coherent hnG] at htracks
  exact htracks.alike ⟨hF.coherent.erase_leaf n hc, hF.grounded.erase n c⟩
    ⟨hG.coherent.erase_leaf n hc, hG.grounded.erase n c⟩

theorem release (hn : F.knows n = true) (hc : F.child? n c = some d) :
    Alike (F.release S c d) (G.release S c d) := by
  have hr := hF.coherent.isTop_rootOf hn
  rw [hF.coherent.child?_rootOf hn] at hc
  have htracks := (h.tracks _).release hF.coherent hG.coherent hr hc
  have hrG := (h.tracks _).stands hr
  exact htracks.alike ⟨Sound.release hF.coherent hr hc, hF.grounded.release c d⟩
    ⟨Sound.release hG.coherent hrG ((h.child?_eq _ c).trans hc), hG.grounded.release c d⟩

/-- To attach a node keeps forests alike, if its slots come over in one order or are apart from each other. -/
theorem attached (hn : F.knows n = true) (hd : F.knows d = true) (ht : S.slotType? c = some d.type)
    (ha : Attachable S F (F.rootOf n) d)
    (horder : G.slotsIn d = F.slotsIn d ∨
      ((F.slotsIn d).map Prod.fst).Pairwise (S.Apart ((S.vacated (F.storeOf n) c).insert c (.node d)))) :
    Alike ((F.evict S n c).graft S (F.rootOf n) c d) ((G.evict S n c).graft S (G.rootOf n) c d) := by
  have hnG := (h.knows n).trans hn
  have hr := hF.coherent.isTop_rootOf hn
  have htop : F.IsTop d := ⟨hd, fun hf => hf, ha.root⟩
  have hrG := (h.tracks fun _ => False).stands hr
  have htopG := (h.tracks fun _ => False).stands htop
  have hne : F.rootOf n ≠ d := fun e => ha.ne_root e.symm
  -- First the slot is emptied, ...
  have hevict : Alike (F.evict S (F.rootOf n) c) (G.evict S (F.rootOf n) c) :=
    ((h.tracks _).evict hF.coherent hG.coherent hr c).alike (hF.evict hr c) (hG.evict hrG c)
  have hrF' := Stands.evict hF.coherent hr c hr
  have hdF' := Stands.evict hF.coherent hr c htop
  have hrG' := Stands.evict hG.coherent hrG c hrG
  have hdG' := Stands.evict hG.coherent hrG c htopG
  have hempty := child?_evict hF.coherent hr c
  have hemptyG := child?_evict hG.coherent hrG c
  have hF' := hF.evict hr c
  have hG' := hG.evict hrG c
  -- ... and then the node comes over, with what it brings.
  have hgraft := hevict.graft hF'.coherent hG'.coherent hrF' hdF' hne hempty ht (by
    rw [slotsIn_evict hF.coherent hr htop ha.ne_root, slotsIn_evict hG.coherent hrG htopG ha.ne_root,
      storeOf_settle_evict hF.coherent hr hne, storeOf, ← hF.coherent.place_rootOf hn]
    exact horder)
  rw [h.rootOf_eq, hF.coherent.evict_rootOf hn, hG.coherent.evict_rootOf hnG, h.rootOf_eq]
  exact hgraft.alike ⟨hF'.coherent.graft hrF' hdF' hne hempty ht, hF'.grounded.graft hrF'.known c d⟩
    ⟨hG'.coherent.graft hrG' hdG' hne hemptyG ht, hG'.grounded.graft hrG'.known c d⟩

theorem childOrNew (hn : F.knows n = true) (c : κ) :
    (G.childOrNew S n c).2 = (F.childOrNew S n c).2 ∧ Alike (F.childOrNew S n c).1 (G.childOrNew S n c).1 := by
  unfold Forest.childOrNew
  rw [h.child?_eq, h.isFrozen_eq]
  split
  · exact ⟨rfl, h⟩
  · next u hu =>
    split
    · exact ⟨rfl, h⟩
    · split
      · obtain ⟨hnode, hcreate⟩ := h.create hF hG u
        exact ⟨congrArg some hnode, hcreate⟩
      · have hfill := h.fill hF hG hn hu
        exact ⟨hfill.child?_eq n c, hfill⟩

variable (hnum : Function.Injective S.number)

include hnum

theorem set (hn : F.knows n = true) {v : Value τ} (hv : ∀ d, v = .node d → F.knows d = true)
    (horder : (Operation.set n c v).OrderFree S F G) : Alike (F.set S n c v).2 (G.set S n c v).2 := by
  have hanswer := h.set_fst_eq hnum n c v
  cases set_cases S F n c v with
  | frozen _ he =>
      rw [he] at hanswer ⊢
      rw [eq_of_set_error hanswer]
      exact h
  | refused _ _ he =>
      rw [he] at hanswer ⊢
      rw [eq_of_set_error hanswer]
      exact h
  | leaf hf hc hv' he =>
      rw [he] at hanswer ⊢
      cases set_cases S G n c v with
      | frozen _ he' | refused _ _ he' => rw [he'] at hanswer; cases hanswer
      | leaf _ _ _ he' => exact he' ▸ h.put hF hG hn hc hv'
      | same d hd | attached d hd => subst hd; cases hv'
  | same d hd hf hc hchild he =>
      subst hd
      rw [he] at hanswer ⊢
      have hchild' := (h.child?_eq n c).trans hchild
      cases set_cases S G n c (.node d) with
      | frozen _ he' | refused _ _ he' => rw [he'] at hanswer; cases hanswer
      | leaf _ _ hv' => cases hv'
      | same _ _ _ _ _ he' => exact he' ▸ h
      | attached d' hd' _ _ hne => cases hd'; exact absurd hchild' hne
  | attached d hd hf hc hchild ha he =>
      subst hd
      have haG : Attachable S G (G.rootOf n) d :=
        ⟨ha.not_bag, (h.rootOf_eq n).symm ▸ ha.ne_root, (h.owner d).trans ha.root,
          (h.isFrozen_eq d).trans ha.unfrozen⟩
      have heG := set_of_attachable ((h.isFrozen_eq n).trans hf) hc (by rwa [h.child?_eq]) haG
      rw [he, heG]
      exact h.attached hF hG hn (hv d rfl) hc ha (horder (congrArg Prod.fst he) hchild)

theorem clear (hn : F.knows n = true) (c : κ) :
    (G.clear S n c).1 = (F.clear S n c).1 ∧ Alike (F.clear S n c).2 (G.clear S n c).2 := by
  unfold Forest.clear
  rw [h.requireUnfrozen_eq hnum]
  split
  · exact ⟨rfl, h⟩
  · split
    · exact ⟨rfl, h⟩
    · next hc => exact ⟨rfl, h.erase hF hG hn (Option.not_isSome_iff_eq_none.mp hc)⟩

theorem detach (hn : F.knows n = true) (c : κ) :
    (G.detach S n c).1 = (F.detach S n c).1 ∧ Alike (F.detach S n c).2 (G.detach S n c).2 := by
  unfold Forest.detach
  rw [h.requireUnfrozen_eq hnum, h.child?_eq]
  split
  · split
    · exact ⟨rfl, h⟩
    · split
      · exact ⟨rfl, h⟩
      · next d hd => exact ⟨rfl, h.release hF hG hn hd⟩
  · exact ⟨rfl, h⟩

theorem freeze (hn : F.knows n = true) :
    (G.freeze S n).1 = (F.freeze S n).1 ∧ Alike (F.freeze S n).2 (G.freeze S n).2 := by
  unfold Forest.freeze
  rw [h.requireRoot_eq hnum]
  rcases requireRoot_cases S F n with ⟨e, he⟩ | ⟨hroot, hok⟩
  · rw [he]
    exact ⟨rfl, h⟩
  · rw [hok]
    exact ⟨rfl, h.markFrozen hF hG ⟨hn, fun hf => hf, hroot⟩⟩

theorem unfreezeCopy (n : Node τ) :
    (G.unfreezeCopy S n).1 = (F.unfreezeCopy S n).1 ∧
      Alike (F.unfreezeCopy S n).2 (G.unfreezeCopy S n).2 := by
  unfold Forest.unfreezeCopy
  rw [h.requireRoot_eq hnum]
  split
  · exact ⟨rfl, h⟩
  · obtain ⟨hnode, hcreate⟩ := h.create hF hG n.type
    have hoverlay := hcreate.overlay (hF.create _) (hG.create _) hnum (hF.coherent.create _).2 n
    refine ⟨congrArg Except.ok hnode, ?_⟩
    show Alike ((F.create S n.type).1.overlay S (F.create S n.type).2 n)
      ((G.create S n.type).1.overlay S (G.create S n.type).2 n)
    rw [hnode]
    exact hoverlay

theorem applyAll (hn : F.knows n = true) (sources : List (Node τ)) :
    (G.applyAll S n sources).1 = (F.applyAll S n sources).1 ∧
      Alike (F.applyAll S n sources).2 (G.applyAll S n sources).2 := by
  unfold Forest.applyAll
  rw [h.requireUnfrozen_eq hnum]
  split
  · exact ⟨rfl, h⟩
  · exact ⟨rfl, h.overlayAll hF hG hnum hn sources⟩

/-! ## All operations -/

/-- **An operation answers the same on alike forests.** -/
theorem answer_eq (o : Operation τ κ) (ho : ∀ n ∈ o.operands, F.knows n = true) :
    o.answer S G = o.answer S F := by
  cases o with
  | bare t => exact congrArg (fun n => Except.ok (some n)) (h.bare hF hG t).1
  | create t => exact congrArg (fun n => Except.ok (some n)) (h.create hF hG t).1
  | child n c => exact congrArg Except.ok (h.child?_eq n c)
  | childOrNew n c =>
      exact congrArg Except.ok (h.childOrNew hF hG (ho n (List.mem_cons_self ..)) c).1
  | set n c v => exact congrArg (Except.map fun _ => none) (h.set_fst_eq hnum n c v)
  | clear n c =>
      exact congrArg (Except.map fun _ => none) (h.clear hF hG hnum (ho n (List.mem_cons_self ..)) c).1
  | detach n c => exact (h.detach hF hG hnum (ho n (List.mem_cons_self ..)) c).1
  | freeze n => exact congrArg (Except.map fun _ => none) (h.freeze hF hG hnum (ho n (List.mem_cons_self ..))).1
  | unfreezeCopy n => exact congrArg (Except.map some) (h.unfreezeCopy hF hG hnum n).1
  | applyAll n sources =>
      exact congrArg (Except.map fun _ => none)
        (h.applyAll hF hG hnum (ho n (List.mem_cons_self ..)) sources).1

/-- **An operation that does not depend on the order leaves alike forests alike.** -/
theorem operation (o : Operation τ κ) (ho : ∀ n ∈ o.operands, F.knows n = true) (hfree : o.OrderFree S F G) :
    Alike (o.run S F) (o.run S G) := by
  cases o with
  | bare t => exact (h.bare hF hG t).2
  | create t => exact (h.create hF hG t).2
  | child n c => exact h
  | childOrNew n c => exact (h.childOrNew hF hG (ho n (List.mem_cons_self ..)) c).2
  | set n c v =>
      refine h.set hF hG hnum (ho n (List.mem_cons_self ..)) (fun d hd => ho d ?_) hfree
      subst hd
      exact List.mem_cons_of_mem _ (List.mem_cons_self ..)
  | clear n c => exact (h.clear hF hG hnum (ho n (List.mem_cons_self ..)) c).2
  | detach n c => exact (h.detach hF hG hnum (ho n (List.mem_cons_self ..)) c).2
  | freeze n => exact (h.freeze hF hG hnum (ho n (List.mem_cons_self ..))).2
  | unfreezeCopy n => exact (h.unfreezeCopy hF hG hnum n).2
  | applyAll n sources => exact (h.applyAll hF hG hnum (ho n (List.mem_cons_self ..)) sources).2

/-- **So do some operations, one after the other, and they answer the same.** -/
theorem transcript {os : List (Operation τ κ)} (hos : Operation.Handed S F os)
    (hfree : Operation.OrderFreeAll S F G os) :
    (Operation.transcript S G os).1 = (Operation.transcript S F os).1 ∧
      Alike (Operation.transcript S F os).2 (Operation.transcript S G os).2 := by
  induction os generalizing F G with
  | nil => exact ⟨rfl, h⟩
  | cons o os ih =>
      obtain ⟨ho, hos⟩ := hos
      obtain ⟨hone, hrest⟩ := hfree
      have hoG : ∀ n ∈ o.operands, G.knows n = true := fun n hn => (h.knows n).trans (ho n hn)
      obtain ⟨hanswers, hends⟩ :=
        ih (h.operation hF hG hnum o ho hone) (hF.operation o ho) (hG.operation o hoG) hos hrest
      refine ⟨?_, hends⟩
      show o.answer S G :: _ = o.answer S F :: _
      rw [h.answer_eq hF hG hnum o ho, hanswers]

/-- A draft that is frozen when it is done. -/
theorem draftFrozen (t : τ) (steps : List (DraftStep S)) :
    (G.draftFrozen S t steps).2 = (F.draftFrozen S t steps).2 ∧
      Alike (F.draftFrozen S t steps).1 (G.draftFrozen S t steps).1 := by
  obtain ⟨hnode, hdraft⟩ := h.draft hF hG hnum t steps
  have hfrozen := hdraft.markFrozen (hF.draft t steps).1 (hG.draft t steps).1 (hF.draft t steps).2
  refine ⟨hnode, ?_⟩
  show Alike ((F.draft S t steps).1.markFrozen (F.draft S t steps).2)
    ((G.draft S t steps).1.markFrozen (G.draft S t steps).2)
  rw [hnode]
  exact hfrozen

end Changes

end Alike

end Forest

/-! ## Two slots that are filled one after the other -/

namespace Forest

variable {S : Schema τ κ} {F : Forest τ κ} {n r d d' m : Node τ} {c c' k : κ}

/-- The node `d`, which holds nothing, can be set into the slot `c` of the tree of `n`, which is empty. -/
structure Ready (S : Schema τ κ) (F : Forest τ κ) (n : Node τ) (c : κ) (d : Node τ) : Prop where
  unfrozen : F.isFrozen n = false
  slotType : S.slotType? c = some d.type
  vacant : F.child? n c = none
  known : F.knows d = true
  attachable : Attachable S F (F.rootOf n) d
  empty : (F.storeOf d).keys = []

namespace Ready

/-- A node that holds nothing brings nothing. -/
theorem set_eq (h : Ready S F n c d) : F.set S n c (.node d) = (.ok (), F.settle (F.rootOf n) c d) := by
  have hentries : (F.storeOf d).entries = [] := List.map_eq_nil_iff.mp h.empty
  have hslots : F.slotsIn d = [] := by rw [slotsIn, hentries]; rfl
  have hleaves : F.leavesIn d = [] := by rw [leavesIn, hentries]; rfl
  have hnone : F.child? n c ≠ some d := by
    rw [h.vacant]
    exact (Option.some_ne_none d).symm
  rw [set_of_attachable h.unfrozen h.slotType hnone h.attachable, evict_of_none h.vacant, graft_eq, hslots,
    hleaves]
  rfl

theorem rootOf_settle (h : Ready S F n c d) : (F.settle (F.rootOf n) c d).rootOf n = F.rootOf n := by
  have hne : n ≠ d := by
    rintro rfl
    apply h.attachable.ne_root
    rw [rootOf, h.attachable.root]
    rfl
  rw [rootOf, owner?_settle, if_neg hne]
  rfl

/-- What is ready for one slot stays so when another slot is filled. -/
theorem settle (h : Ready S F n c d) (h' : Ready S F n c' d') (hF : Coherent S F) (hn : F.knows n = true)
    (hc : c ≠ c') (hd : d ≠ d') : Ready S (F.settle (F.rootOf n) c d) n c' d' := by
  have hroot := hF.isTop_rootOf hn
  have hne : d' ≠ d := hd.symm
  constructor
  case unfrozen =>
    rw [isFrozen, h.rootOf_settle, cell_settle, if_neg h.attachable.ne_root.symm]
    exact h'.unfrozen
  case slotType => exact h'.slotType
  case vacant =>
    rw [child?_eq, explicit?_settle, if_pos (Or.inr (hF.place_rootOf hn)), if_neg hc.symm,
      ← hF.explicit?_rootOf hn]
    exact h'.vacant
  case known => rw [knows_settle, h'.known, Bool.or_true]
  case attachable =>
    have howner : (F.settle (F.rootOf n) c d).owner? d' = none := by
      rw [owner?_settle, if_neg hne]
      exact h'.attachable.root
    refine ⟨h'.attachable.not_bag, h.rootOf_settle.symm ▸ h'.attachable.ne_root, howner, ?_⟩
    have hself : (F.settle (F.rootOf n) c d).rootOf d' = d' := congrArg (Option.getD · d') howner
    have hfrozen := h'.attachable.unfrozen
    rw [isFrozen, rootOf, h'.attachable.root] at hfrozen
    rw [isFrozen, hself, cell_settle, if_neg hne]
    exact hfrozen
  case empty =>
    have htop : F.IsTop d' := ⟨h'.known, fun hf => hf, h'.attachable.root⟩
    have hp : F.place d' ≠ F.place (F.rootOf n) := fun e => h'.attachable.ne_root (hF.place_inj htop hroot e)
    rw [storeOf, place_settle, if_neg hne, storeAt_settle, if_neg hp]
    exact h'.empty

end Ready

/-- What is stored with nodes put into two slots. -/
theorem explicit?_settle_settle (F : Forest τ κ) (hr : r ≠ d) :
    ((F.settle r c d).settle r c' d').explicit? m k =
      if m = d ∨ m = d' ∨ F.place m = F.place r then
        if k = c' then some (.node d') else if k = c then some (.node d) else F.explicit? r k
      else F.explicit? m k := by
  rw [explicit?_settle, explicit?_settle, explicit?_settle, place_settle, place_settle, if_neg hr,
    if_pos (Or.inr rfl : r = d ∨ F.place r = F.place r)]
  by_cases hm : m = d
  · simp [hm]
  · simp only [hm, false_or, if_false]
    split
    · rfl
    · next hp => rw [if_neg (not_or.mp hp).2]

theorem Alike.settle_comm (F : Forest τ κ) (hc : c ≠ c') (hr : r ≠ d) (hr' : r ≠ d') :
    Alike ((F.settle r c d).settle r c' d') ((F.settle r c' d').settle r c d) where
  next := rfl
  knows := fun m => by simp only [knows_settle, Bool.or_left_comm]
  owner := by
    intro m
    simp only [owner?_settle]
    split <;> split <;> rfl
  frozen := by
    intro m
    simp only [cell_settle]
    split <;> split <;> rfl
  stored := by
    intro m k
    rw [explicit?_settle_settle F hr', explicit?_settle_settle F hr]
    by_cases hm : m = d ∨ m = d' ∨ F.place m = F.place r
    · rw [if_pos (or_left_comm.mp hm), if_pos hm]
      by_cases hk : k = c
      · rw [if_pos hk, if_neg (hk ▸ hc), if_pos hk]
      · rw [if_neg hk, if_neg hk]
    · rw [if_neg (fun h => hm (or_left_comm.mp h)), if_neg hm]

/-- **Two empty slots may be filled in either order.** -/
theorem Alike.set_comm (hF : Coherent S F) (hn : F.knows n = true) (h : Ready S F n c d)
    (h' : Ready S F n c' d') (hc : c ≠ c') (hd : d ≠ d') :
    Alike ((F.set S n c (.node d)).2.set S n c' (.node d')).2
      ((F.set S n c' (.node d')).2.set S n c (.node d)).2 := by
  rw [h.set_eq, h'.set_eq]
  dsimp only
  rw [(h.settle h' hF hn hc hd).set_eq, (h'.settle h hF hn hc.symm hd.symm).set_eq, h.rootOf_settle,
    h'.rootOf_settle]
  exact settle_comm F hc h.attachable.ne_root.symm h'.attachable.ne_root.symm

end Forest

/-! ## Resolvers -/

/-- A default that is the same for alike forests. -/
def Default.Blind : Default τ κ → Prop
  | .constant _ => True
  | .derived f => ∀ {F G : Forest τ κ}, F.Alike G → f G = f F

/-- A resolver all whose defaults are the same for alike forests. -/
def Resolver.Blind (r : Resolver τ κ) : Prop := ∀ c d, r.default? c = some d → d.Blind

namespace Resolver

variable {S : Schema τ κ} {F G : Forest τ κ} {r : Resolver τ κ}

theorem blind_table {t : ResolverTable τ κ} (h : ∀ e ∈ t.entries, e.2.Blind) : (table t).Blind := by
  intro c d hd
  rw [default?, ResolverTable.default?, List.lookup_eq_some_iff] at hd
  obtain ⟨before, after, hentries, -⟩ := hd
  have hmem : (c, d) ∈ t.entries.reverse := hentries ▸ List.mem_append_right _ (List.mem_cons_self ..)
  exact h (c, d) (List.mem_reverse.mp hmem)

theorem blind_chain {parts : List (Resolver τ κ)} (h : ∀ r ∈ parts, r.Blind) : (chain parts).Blind := by
  intro c d hd
  rw [default?] at hd
  induction parts with
  | nil => cases hd
  | cons r rs ih =>
      rw [firstDefault?] at hd
      split at hd
      · exact h r (List.mem_cons_self ..) c d hd
      · exact ih (fun r' hr' => h r' (List.mem_cons_of_mem _ hr')) hd

end Resolver

namespace Forest.Alike

variable {S : Schema τ κ} {F G : Forest τ κ} {r : Resolver τ κ}

variable (h : Alike F G) (hnum : Function.Injective S.number) (hr : r.Blind)

include h hnum

theorem getOr_eq (n : Node τ) (c : κ) (x : (S.format c).Content) : G.getOr S n c x = F.getOr S n c x := by
  simp only [getOr, h.has_eq, h.stored, (h.view n).resolve_eq hnum]

include hr

theorem resolve_eq (n : Node τ) (c : κ) : r.resolve S G n c = r.resolve S F n c := by
  have hdefault : (r.default? c).map (·.value G n) = (r.default? c).map (·.value F n) := by
    cases hd : r.default? c with
    | none => rfl
    | some d =>
        have hblind := hr c d hd
        cases d with
        | constant v => rfl
        | derived f => exact congrArg some (congrFun (hblind h) n)
  simp only [Resolver.resolve, h.has_eq, h.value?_eq hnum, hdefault]

theorem resolveOr_eq (n : Node τ) (c : κ) (v : Value τ) : r.resolveOr S G n c v = r.resolveOr S F n c v := by
  simp only [Resolver.resolveOr, h.has_eq, h.value?_eq hnum, h.resolve_eq hnum hr]

theorem resolveContent_eq (n : Node τ) (c : κ) : r.resolveContent S G n c = r.resolveContent S F n c := by
  rw [Resolver.resolveContent, Resolver.resolveContent, h.resolve_eq hnum hr]

end Forest.Alike

/-! ## What a client can find out -/

/-- Two forests between which a client finds no difference, whatever it asks or does, unless it sets a node
whose slots depend on the order. -/
structure Forest.Indistinct (S : Schema τ κ) (F G : Forest τ κ) : Prop where
  reads : ReadsAlike S F G
  resolve : ∀ {r : Resolver τ κ}, r.Blind → ∀ n c, r.resolve S G n c = r.resolve S F n c
  resolveOr : ∀ {r : Resolver τ κ}, r.Blind → ∀ n c v, r.resolveOr S G n c v = r.resolveOr S F n c v
  resolveContent : ∀ {r : Resolver τ κ}, r.Blind → ∀ n c, r.resolveContent S G n c = r.resolveContent S F n c
  getOr : ∀ n c x, G.getOr S n c x = F.getOr S n c x
  answer : ∀ o : Operation τ κ, (∀ n ∈ o.operands, F.knows n = true) → o.answer S G = o.answer S F
  call : ∀ o : Operation τ κ, (∀ n ∈ o.operands, F.knows n = true) → o.OrderFree S F G →
    Alike (o.run S F) (o.run S G)
  /-- Some operations, one after the other. -/
  run : ∀ os : List (Operation τ κ), Operation.Handed S F os → Operation.OrderFreeAll S F G os →
    (Operation.transcript S G os).1 = (Operation.transcript S F os).1 ∧
      Alike (Operation.transcript S F os).2 (Operation.transcript S G os).2
  draftStep : ∀ n (step : DraftStep S), F.knows n = true → Alike (F.draftStep S n step) (G.draftStep S n step)
  draft : ∀ t steps, (G.draft S t steps).2 = (F.draft S t steps).2 ∧
    Alike (F.draft S t steps).1 (G.draft S t steps).1
  draftFrozen : ∀ t steps, (G.draftFrozen S t steps).2 = (F.draftFrozen S t steps).2 ∧
    Alike (F.draftFrozen S t steps).1 (G.draftFrozen S t steps).1

/-- **Between alike forests there is no difference to find.** -/
theorem Forest.Alike.indistinct {S : Schema τ κ} {F G : Forest τ κ} (h : Alike F G) (hF : Settled S F)
    (hG : Settled S G) (hnum : Function.Injective S.number) : Indistinct S F G where
  reads := h.reads hnum
  resolve := fun hr n c => h.resolve_eq hnum hr n c
  resolveOr := fun hr n c v => h.resolveOr_eq hnum hr n c v
  resolveContent := fun hr n c => h.resolveContent_eq hnum hr n c
  getOr := h.getOr_eq hnum
  answer := h.answer_eq hF hG hnum
  call := h.operation hF hG hnum
  run := fun _ hos hfree => h.transcript hF hG hnum hos hfree
  draftStep := fun _ step hn => h.draftStep hF hG hnum hn step
  draft := h.draft hF hG hnum
  draftFrozen := h.draftFrozen hF hG hnum

end LayeredConfig
