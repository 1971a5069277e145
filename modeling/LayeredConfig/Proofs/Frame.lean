import LayeredConfig.Proofs.Sound.Operations

/-!
# What an operation leaves alone

Every tree has a place of its own, so an operation on one tree leaves what stands at the other places as it
is: the store there and the cells of the nodes that use it. `Keeps a F G` says so of the place `a`. It is
proved of the elementary changes, and from them of every operation; the condition is always the same, that
nothing that the operation changes uses the place `a`.
-/

namespace LayeredConfig

namespace Forest

variable {τ κ : Type} [DecidableEq τ]

/-- The forest `G` has at the place `a` what `F` has there. -/
structure Keeps (a : Nat) (F G : Forest τ κ) : Prop where
  store : G.storeAt a = F.storeAt a
  cell : ∀ {m}, F.knows m = true → F.place m = a → G.cell m = F.cell m
  /-- No node moves to the place. -/
  apart : ∀ {m}, F.knows m = true → F.place m ≠ a → G.place m ≠ a
  known : ∀ {m}, F.knows m = true → G.knows m = true
  next_le : F.next ≤ G.next

variable {S : Schema τ κ} {loose : Node τ → Prop} {F G H : Forest τ κ} {a : Nat} {n r d : Node τ}

namespace Keeps

theorem refl (a : Nat) (F : Forest τ κ) : Keeps a F F :=
  ⟨rfl, fun _ _ => rfl, fun _ hp => hp, fun hm => hm, Nat.le_refl _⟩

theorem place (h : Keeps a F G) {m : Node τ} (hm : F.knows m = true) (hp : F.place m = a) :
    G.place m = a := by
  rw [Forest.place, h.cell hm hp]
  exact hp

theorem trans (h : Keeps a F G) (h' : Keeps a G H) : Keeps a F H where
  store := h'.store.trans h.store
  cell := fun hm hp => (h'.cell (h.known hm) (h.place hm hp)).trans (h.cell hm hp)
  apart := fun hm hp => h'.apart (h.known hm) (h.apart hm hp)
  known := fun hm => h'.known (h.known hm)
  next_le := Nat.le_trans h.next_le h'.next_le

/-- The place of a kept root is where it was. -/
theorem trans_at (hr : F.knows r = true) (h : Keeps (F.place r) F G) (h' : Keeps (G.place r) G H) :
    Keeps (F.place r) F H := by
  rw [h.place hr rfl] at h'
  exact h.trans h'

/-! ## Elementary changes -/

theorem withStoreAt {b : Nat} (hb : a ≠ b) (s : Store κ (Value τ)) : Keeps a F (F.withStoreAt b s) where
  store := by rw [storeAt_withStoreAt, if_neg hb]
  cell := fun _ _ => rfl
  apart := fun _ hp => hp
  known := fun hm => hm
  next_le := Nat.le_refl _

theorem advance (a : Nat) (F : Forest τ κ) : Keeps a F F.advance :=
  ⟨rfl, fun _ _ => rfl, fun _ hp => hp, fun hm => hm, Nat.le_succ _⟩

theorem plant (ha : a < F.next) (hn : F.knows n = true → F.place n ≠ a) : Keeps a F (F.plant n) where
  store := by rw [storeAt_plant, if_neg (Nat.ne_of_lt ha)]
  cell := by
    intro m hm hp
    rw [cell_plant, if_neg]
    rintro rfl
    exact hn hm hp
  apart := by
    intro m hm hp
    rw [place_plant]
    split
    · exact (Nat.ne_of_lt ha).symm
    · exact hp
  known := by
    intro m hm
    simp [hm]
  next_le := Nat.le_succ _

theorem markFrozen (hn : F.place n ≠ a) : Keeps a F (F.markFrozen n) where
  store := rfl
  cell := by
    intro m hm hp
    rw [Forest.markFrozen, cell_withCell, if_neg]
    rintro rfl
    exact hn hp
  apart := by
    intro m hm hp
    rwa [place_markFrozen]
  known := by
    intro m hm
    simp [Forest.markFrozen, hm]
  next_le := Nat.le_refl _

theorem place_bare (ha : a < F.next) (t : τ) : (F.bare t).1.place (F.bare t).2 ≠ a := by
  rw [Forest.bare, place_plant, if_pos rfl]
  exact (Nat.ne_of_lt ha).symm

variable [DecidableEq κ]

theorem put (hn : F.place n ≠ a) (c : κ) (v : Value τ) : Keeps a F (F.put n c v) :=
  withStoreAt (Ne.symm hn) _

theorem settle (hr : F.place r ≠ a) (hd : F.knows d = true → F.place d ≠ a) (c : κ) :
    Keeps a F (F.settle r c d) where
  store := by rw [storeAt_settle, if_neg (Ne.symm hr)]
  cell := by
    intro m hm hp
    rw [cell_settle, if_neg]
    rintro rfl
    exact hd hm hp
  apart := by
    intro m hm hp
    rw [place_settle]
    split
    · exact hr
    · exact hp
  known := by
    intro m hm
    simp [hm]
  next_le := Nat.le_refl _

/-! ## Growth and copies -/

theorem fill (h : Coherent S F) (hn : F.knows n = true) (hp : F.place n ≠ a) (c : κ) (t : τ) :
    Keeps a F (F.fill n c t) := by
  unfold Forest.fill
  split
  · exact refl a F
  · refine (advance a F).trans (settle ?_ (fun hk => ?_) c)
    · rw [h.place_rootOf hn] at hp
      exact hp
    · rw [knows_advance, h.fresh t] at hk
      cases hk

theorem bare (h : Coherent S F) (ha : a < F.next) (t : τ) : Keeps a F (F.bare t).1 := by
  refine plant ha fun hk => ?_
  rw [h.fresh t] at hk
  cases hk

theorem create (h : Coherent S F) (ha : a < F.next) (t : τ) :
    Keeps a F (F.create S t).1 ∧ (F.create S t).1.place (F.create S t).2 ≠ a := by
  have hgoal : (Coherent S (F.create S t).1 ∧ (F.create S t).1.knows (F.bare t).2 = true) ∧
      Keeps a F (F.create S t).1 ∧ (F.create S t).1.place (F.bare t).2 ≠ a := by
    refine create_induction
      (P := fun G => (Coherent S G ∧ G.knows (F.bare t).2 = true) ∧ Keeps a F G ∧ G.place (F.bare t).2 ≠ a)
      ⟨⟨h.bare t, (isTop_bare F t).known⟩, bare h ha t, place_bare ha t⟩ ?_
    rintro G c u hu ⟨⟨hG, hn⟩, hkeeps, hp⟩
    have hfill := fill hG hn hp c u
    exact ⟨⟨hG.fill hn hu, knows_fill hn⟩, hkeeps.trans hfill, hfill.apart hn hp⟩
  exact hgoal.2

theorem takeOver (h : Coherent S F) (hn : F.knows n = true) (hp : F.place n ≠ a) (e : κ × Value τ) :
    Keeps a F (takeOver n F e) := by
  rcases entry_cases e with ⟨c, d, rfl⟩ | hleaf
  · exact fill h hn hp c d.type
  · rw [takeOver_leaf n F hleaf]
    exact put hp e.1 e.2

theorem overlay (h : Coherent S F) (hn : F.knows n = true) (hp : F.place n ≠ a) (source : Node τ) :
    Keeps a F (F.overlay S n source) := by
  have hgoal : (Coherent S (F.overlay S n source) ∧ (F.overlay S n source).knows n = true) ∧
      Keeps a F (F.overlay S n source) := by
    refine overlay_induction (P := fun G => (Coherent S G ∧ G.knows n = true) ∧ Keeps a F G) h source
      ⟨⟨h, hn⟩, refl a F⟩ ?_
    rintro G e he ⟨⟨hG, hnG⟩, hkeeps⟩
    exact ⟨hG.takeOver hnG he, hkeeps.trans (takeOver hG hnG (hkeeps.apart hn hp) e)⟩
  exact hgoal.2

theorem overlayAll (h : Coherent S F) (hn : F.knows n = true) (hp : F.place n ≠ a)
    (sources : List (Node τ)) : Keeps a F (sources.foldl (fun F s => F.overlay S n s) F) := by
  induction sources generalizing F with
  | nil => exact refl a F
  | cons s sources ih =>
      have hstep := overlay h hn hp s
      obtain ⟨h', hn'⟩ := h.overlay hn s
      exact hstep.trans (ih h' hn' (hstep.apart hn hp))

/-! ## Releasing and grafting -/

theorem release (h : Sound S loose F) (hr : F.Stands loose r) {c : κ} (hc : F.child? r c = some d)
    (hp : F.place r ≠ a) (ha : a < F.next) : Keeps a F (F.release S c d) where
  store := by rw [storeAt_release h hr hc, if_neg (Nat.ne_of_lt ha), if_neg (Ne.symm hp)]
  cell := by
    intro m hm hpm
    have hd : m ≠ d := by
      rintro rfl
      exact hp ((place_child h hr hc).symm.trans hpm)
    have hmem : m ∉ nodesIn (takenBy S F c d) := by
      intro hmem
      obtain ⟨k, -, -, hk⟩ := (mem_nodesIn_takenBy h hr hc).mp hmem
      exact hp ((place_child h hr hk).symm.trans hpm)
    rw [cell_release h hr hc, if_neg hmem, if_neg hd]
  apart := by
    intro m hm hpm
    rw [place_release h hr hc]
    split
    · exact (Nat.ne_of_lt ha).symm
    · exact hpm
  known := fun {m} hm => (knows_release h hr hc m).trans hm
  next_le := by
    rw [next_release h hr hc]
    exact Nat.le_succ _

theorem evict (h : Sound S loose F) (hr : F.Stands loose r) (hp : F.place r ≠ a) (ha : a < F.next)
    (c : κ) : Keeps a F (F.evict S r c) := by
  cases hc : F.child? r c with
  | none =>
      rw [evict_of_none hc]
      exact refl a F
  | some d =>
      rw [evict_of_some hc]
      exact release h hr hc hp ha

theorem graftSlots {es : List (κ × Value τ)} (h : Grafting S r es F) (hp : F.place r ≠ a)
    (ha : a < F.next) (hes : ∀ m ∈ nodesIn es, F.place m ≠ a) :
    Keeps a F (es.foldl (graftSlot S r) F) := by
  induction es generalizing F with
  | nil => exact refl a F
  | cons e es ih =>
      obtain ⟨k, v⟩ := e
      obtain ⟨m, hv, -⟩ := h.slot _ (List.mem_cons_self ..)
      obtain rfl : v = .node m := hv
      have hm : m ∈ nodesIn ((k, Value.node m) :: es) := List.mem_cons_self ..
      -- Both the slot that is emptied and the node that comes in are at other places.
      have hevict := evict h.sound h.stands hp ha k
      have hstep : Keeps a F (graftSlot S r F (k, .node m)) :=
        hevict.trans (settle (hevict.apart h.stands.known hp)
          (fun _ => hevict.apart (h.known m hm) (hes m hm)) k)
      refine hstep.trans (ih h.step (hstep.apart h.stands.known hp)
        (Nat.lt_of_lt_of_le ha hstep.next_le) fun x hx => ?_)
      have hx' : x ∈ nodesIn ((k, Value.node m) :: es) := List.mem_cons_of_mem _ hx
      exact hstep.apart (h.known x hx') (hes x hx')

theorem receiveLeaves (hp : F.place r ≠ a) {es : List (κ × Value τ)} (hes : ∀ e ∈ es, e.2.node? = none) :
    Keeps a F (es.foldl (receive r) F) := by
  induction es generalizing F with
  | nil => exact refl a F
  | cons e es ih =>
      rw [List.foldl_cons, receive_leaf r F (hes e (List.mem_cons_self ..))]
      exact (put hp e.1 e.2).trans (ih hp fun e' he' => hes e' (List.mem_cons_of_mem _ he'))

theorem graft (h : Coherent S F) (hr : F.IsTop r) (hd : F.IsTop d) (hrd : r ≠ d) {c : κ}
    (hc : F.child? r c = none) (ht : S.slotType? c = some d.type) (hp : F.place r ≠ a)
    (hpd : F.place d ≠ a) (ha : a < F.next) : Keeps a F (F.graft S r c d) := by
  have hstart := Grafting.start h hr hd hrd hc ht
  have hsettle : Keeps a F (F.settle r c d) := settle hp (fun _ => hpd) c
  have hslots : Keeps a (F.settle r c d) ((F.slotsIn d).foldl (graftSlot S r) (F.settle r c d)) := by
    refine graftSlots hstart (hsettle.apart hr.known hp) ha fun m hm => ?_
    obtain ⟨k, hk⟩ := mem_nodesIn.mp hm
    obtain ⟨m', he, hm'⟩ := mem_slotsIn.mp hk
    cases he
    refine hsettle.apart (h.slot hd hm').1 ?_
    rwa [place_child h hd hm']
  have hleaves := receiveLeaves (r := r) ((hsettle.trans hslots).apart hr.known hp)
    fun e he => (leaves_typed h d e he).1
  rw [graft_eq]
  exact (hsettle.trans hslots).trans hleaves

end Keeps

/-! ## Growth

What only grows leaves every cell as it is, also in the tree that grows. -/

/-- The forest `G` has the nodes of `F`, with the cells that they have in `F`. -/
def Grows (F G : Forest τ κ) : Prop := ∀ m, F.knows m = true → G.knows m = true ∧ G.cell m = F.cell m

namespace Grows

theorem refl (F : Forest τ κ) : Grows F F := fun _ hm => ⟨hm, rfl⟩

theorem trans (h : Grows F G) (h' : Grows G H) : Grows F H := by
  intro m hm
  obtain ⟨hk, hc⟩ := h m hm
  obtain ⟨hk', hc'⟩ := h' m hk
  exact ⟨hk', hc'.trans hc⟩

theorem place_eq (h : Grows F G) {m : Node τ} (hm : F.knows m = true) : G.place m = F.place m :=
  congrArg Cell.place (h m hm).2

/-- What is apart stays apart. -/
theorem apart (h : Grows F G) (hn : F.knows n = true) {m : Node τ}
    (hm : F.knows m = true ∧ F.place m ≠ F.place n) : G.knows m = true ∧ G.place m ≠ G.place n := by
  rw [h.place_eq hm.1, h.place_eq hn]
  exact ⟨(h m hm.1).1, hm.2⟩

variable [DecidableEq κ]

theorem fill (h : Coherent S F) (c : κ) (t : τ) : Grows F (F.fill n c t) := by
  unfold Forest.fill
  split
  · exact refl F
  · intro m hm
    have hne : m ≠ ⟨F.next, t⟩ := by
      rintro rfl
      rw [h.fresh t] at hm
      cases hm
    refine ⟨?_, ?_⟩
    · simp [hm]
    · rw [cell_settle, if_neg hne, cell_advance]

theorem bare (h : Coherent S F) (t : τ) : Grows F (F.bare t).1 := by
  intro m hm
  have hne : m ≠ ⟨F.next, t⟩ := by
    rintro rfl
    rw [h.fresh t] at hm
    cases hm
  refine ⟨?_, ?_⟩
  · simp [Forest.bare, hm]
  · rw [Forest.bare, cell_plant, if_neg hne]

/-- A new tree has a new root, which is not frozen. -/
theorem create (h : Coherent S F) (t : τ) :
    Grows F (F.create S t).1 ∧ (F.create S t).1.cell (F.create S t).2 = ⟨none, F.next, false⟩ := by
  have hroot := (isTop_bare F t).known
  have hgoal : (Coherent S (F.create S t).1 ∧ (F.create S t).1.knows (F.bare t).2 = true) ∧
      Grows (F.bare t).1 (F.create S t).1 := by
    refine create_induction
      (P := fun G => (Coherent S G ∧ G.knows (F.bare t).2 = true) ∧ Grows (F.bare t).1 G)
      ⟨⟨h.bare t, hroot⟩, refl _⟩ ?_
    rintro G c u hu ⟨⟨hG, hn⟩, hgrows⟩
    exact ⟨⟨hG.fill hn hu, knows_fill hn⟩, hgrows.trans (fill hG c u)⟩
  refine ⟨(bare h t).trans hgoal.2, ?_⟩
  refine (hgoal.2 _ hroot).2.trans ?_
  rw [Forest.bare, cell_plant, if_pos rfl]

theorem takeOver (h : Coherent S F) (e : κ × Value τ) : Grows F (takeOver n F e) := by
  rcases entry_cases e with ⟨c, d, rfl⟩ | hleaf
  · exact fill h c d.type
  · rw [takeOver_leaf n F hleaf]
    exact fun m hm => ⟨hm, rfl⟩

theorem overlay (h : Coherent S F) (hn : F.knows n = true) (source : Node τ) :
    Grows F (F.overlay S n source) := by
  have hgoal : (Coherent S (F.overlay S n source) ∧ (F.overlay S n source).knows n = true) ∧
      Grows F (F.overlay S n source) := by
    refine overlay_induction (P := fun G => (Coherent S G ∧ G.knows n = true) ∧ Grows F G) h source
      ⟨⟨h, hn⟩, refl F⟩ ?_
    rintro G e he ⟨⟨hG, hnG⟩, hgrows⟩
    exact ⟨hG.takeOver hnG he, hgrows.trans (takeOver hG e)⟩
  exact hgoal.2

theorem childOrNew (h : Coherent S F) (n : Node τ) (c : κ) : Grows F (F.childOrNew S n c).1 := by
  rcases childOrNew_cases S F n c with he | ⟨t, -, he⟩ | ⟨t, -, -, he⟩
  · rw [he]
    exact refl F
  · exact he ▸ (create h t).1
  · exact he ▸ fill h c t

theorem unfreezeCopy (h : Coherent S F) (n : Node τ) : Grows F (F.unfreezeCopy S n).2 := by
  rcases unfreezeCopy_cases S F n with ⟨e, he⟩ | ⟨-, he⟩
  · exact he ▸ refl F
  · obtain ⟨hcreate, hknown⟩ := h.create n.type
    exact he ▸ (create h n.type).1.trans (overlay hcreate hknown n)

theorem draftStep (h : Coherent S F) (hn : F.knows n = true) (step : DraftStep S) :
    Grows F (F.draftStep S n step) := by
  rcases draftStep_cases S F n step with he | ⟨c, v, -, -, he⟩ | ⟨source, he⟩
  · rw [he]
    exact refl F
  · exact he ▸ fun m hm => ⟨hm, rfl⟩
  · exact he ▸ overlay h hn source

end Grows

/-! ## The tree of a root -/

theorem IsTop.isFrozen_eq (hr : F.IsTop r) : F.isFrozen r = (F.cell r).frozen := by
  rw [isFrozen, hr.rootOf_eq]

/-- A root is what its cell makes it. -/
theorem IsTop.of_cell (hr : F.IsTop r) (hk : G.knows r = true) (hc : G.cell r = F.cell r) :
    G.IsTop r ∧ G.isFrozen r = F.isFrozen r := by
  have htop : G.IsTop r := ⟨hk, fun hf => hf, by rw [owner?, hc]; exact hr.root⟩
  exact ⟨htop, by rw [htop.isFrozen_eq, hr.isFrozen_eq, hc]⟩

theorem Keeps.isTop (h : Keeps (F.place r) F G) (hr : F.IsTop r) :
    G.IsTop r ∧ G.isFrozen r = F.isFrozen r :=
  hr.of_cell (h.known hr.known) (h.cell hr.known rfl)

/-- All nodes of a tree are frozen or none is. -/
theorem isFrozen_congr {m : Node τ} (hm : F.rootOf m = F.rootOf n) : F.isFrozen m = F.isFrozen n := by
  rw [isFrozen, isFrozen, hm]

theorem IsTop.markFrozen (hr : F.IsTop r) (n : Node τ) : (F.markFrozen n).IsTop r := by
  refine ⟨?_, fun hf => hf, (owner?_markFrozen F n r).trans hr.root⟩
  rw [Forest.markFrozen, knows_withCell, hr.known, Bool.or_true]

theorem IsTop.isFrozen_markFrozen (hn : F.IsTop n) : (F.markFrozen n).isFrozen n = true := by
  rw [(hn.markFrozen n).isFrozen_eq, Forest.markFrozen, cell_withCell, if_pos rfl]

/-- To freeze a root twice changes nothing. -/
theorem markFrozen_of_isFrozen (hn : F.IsTop n) (hf : F.isFrozen n = true) : F.markFrozen n = F := by
  rw [isFrozen, hn.rootOf_eq] at hf
  have hk := hn.known
  rw [knows, Store.contains, Option.isSome_iff_exists] at hk
  obtain ⟨c, hc⟩ := hk
  have hcell : F.cell n = c := by rw [cell, hc]; rfl
  have hself : { F.cell n with frozen := true } = c := by rw [← hf, hcell]
  rw [markFrozen, withCell, hself, Store.insert_of_get? hc]

variable [DecidableEq κ]

/-- The node that is found in a slot, or put there, is in the forest. -/
theorem knows_of_childOrNew (h : Coherent S F) (hn : F.knows n = true) (hd : (F.childOrNew S n c).2 = some d) :
    (F.childOrNew S n c).1.knows d = true := by
  have hslot : ∀ {G : Forest τ κ}, Coherent S G → G.knows n = true → G.child? n c = some d →
      G.knows d = true := by
    intro G hG hnG hc
    rw [hG.child?_rootOf hnG] at hc
    exact (hG.slot (hG.isTop_rootOf hnG) hc).1
  unfold childOrNew at hd ⊢
  cases hc : S.slotType? c with
  | none =>
      rw [hc] at hd
      cases hd
  | some u =>
      rw [hc] at hd
      simp only at hd ⊢
      cases hm : F.child? n c with
      | some m =>
          rw [hm] at hd
          exact hslot h hn (hm.trans hd)
      | none =>
          rw [hm] at hd
          simp only at hd ⊢
          cases hf : F.isFrozen n with
          | true =>
              rw [hf, if_pos rfl] at hd
              obtain rfl := Option.some.inj hd
              exact (h.create u).2
          | false =>
              rw [hf, if_neg Bool.false_ne_true] at hd
              exact hslot (h.fill hn hc) (knows_fill hn) hd

/-- So is the node itself, where none is answered. -/
theorem knows_found_or_root (h : Coherent S F) (hn : F.knows n = true) (c : κ) :
    (F.childOrNew S n c).1.knows ((F.childOrNew S n c).2.getD n) = true := by
  cases hd : (F.childOrNew S n c).2 with
  | none => exact (Grows.childOrNew h n c n hn).1
  | some d => exact knows_of_childOrNew h hn hd

theorem knows_of_unfreezeCopy {d : Node τ} (h : Coherent S F) (hcopy : F.unfreezeCopy S n = (.ok d, G)) :
    G.knows d = true := by
  obtain ⟨rfl, rfl⟩ := eq_of_unfreezeCopy_ok hcopy
  obtain ⟨hcreate, hknown⟩ := h.create n.type
  exact (hcreate.overlay hknown n).2

/-! ## Kept trees -/

/-- What is kept of a tree: what its root stores, and which nodes are attached to it. -/
theorem Keeps.tree (h : Keeps (F.place r) F G) (hF : Coherent S F) (hr : F.IsTop r) :
    G.storeOf r = F.storeOf r ∧ ∀ n, F.owner? n = some r → G.owner? n = some r := by
  constructor
  · rw [storeOf, h.place hr.known rfl, h.store]
    rfl
  · intro n hn
    have hk := knows_of_owner? hn
    rw [owner?, h.cell hk (hF.mem_place hk (fun hf => hf) hn)]
    exact hn

/-- An operation on the node `n` spares the tree of the root `r`: `r` is frozen, or `n` is not in its tree. -/
def Spares (F : Forest τ κ) (r n : Node τ) : Prop := F.isFrozen r = true ∨ F.rootOf n ≠ r

theorem Sound.place_ne (h : Coherent S F) (hr : F.IsTop r) (hn : F.knows n = true)
    (hne : F.rootOf n ≠ r) : F.place n ≠ F.place r := by
  intro hp
  rw [h.place_rootOf hn] at hp
  exact hne (h.place_inj (h.isTop_rootOf hn) hr hp)

/-- What is changed is not frozen. -/
theorem Spares.place_ne (hs : Spares F r n) (h : Coherent S F) (hr : F.IsTop r) (hn : F.knows n = true)
    (hf : F.isFrozen n = false) : F.place n ≠ F.place r := by
  refine h.place_ne hr hn fun hroot => ?_
  rcases hs with hfr | hne
  · rw [isFrozen_congr (hroot.trans hr.rootOf_eq.symm), hfr] at hf
    cases hf
  · exact hne hroot

namespace Keeps

section Operations

variable (h : Coherent S F) (hr : F.IsTop r) (hn : F.knows n = true) (hs : Spares F r n)

include h hr hn hs

theorem set (c : κ) {v : Value τ} (hv : ∀ d, v = .node d → F.knows d = true ∧ Spares F r d) :
    Keeps (F.place r) F (F.set S n c v).2 := by
  have ha := h.place_lt hr.known
  cases set_cases S F n c v with
  | frozen _ he => exact he ▸ refl _ F
  | refused _ _ he => exact he ▸ refl _ F
  | leaf hf _ _ he => exact he ▸ put (hs.place_ne h hr hn hf) c v
  | same _ _ _ _ _ he => exact he ▸ refl _ F
  | attached d hd hf hc _ hatt he =>
      have hroot := h.isTop_rootOf hn
      obtain ⟨hdk, hds⟩ := hv d hd
      have hp : F.place (F.rootOf n) ≠ F.place r := h.place_rootOf hn ▸ hs.place_ne h hr hn hf
      have hpd := hds.place_ne h hr hdk hatt.unfrozen
      have hevict := evict h hroot hp ha c
      rw [he, h.evict_rootOf hn]
      refine hevict.trans (graft (h.evict hroot c) (Stands.evict h hroot c hroot)
        (Stands.evict h hroot c ⟨hdk, fun hf => hf, hatt.root⟩) (fun e => hatt.ne_root e.symm)
        (child?_evict h hroot c) hc (hevict.apart hroot.known hp) (hevict.apart hdk hpd) ?_)
      exact Nat.lt_of_lt_of_le ha hevict.next_le

theorem clear (c : κ) : Keeps (F.place r) F (F.clear S n c).2 := by
  rcases clear_cases S F n c with ⟨-, he⟩ | ⟨-, he⟩ | ⟨hf, -, he⟩
  · exact he ▸ refl _ F
  · exact he ▸ refl _ F
  · exact he ▸ withStoreAt (Ne.symm (hs.place_ne h hr hn hf)) _

theorem detach (c : κ) : Keeps (F.place r) F (F.detach S n c).2 := by
  rcases detach_cases S F n c with ⟨-, he⟩ | ⟨-, he⟩ | ⟨-, -, he⟩ | ⟨d, hf, hd, he⟩
  · exact he ▸ refl _ F
  · exact he ▸ refl _ F
  · exact he ▸ refl _ F
  · have hp := hs.place_ne h hr hn hf
    rw [h.place_rootOf hn] at hp
    rw [h.child?_rootOf hn] at hd
    exact he ▸ release h (h.isTop_rootOf hn) hd hp (h.place_lt hr.known)

theorem applyAll (sources : List (Node τ)) : Keeps (F.place r) F (F.applyAll S n sources).2 := by
  rcases applyAll_cases S F n sources with ⟨-, he⟩ | ⟨hf, he⟩
  · exact he ▸ refl _ F
  · exact he ▸ overlayAll h hn (hs.place_ne h hr hn hf) sources

theorem childOrNew (c : κ) : Keeps (F.place r) F (F.childOrNew S n c).1 := by
  rcases childOrNew_cases S F n c with he | ⟨t, -, he⟩ | ⟨t, -, hf, he⟩
  · rw [he]
    exact refl _ F
  · exact he ▸ (create h (h.place_lt hr.known) t).1
  · exact he ▸ fill h hn (hs.place_ne h hr hn hf) c t

theorem draftStep (hf : F.isFrozen n = false) (step : DraftStep S) :
    Keeps (F.place r) F (F.draftStep S n step) := by
  have hp := hs.place_ne h hr hn hf
  rcases draftStep_cases S F n step with he | ⟨c, v, -, -, he⟩ | ⟨source, he⟩
  · rw [he]
    exact refl _ F
  · exact he ▸ put hp c v
  · exact he ▸ overlay h hn hp source

theorem freeze : Keeps (F.place r) F (F.freeze S n).2 := by
  rcases freeze_cases S F n with ⟨e, he⟩ | ⟨ho, he⟩
  · exact he ▸ refl _ F
  · have htop : F.IsTop n := ⟨hn, fun hf => hf, ho⟩
    by_cases hnr : n = r
    · -- The root is frozen already, for otherwise it were not spared.
      have hfr : F.isFrozen n = true := by
        rcases hs with hfr | hne
        · exact hnr ▸ hfr
        · exact absurd (htop.rootOf_eq.trans hnr) hne
      rw [he, markFrozen_of_isFrozen htop hfr]
      exact refl _ F
    · refine he ▸ markFrozen fun hp => hnr ?_
      exact h.place_inj htop hr hp

end Operations

theorem unfreezeCopy (h : Coherent S F) (ha : a < F.next) (n : Node τ) :
    Keeps a F (F.unfreezeCopy S n).2 := by
  rcases unfreezeCopy_cases S F n with ⟨e, he⟩ | ⟨-, he⟩
  · exact he ▸ refl a F
  · obtain ⟨hcreate, hknown⟩ := h.create n.type
    obtain ⟨hkeeps, hp⟩ := create (S := S) h ha n.type
    exact he ▸ hkeeps.trans (overlay hcreate hknown hp n)

end Keeps

end Forest

end LayeredConfig
