import LayeredConfig.Proofs.Outcomes
import LayeredConfig.Proofs.Sound.Grafting

/-!
# Every operation keeps coherence

Growth first: `fill` settles a new node in an empty slot, and all that makes or copies nodes is a fold of
`fill` and of puts under leaves. Then the operations of attaching and detaching, by their cases.
-/

namespace LayeredConfig

namespace Forest

variable {τ κ : Type} [DecidableEq τ] [DecidableEq κ]

variable {S : Schema τ κ} {F : Forest τ κ} {n d : Node τ} {c : κ} {t : τ}

/-! ## The root of a node -/

theorem Sound.isTop_rootOf (h : Coherent S F) (hn : F.knows n = true) : F.IsTop (F.rootOf n) :=
  (h.stands_rootOf hn fun hf => hf).1

theorem Sound.place_rootOf (h : Coherent S F) (hn : F.knows n = true) :
    F.place n = F.place (F.rootOf n) := (h.stands_rootOf hn fun hf => hf).2

theorem Sound.explicit?_rootOf (h : Coherent S F) (hn : F.knows n = true) (c : κ) :
    F.explicit? n c = F.explicit? (F.rootOf n) c := explicit?_congr (by rw [h.place_rootOf hn]) c

theorem Sound.child?_rootOf (h : Coherent S F) (hn : F.knows n = true) (c : κ) :
    F.child? n c = F.child? (F.rootOf n) c := by
  rw [child?_eq, child?_eq, h.explicit?_rootOf hn]

theorem Sound.evict_rootOf (h : Coherent S F) (hn : F.knows n = true) (c : κ) :
    F.evict S n c = F.evict S (F.rootOf n) c := by
  rw [Forest.evict, Forest.evict, h.child?_rootOf hn]

omit [DecidableEq κ] in
theorem IsTop.rootOf_eq (hn : F.IsTop n) : F.rootOf n = n := by
  rw [rootOf, hn.root]
  rfl

/-! ## New nodes -/

theorem has_eq_false_iff : F.has n c = false ↔ F.explicit? n c = none := by
  rw [has, Store.contains, Option.isSome_eq_false_iff, Option.isNone_iff_eq_none]
  rfl

/-- No node has the next serial number. -/
theorem Sound.fresh (h : Coherent S F) (t : τ) : F.knows ⟨F.next, t⟩ = false := by
  rw [Bool.eq_false_iff]
  exact fun hk => Nat.lt_irrefl _ (h.serial_lt hk)

theorem Sound.bare (h : Coherent S F) (t : τ) : Coherent S (F.bare t).1 := by
  refine (h.plant (n := ⟨F.next, t⟩) (fun hk => ?_) (Nat.le_refl _)).of_loose_iff fun m => by simp
  rw [h.fresh t] at hk
  cases hk

omit [DecidableEq κ] in
theorem isTop_bare (F : Forest τ κ) (t : τ) : (F.bare t).1.IsTop (F.bare t).2 :=
  ⟨by simp [Forest.bare], fun hf => hf, by simp [Forest.bare]⟩

theorem knows_fill (hn : F.knows n = true) : (F.fill d c t).knows n = true := by
  unfold fill
  split
  · exact hn
  · simp [hn]

/-- **To fill a slot keeps coherence.** -/
theorem Sound.fill (h : Coherent S F) (hn : F.knows n = true) (ht : S.slotType? c = some t) :
    Coherent S (F.fill n c t) := by
  unfold Forest.fill
  cases hc : F.has n c with
  | true => exact h
  | false =>
      have hstands := h.isTop_rootOf hn
      -- The slot is looked up in the tree of `n`, and the node is settled in its root.
      have hempty : F.advance.child? (F.rootOf n) c = none := by
        have he := has_eq_false_iff.mp hc
        rw [h.explicit?_rootOf hn] at he
        show (F.explicit? (F.rootOf n) c).bind Value.node? = none
        rw [he]
        rfl
      refine (h.advance.settle ⟨hstands.known, hstands.fixed, hstands.root⟩ (fun hk => ?_)
        (Nat.lt_succ_self _) hempty ht).of_loose_iff fun m => by simp
      rw [knows_advance, h.fresh t] at hk
      cases hk

omit [DecidableEq τ] in
theorem slotType?_of_mem_slotsOf {e : κ × τ} (he : e ∈ S.slotsOf t) : S.slotType? e.1 = some e.2 := by
  rw [Schema.slotsOf, List.mem_filterMap] at he
  obtain ⟨c, -, hc⟩ := he
  obtain ⟨u, hu, rfl⟩ := Option.map_eq_some_iff.mp hc
  exact hu

/-- What holds of a bare new node and is kept whenever a slot is filled holds of a new tree. -/
theorem create_induction {P : Forest τ κ → Prop} (hbare : P (F.bare t).1)
    (hfill : ∀ G c u, S.slotType? c = some u → P G → P (G.fill (F.bare t).2 c u)) :
    P (F.create S t).1 := by
  have hes : ∀ e ∈ S.slotsOf t, S.slotType? e.1 = some e.2 := fun _ he => slotType?_of_mem_slotsOf he
  show P ((S.slotsOf t).foldl (fun G e => G.fill (F.bare t).2 e.1 e.2) (F.bare t).1)
  generalize (F.bare t).1 = G at hbare
  generalize S.slotsOf t = es at hes
  induction es generalizing G with
  | nil => exact hbare
  | cons e es ih =>
      have hstep := hfill G e.1 e.2 (hes e (List.mem_cons_self ..)) hbare
      exact ih _ hstep fun e' he' => hes e' (List.mem_cons_of_mem _ he')

theorem Sound.create (h : Coherent S F) (t : τ) :
    Coherent S (F.create S t).1 ∧ (F.create S t).1.knows (F.create S t).2 = true := by
  refine create_induction (P := fun G => Coherent S G ∧ G.knows (F.bare t).2 = true)
    ⟨h.bare t, (isTop_bare F t).known⟩ ?_
  rintro G c u hu ⟨hG, hn⟩
  exact ⟨hG.fill hn hu, knows_fill hn⟩

/-! ## Copies -/

/-- A source contributes what its store holds. -/
theorem get?_of_mem_contribution {source : View τ κ} {e : κ × Value τ} (he : e ∈ S.contribution t source) :
    source.store.get? e.1 = some e.2 := by
  rw [Schema.contribution, List.mem_filterMap] at he
  obtain ⟨c, -, hc⟩ := he
  obtain ⟨v, hv, rfl⟩ := Option.map_eq_some_iff.mp hc
  exact hv

theorem takeOver_leaf (n : Node τ) (F : Forest τ κ) {e : κ × Value τ} (he : e.2.node? = none) :
    takeOver n F e = F.put n e.1 e.2 := by
  obtain ⟨c, v⟩ := e
  cases v <;> first | rfl | cases he

theorem Sound.takeOver (h : Coherent S F) (hn : F.knows n = true) {e : κ × Value τ}
    (he : e.2.node?.map Node.type = S.slotType? e.1) :
    Coherent S (takeOver n F e) ∧ (Forest.takeOver n F e).knows n = true := by
  rcases entry_cases e with ⟨c, d, rfl⟩ | hleaf
  · exact ⟨h.fill hn he.symm, knows_fill hn⟩
  · rw [takeOver_leaf n F hleaf]
    rw [hleaf] at he
    exact ⟨h.put_leaf n he.symm hleaf, hn⟩

/-- What is kept whenever an entry is taken over is kept when a node is laid over another. The source is read
before the first change, so that the entries are typed throughout. -/
theorem overlay_induction {P : Forest τ κ → Prop} (h : Coherent S F) (source : Node τ) (hP : P F)
    (hstep : ∀ G e, e.2.node?.map Node.type = S.slotType? e.1 → P G → P (takeOver n G e)) :
    P (F.overlay S n source) := by
  unfold overlay
  split
  · exact hP
  · have hes : ∀ e ∈ S.contribution n.type (F.view source), e.2.node?.map Node.type = S.slotType? e.1 :=
      fun e he => h.typed (get?_of_mem_contribution he)
    clear h
    generalize S.contribution n.type (F.view source) = es at hes
    induction es generalizing F with
    | nil => exact hP
    | cons e es ih =>
        have hnext := hstep F e (hes e (List.mem_cons_self ..)) hP
        exact ih hnext fun e' he' => hes e' (List.mem_cons_of_mem _ he')

/-- **To lay a node over another keeps coherence.** -/
theorem Sound.overlay (h : Coherent S F) (hn : F.knows n = true) (source : Node τ) :
    Coherent S (F.overlay S n source) ∧ (F.overlay S n source).knows n = true := by
  refine overlay_induction (P := fun G => Coherent S G ∧ G.knows n = true) h source ⟨h, hn⟩ ?_
  rintro G e he ⟨hG, hn⟩
  exact hG.takeOver hn he

theorem Sound.overlayAll (h : Coherent S F) (hn : F.knows n = true) (sources : List (Node τ)) :
    Coherent S (sources.foldl (fun F s => F.overlay S n s) F) := by
  induction sources generalizing F with
  | nil => exact h
  | cons s sources ih =>
      obtain ⟨h', hn'⟩ := h.overlay hn s
      exact ih h' hn'

theorem Sound.applyAll (h : Coherent S F) (hn : F.knows n = true) (sources : List (Node τ)) :
    Coherent S (F.applyAll S n sources).2 := by
  rcases applyAll_cases S F n sources with ⟨-, he⟩ | ⟨-, he⟩
  · exact he ▸ h
  · exact he ▸ h.overlayAll hn sources

theorem Sound.unfreezeCopy (h : Coherent S F) (n : Node τ) : Coherent S (F.unfreezeCopy S n).2 := by
  rcases unfreezeCopy_cases S F n with ⟨e, he⟩ | ⟨-, he⟩
  · exact he ▸ h
  · obtain ⟨hcreate, hknown⟩ := h.create n.type
    exact he ▸ (hcreate.overlay hknown n).1

theorem Sound.childOrNew (h : Coherent S F) (hn : F.knows n = true) (c : κ) :
    Coherent S (F.childOrNew S n c).1 := by
  rcases childOrNew_cases S F n c with he | ⟨t, -, he⟩ | ⟨t, ht, -, he⟩
  · rwa [he]
  · exact he ▸ (h.create t).1
  · exact he ▸ h.fill hn ht

theorem Sound.draftStep (h : Coherent S F) (hn : F.knows n = true) (step : DraftStep S) :
    Coherent S (F.draftStep S n step) := by
  rcases draftStep_cases S F n step with he | ⟨c, v, hc, hv, he⟩ | ⟨source, he⟩
  · rwa [he]
  · exact he ▸ h.put_leaf n hc hv
  · exact he ▸ (h.overlay hn source).1

/-! ## Attaching, detaching and freezing -/

/-- **To set a characteristic keeps coherence.** -/
theorem Sound.set (h : Coherent S F) (hn : F.knows n = true) {v : Value τ}
    (hv : ∀ d, v = .node d → F.knows d = true) : Coherent S (F.set S n c v).2 := by
  cases set_cases S F n c v with
  | frozen _ he => exact he ▸ h
  | refused _ _ he => exact he ▸ h
  | leaf _ hc hleaf he => exact he ▸ h.put_leaf n hc hleaf
  | same _ _ _ _ _ he => exact he ▸ h
  | attached d hd _ hc _ ha he =>
      have hr := h.isTop_rootOf hn
      have hdtop : F.IsTop d := ⟨hv d hd, fun hf => hf, ha.root⟩
      rw [he, h.evict_rootOf hn]
      exact (h.evict hr c).graft (Stands.evict h hr c hr) (Stands.evict h hr c hdtop)
        (fun e => ha.ne_root e.symm) (child?_evict h hr c) hc

/-- In an unfrozen tree it is the same to set a characteristic of a node and to set it of the root. -/
theorem Sound.set_rootOf (h : Coherent S F) (hn : F.knows n = true) (hf : F.isFrozen n = false) (c : κ)
    (v : Value τ) : F.set S (F.rootOf n) c v = F.set S n c v := by
  have hroot : F.rootOf (F.rootOf n) = F.rootOf n := (h.isTop_rootOf hn).rootOf_eq
  have hok : ∀ m, F.rootOf m = F.rootOf n → F.requireUnfrozen S m = .ok () := by
    intro m hm
    rw [requireUnfrozen, isFrozen, hm, ← isFrozen, hf]
    rfl
  cases v with
  | node d =>
      simp only [Forest.set, hok _ hroot, hok n rfl, attach, hroot, h.child?_rootOf hn, h.evict_rootOf hn]
  | _ => simp only [Forest.set, hok _ hroot, hok n rfl, put, storeOf, h.place_rootOf hn]

theorem Sound.set_child {r : Node τ} {k : κ} (h : Coherent S F) (hr : F.IsTop r) (hf : F.isFrozen r = false)
    (hn : F.child? r k = some n) (c : κ) (v : Value τ) : F.set S n c v = F.set S r c v := by
  obtain ⟨hknown, -, howner⟩ := h.slot hr hn
  have hroot : F.rootOf n = r := by
    rw [rootOf, howner]
    rfl
  have hfrozen : F.isFrozen n = false := by
    rw [isFrozen, hr.rootOf_eq] at hf
    rwa [isFrozen, hroot]
  rw [← h.set_rootOf hknown hfrozen, hroot]

/-- The root of the tree in which something is set stays a root. -/
theorem Sound.isTop_set (h : Coherent S F) (hn : F.knows n = true) {v : Value τ}
    (hv : ∀ d, v = .node d → F.knows d = true) : (F.set S n c v).2.IsTop (F.rootOf n) := by
  have hr := h.isTop_rootOf hn
  cases set_cases S F n c v with
  | frozen _ he => exact he ▸ hr
  | refused _ _ he => exact he ▸ hr
  | leaf _ _ _ he => exact he ▸ ⟨hr.known, hr.fixed, hr.root⟩
  | same _ _ _ _ _ he => exact he ▸ hr
  | attached d hd _ hc _ ha he =>
      have hdtop : F.IsTop d := ⟨hv d hd, fun hf => hf, ha.root⟩
      rw [he, h.evict_rootOf hn]
      exact isTop_graft (h.evict hr c) (Stands.evict h hr c hr) (Stands.evict h hr c hdtop)
        (fun e => ha.ne_root e.symm) (child?_evict h hr c) hc

theorem Sound.clear (h : Coherent S F) (n : Node τ) (c : κ) : Coherent S (F.clear S n c).2 := by
  rcases clear_cases S F n c with ⟨-, he⟩ | ⟨-, he⟩ | ⟨-, hc, he⟩
  · exact he ▸ h
  · exact he ▸ h
  · exact he ▸ h.erase_leaf n hc

theorem Sound.detach (h : Coherent S F) (hn : F.knows n = true) (c : κ) :
    Coherent S (F.detach S n c).2 := by
  rcases detach_cases S F n c with ⟨-, he⟩ | ⟨-, he⟩ | ⟨-, -, he⟩ | ⟨d, -, hd, he⟩
  · exact he ▸ h
  · exact he ▸ h
  · exact he ▸ h
  · rw [h.child?_rootOf hn] at hd
    exact he ▸ Sound.release h (h.isTop_rootOf hn) hd

omit [DecidableEq κ] in
theorem owner?_markFrozen (F : Forest τ κ) (n m : Node τ) : (F.markFrozen n).owner? m = F.owner? m := by
  rw [owner?, markFrozen, cell_withCell]
  split
  · next hm => rw [hm]; rfl
  · rfl

omit [DecidableEq κ] in
theorem place_markFrozen (F : Forest τ κ) (n m : Node τ) : (F.markFrozen n).place m = F.place m := by
  rw [place, markFrozen, cell_withCell]
  split
  · next hm => rw [hm]; rfl
  · rfl

theorem Sound.markFrozen (h : Coherent S F) (hn : F.IsTop n) : Coherent S (F.markFrozen n) := by
  have known : ∀ {m}, (F.markFrozen n).knows m = true ↔ F.knows m = true := by
    intro m
    rw [Forest.markFrozen, knows_withCell, Bool.or_eq_true, decide_eq_true_eq]
    constructor
    · rintro (rfl | hm)
      · exact hn.known
      · exact hm
    · exact Or.inr
  have top : ∀ {r}, (F.markFrozen n).IsTop r ↔ F.IsTop r := by
    intro r
    constructor
    · exact fun hr => ⟨known.mp hr.known, hr.fixed, owner?_markFrozen F n r ▸ hr.root⟩
    · exact fun hr => ⟨known.mpr hr.known, hr.fixed, (owner?_markFrozen F n r).trans hr.root⟩
  have child : ∀ {m c}, (F.markFrozen n).child? m c = F.child? m c := by
    intro m c
    rw [child?_eq, child?_eq, explicit?_eq, explicit?_eq, place_markFrozen]
    rfl
  constructor
  case serial_lt => exact fun hm => h.serial_lt (known.mp hm)
  case place_lt =>
    intro m hm
    rw [place_markFrozen]
    exact h.place_lt (known.mp hm)
  case owner =>
    intro m o hm hl ho
    rw [owner?_markFrozen] at ho
    rw [place_markFrozen, place_markFrozen]
    obtain ⟨hst, hp⟩ := h.owner (known.mp hm) hl ho
    exact ⟨top.mpr hst, hp⟩
  case place_inj =>
    intro r r' hr hr' he
    rw [place_markFrozen, place_markFrozen] at he
    exact h.place_inj (top.mp hr) (top.mp hr') he
  case slot =>
    intro r c m hr hm
    rw [known, owner?_markFrozen]
    exact h.slot (top.mp hr) (child ▸ hm)
  case slot_inj => exact fun hr hm hm' => h.slot_inj (top.mp hr) (child ▸ hm) (child ▸ hm')
  case listed =>
    intro m o hm hl ho
    rw [owner?_markFrozen] at ho
    obtain ⟨c, hc⟩ := h.listed (known.mp hm) hl ho
    exact ⟨c, child.trans hc⟩
  case flag =>
    intro m hm hf
    rw [owner?_markFrozen]
    by_cases hmn : m = n
    · exact hmn ▸ hn.root
    · rw [Forest.markFrozen, cell_withCell, if_neg hmn] at hf
      exact h.flag (known.mp hm) hf
  case typed => exact h.typed

theorem Sound.freeze (h : Coherent S F) (hn : F.knows n = true) : Coherent S (F.freeze S n).2 := by
  rcases freeze_cases S F n with ⟨e, he⟩ | ⟨ho, he⟩
  · exact he ▸ h
  · exact he ▸ h.markFrozen ⟨hn, fun hf => hf, ho⟩

end Forest

end LayeredConfig
