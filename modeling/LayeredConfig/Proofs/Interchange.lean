import LayeredConfig.Proofs.Jobs
import LayeredConfig.Proofs.Outline

/-!
# Bags as an interchange form

A bag is given everything that any target might be given, and hands on to a target what the target would have
been given by the sources themselves (`Schema.offers_eq`). So to lay the bag of some sources over a tree is to
lay the sources over it, and the sources may be put into any number of bags, as long as their order is kept.
-/

namespace LayeredConfig

variable {τ κ : Type} [DecidableEq τ] [DecidableEq κ]

namespace Forest

variable (S : Schema τ κ)

/-- Lays the bags of some lists of sources over `n`, each made when the one before has been laid over `n`. -/
def applyBags (bag : τ) (n : Node τ) (F : Forest τ κ) : List (List (Node τ)) → Outcome τ κ Unit
  | [] => (.ok (), F)
  | part :: parts =>
    let (G, b) := F.bagOf S bag part
    match G.apply S n b with
    | (.error e, H) => (.error e, H)
    | (.ok (), H) => applyBags bag n H parts

/-- Makes the bags of some lists of sources. -/
def bagsOf (bag : τ) (F : Forest τ κ) : List (List (Node τ)) → Forest τ κ × List (Node τ)
  | [] => (F, [])
  | part :: parts =>
    let (G, b) := F.bagOf S bag part
    let (H, bs) := bagsOf bag G parts
    (H, b :: bs)

variable {S} {F G H : Forest τ κ} {n b : Node τ} {bag : τ} {sources more : List (Node τ)}

/-- In the forest `G` the node `b` is a new bag with some sources of `F` laid over it. -/
structure Bagged (S : Schema τ κ) (bag : τ) (F : Forest τ κ) (sources : List (Node τ)) (G : Forest τ κ)
    (b : Node τ) : Prop where
  coherent : Coherent S G
  grows : Grows F G
  type : b.type = bag
  known : G.knows b = true
  /-- No node that was there uses the store of the bag. -/
  apart : ∀ {m}, F.knows m = true → G.place b ≠ G.place m
  store : ∀ {m}, F.knows m = true → G.storeOf m = F.storeOf m
  outline : ∀ k, G.outline? b k = F.givenAll S bag sources k

theorem Bagged.bagOf (h : Coherent S F) (hbag : S.isBag bag = true)
    (hs : ∀ s ∈ sources, F.knows s = true) :
    Bagged S bag F sources (F.bagOf S bag sources).1 (F.bagOf S bag sources).2 := by
  obtain ⟨hcreate, hb⟩ := h.create bag
  obtain ⟨hgrows, hcell⟩ := Grows.create (S := S) h bag
  -- The place of the bag is new.
  have hplace : ∀ {m}, F.knows m = true →
      (F.create S bag).1.place m ≠ (F.create S bag).1.place (F.create S bag).2 := by
    intro m hm
    have hnew : (F.create S bag).1.place (F.create S bag).2 = F.next := congrArg Cell.place hcell
    rw [hgrows.place_eq hm, hnew]
    exact Nat.ne_of_lt (h.place_lt hm)
  have hstore : ∀ {m}, F.knows m = true → (F.create S bag).1.storeOf m = F.storeOf m := by
    intro m hm
    have hkeeps := (Keeps.create (S := S) h (h.place_lt hm) bag).1
    rw [storeOf, hkeeps.place hm rfl, hkeeps.store]
    rfl
  have hempty : ∀ k, (F.create S bag).1.outline? (F.create S bag).2 k = none := by
    intro k
    rw [outline?_create h, Schema.reaches, S.closure_bag hbag]
    exact if_neg fun hk => by simp at hk
  have hapart : ∀ s ∈ sources, (F.create S bag).1.knows s = true ∧
      (F.create S bag).1.place s ≠ (F.create S bag).1.place (F.create S bag).2 := fun s hsm =>
    ⟨(hgrows s (hs s hsm)).1, hplace (hs s hsm)⟩
  have hlaid := Laid.overlayAll hcreate hb hapart
  constructor
  case coherent => exact hlaid.coherent
  case grows => exact hgrows.trans hlaid.grows
  case type => rfl
  case known => exact (hlaid.grows _ hb).1
  case apart =>
    intro m hm e
    refine hplace hm ?_
    rw [← hlaid.grows.place_eq (hgrows m hm).1, ← hlaid.grows.place_eq hb]
    exact e.symm
  case store => exact fun hm => (hlaid.apart (hgrows _ hm).1 (hplace hm)).trans (hstore hm)
  case outline =>
    intro k
    refine (hlaid.outline k).trans ?_
    rw [hempty, Option.or_none]
    exact givenAll_congr (fun s hsm => hstore (hs s hsm)) bag k

/-- **A bag gives to a target what its sources give.** -/
theorem Bagged.given_eq (hx : Bagged S bag F sources G b) (hbag : S.isBag bag = true) (target : τ) (k : κ) :
    G.given S target b k = F.givenAll S target sources k := by
  have hhand : ∀ sources : List (Node τ), F.givenAll S target sources k =
      if S.offers target bag k = true then F.givenAll S bag sources k else none := by
    intro sources
    induction sources with
    | nil => exact (ite_self _).symm
    | cons s sources ih =>
        rw [givenAll, givenAll, ih, given, given, S.offers_eq hbag target s.type]
        cases S.offers target bag k <;> simp
  rw [hhand, given, hx.type, hx.outline]

/-! ## One bag after the other -/

/-- To lay other sources over a tree is the same, if they give the same. -/
theorem Laid.of_given_eq (hgrows : Grows F G) (hstore : ∀ {m}, F.knows m = true → G.storeOf m = F.storeOf m)
    (hn : F.knows n = true) (hgiven : ∀ k, G.givenAll S n.type more k = F.givenAll S n.type sources k)
    (h : Laid S G H n more) : Laid S F H n sources where
  coherent := h.coherent
  grows := hgrows.trans h.grows
  apart := by
    intro m hm hp
    obtain ⟨hmk, hmp⟩ := hgrows.apart hn ⟨hm, hp⟩
    exact (h.apart hmk hmp).trans (hstore hm)
  outline := fun k => by rw [h.outline, hgiven, outline?_congr (hstore hn)]
  occupant := by
    intro k d hd
    refine h.occupant ?_
    rw [child?_eq, explicit?, hstore hn]
    exact hd

theorem Grows.isFrozen (hgrows : Grows F G) (h : Coherent S F) (hn : F.knows n = true) :
    G.isFrozen n = F.isFrozen n := by
  have hroot : G.rootOf n = F.rootOf n := by rw [rootOf, rootOf, owner?, owner?, (hgrows n hn).2]
  rw [Forest.isFrozen, Forest.isFrozen, hroot, (hgrows _ (h.isTop_rootOf hn).known).2]

theorem applyAll_of_unfrozen (hf : F.isFrozen n = false) (sources : List (Node τ)) :
    F.applyAll S n sources = (.ok (), sources.foldl (fun F s => F.overlay S n s) F) := by
  rcases applyAll_cases S F n sources with ⟨hf', -⟩ | ⟨-, he⟩
  · rw [hf] at hf'
    cases hf'
  · exact he

theorem Laid.applyBags (h : Coherent S F) (hbag : S.isBag bag = true) (hn : F.knows n = true)
    (hf : F.isFrozen n = false) {parts : List (List (Node τ))}
    (hs : ∀ s ∈ parts.flatten, F.knows s = true ∧ F.place s ≠ F.place n) :
    ∃ H, F.applyBags S bag n parts = (.ok (), H) ∧ Laid S F H n parts.flatten := by
  induction parts generalizing F with
  | nil => exact ⟨F, rfl, Laid.refl h n⟩
  | cons part parts ih =>
      rw [List.flatten_cons] at hs ⊢
      have hx := Bagged.bagOf h hbag fun s hsm => (hs s (List.mem_append_left _ hsm)).1
      have hnG := (hx.grows n hn).1
      have hlaid : Laid S F _ n part := (Laid.overlay hx.coherent hnG (F.bagOf S bag part).2).of_given_eq
        hx.grows hx.store hn fun k => by rw [givenAll, givenAll, Option.none_or, hx.given_eq hbag]
      have hstep := applyAll_of_unfrozen (S := S) ((hx.grows.isFrozen h hn).trans hf) [(F.bagOf S bag part).2]
      have hrest : ∀ s ∈ parts.flatten, F.knows s = true ∧ F.place s ≠ F.place n := fun s hsm =>
        hs s (List.mem_append_right _ hsm)
      obtain ⟨H, hH, hlaid'⟩ := ih hlaid.coherent (hlaid.grows n hn).1 ((hlaid.grows.isFrozen h hn).trans hf)
        fun s hsm => hlaid.grows.apart hn (hrest s hsm)
      refine ⟨H, ?_, hlaid.trans hlaid' hn hrest⟩
      rw [Forest.applyBags]
      simp only [apply, hstep]
      exact hH

/-! ## All bags first -/

/-- In the forest `G` there are new bags that give to every target what some sources of `F` give. -/
structure Bundled (S : Schema τ κ) (F : Forest τ κ) (sources : List (Node τ)) (G : Forest τ κ)
    (bags : List (Node τ)) : Prop where
  coherent : Coherent S G
  grows : Grows F G
  store : ∀ {m}, F.knows m = true → G.storeOf m = F.storeOf m
  /-- No node that was there uses the store of a bag. -/
  apart : ∀ {m}, F.knows m = true → ∀ b ∈ bags, G.knows b = true ∧ G.place b ≠ G.place m
  given : ∀ target k, G.givenAll S target bags k = F.givenAll S target sources k

theorem Bundled.bagsOf (h : Coherent S F) (hbag : S.isBag bag = true) {parts : List (List (Node τ))}
    (hs : ∀ s ∈ parts.flatten, F.knows s = true) :
    Bundled S F parts.flatten (F.bagsOf S bag parts).1 (F.bagsOf S bag parts).2 := by
  induction parts generalizing F with
  | nil => exact ⟨h, Grows.refl F, fun _ => rfl, fun _ b hb => (nomatch hb), fun _ _ => rfl⟩
  | cons part parts ih =>
      rw [List.flatten_cons] at hs ⊢
      have hrest : ∀ s ∈ parts.flatten, F.knows s = true := fun s hsm => hs s (List.mem_append_right _ hsm)
      have hx := Bagged.bagOf h hbag fun s hsm => hs s (List.mem_append_left _ hsm)
      rcases hmade : F.bagOf S bag part with ⟨G, b⟩
      rw [hmade] at hx
      have hy := ih hx.coherent fun s hsm => (hx.grows s (hrest s hsm)).1
      rcases hbags : G.bagsOf S bag parts with ⟨H, bs⟩
      rw [hbags] at hy
      have hboth : F.bagsOf S bag (part :: parts) = (H, b :: bs) := by simp only [Forest.bagsOf, hmade, hbags]
      rw [hboth]
      constructor
      case coherent => exact hy.coherent
      case grows => exact hx.grows.trans hy.grows
      case store => exact fun hm => (hy.store (hx.grows _ hm).1).trans (hx.store hm)
      case apart =>
        intro m hm b' hb'
        obtain ⟨hmk, -⟩ := hx.grows m hm
        rcases List.mem_cons.mp hb' with rfl | hb'
        · exact hy.grows.apart hmk ⟨hx.known, hx.apart hm⟩
        · exact hy.apart hmk b' hb'
      case given =>
        intro target k
        have hfirst : H.given S target b k = F.givenAll S target part k :=
          (given_congr (hy.store hx.known) target k).trans (hx.given_eq hbag target k)
        have hothers : H.givenAll S target bs k = F.givenAll S target parts.flatten k :=
          (hy.given target k).trans (givenAll_congr (fun s hsm => hx.store (hrest s hsm)) target k)
        rw [givenAll, hfirst, hothers, givenAll_append]

/-! ## The result -/

/-- The nodes of the tree of `n` in `F` store the same in `G` and in `H`, of the nodes in slots no more than
that they are there; and slots that were taken keep their nodes. -/
structure SameTree (S : Schema τ κ) (F G H : Forest τ κ) (n : Node τ) : Prop where
  stored : ∀ {m}, F.rootOf m = F.rootOf n → ∀ k, H.has m k = G.has m k
  leaf : ∀ {m}, F.rootOf m = F.rootOf n → ∀ {k}, S.slotType? k = none → H.explicit? m k = G.explicit? m k
  occupant : ∀ {m}, F.rootOf m = F.rootOf n → ∀ {k d}, F.child? m k = some d →
    G.child? m k = some d ∧ H.child? m k = some d

theorem Laid.sameTree (h : Coherent S F) (hn : F.knows n = true) (hG : Laid S F G n sources)
    (hH : Laid S F H n sources) : SameTree S F G H n := by
  have hplace : ∀ {m}, F.rootOf m = F.rootOf n → F.knows m = true ∧ F.place m = F.place n := by
    intro m hm
    have hmk := (h.isTop_rootOf hn).knows_of_rootOf hm
    exact ⟨hmk, by rw [h.place_rootOf hmk, hm, ← h.place_rootOf hn]⟩
  -- All nodes of the tree use one store, before and after.
  have hstore : ∀ {K}, Laid S F K n sources → ∀ {m}, F.rootOf m = F.rootOf n → K.storeOf m = K.storeOf n := by
    intro K hK m hm
    obtain ⟨hmk, hmp⟩ := hplace hm
    rw [storeOf, storeOf, place, (hK.grows m hmk).2, place, (hK.grows n hn).2]
    exact congrArg K.storeAt hmp
  have houtline : ∀ {m}, F.rootOf m = F.rootOf n → ∀ k, H.outline? m k = G.outline? m k := by
    intro m hm k
    rw [outline?_congr (hstore hH hm), outline?_congr (hstore hG hm), hH.outline, hG.outline]
  constructor
  case stored =>
    intro m hm k
    rw [has_eq_isSome_outline?, has_eq_isSome_outline?, houtline hm]
  case leaf =>
    intro m hm k hk
    exact explicit?_of_outline?_eq hG.coherent hH.coherent hk (houtline hm k)
  case occupant =>
    intro m hm k d hd
    have hd' : F.child? n k = some d := by
      rw [child?_eq, explicit?, storeOf, ← (hplace hm).2]
      exact hd
    have hkept : ∀ {K}, Laid S F K n sources → K.child? m k = some d := by
      intro K hK
      rw [child?_eq, explicit?, hstore hK hm]
      exact hK.occupant hd'
    exact ⟨hkept hG, hkept hH⟩

end Forest

namespace Session

open Forest

variable {S : Schema τ κ} {W : Session τ κ} {n : Node τ} {bag : τ}

/-- **To lay sources over a tree, or any bags of them in their order, leaves the tree the same.** -/
theorem sameTree_of_bags (h : Reachable S W) (hbag : S.isBag bag = true) (hn : W.forest.knows n = true)
    (hf : W.forest.isFrozen n = false) {sources : List (Node τ)}
    (hs : ∀ s ∈ sources, W.forest.knows s = true ∧ W.forest.rootOf s ≠ W.forest.rootOf n)
    {parts : List (List (Node τ))} (hparts : parts.flatten = sources) :
    ∃ G H K, W.forest.applyAll S n sources = (.ok (), G) ∧
      W.forest.applyBags S bag n parts = (.ok (), H) ∧
      (W.forest.bagsOf S bag parts).1.applyAll S n (W.forest.bagsOf S bag parts).2 = (.ok (), K) ∧
      SameTree S W.forest G H n ∧ SameTree S W.forest G K n := by
  subst hparts
  have hcoh := h.orderly.coherent
  have hplace : ∀ s ∈ parts.flatten, W.forest.knows s = true ∧ W.forest.place s ≠ W.forest.place n := by
    intro s hsm
    obtain ⟨hsk, hroot⟩ := hs s hsm
    refine ⟨hsk, fun hp => hroot ?_⟩
    rw [hcoh.place_rootOf hsk, hcoh.place_rootOf hn] at hp
    exact hcoh.place_inj (hcoh.isTop_rootOf hsk) (hcoh.isTop_rootOf hn) hp
  have hdirect := Laid.overlayAll hcoh hn hplace
  obtain ⟨H, hH, hbags⟩ := Laid.applyBags hcoh hbag hn hf hplace
  have hbundled := Bundled.bagsOf hcoh hbag fun s hsm => (hplace s hsm).1
  have hfirst := (Laid.overlayAll hbundled.coherent (hbundled.grows n hn).1 (hbundled.apart hn)).of_given_eq
    hbundled.grows hbundled.store hn (hbundled.given n.type)
  exact ⟨_, H, _, applyAll_of_unfrozen hf _, hH,
    applyAll_of_unfrozen ((hbundled.grows.isFrozen hcoh hn).trans hf) _, hdirect.sameTree hcoh hn hbags,
    hdirect.sameTree hcoh hn hfirst⟩

/-- A bag with a label, a tree with another label and a node in its right slot, and a tree to lay them over. -/
def stacked : Session NodeType Key :=
  ⟨[.bare .bag, .set ⟨1, .bag⟩ (.specimen .label) (.text "low"), .bare .tree,
    .set ⟨2, .tree⟩ (.specimen .label) (.text "high"), .childOrNew ⟨2, .tree⟩ (.specimen .right),
    .bare .tree].foldl (Operation.run catalog) .empty, []⟩

theorem reachable_stacked : Reachable catalog stacked := by
  refine Reachable.run .refl ?_
  decide

theorem sameTree_stacked :
    (Reachable catalog stacked ∧ catalog.isBag .bag = true ∧ stacked.forest.knows ⟨4, .tree⟩ = true ∧
      stacked.forest.isFrozen ⟨4, .tree⟩ = false ∧
      ∀ s ∈ [⟨3, .tree⟩, ⟨1, .bag⟩, ⟨2, .tree⟩], stacked.forest.knows s = true ∧
        stacked.forest.rootOf s ≠ stacked.forest.rootOf ⟨4, .tree⟩) ∧
      ∃ G H K, stacked.forest.applyAll catalog ⟨4, .tree⟩ [⟨3, .tree⟩, ⟨1, .bag⟩, ⟨2, .tree⟩] = (.ok (), G) ∧
        stacked.forest.applyBags catalog .bag ⟨4, .tree⟩ [[⟨3, .tree⟩, ⟨1, .bag⟩], [⟨2, .tree⟩]] =
          (.ok (), H) ∧
        (stacked.forest.bagsOf catalog .bag [[⟨3, .tree⟩, ⟨1, .bag⟩], [⟨2, .tree⟩]]).1.applyAll catalog
          ⟨4, .tree⟩ (stacked.forest.bagsOf catalog .bag [[⟨3, .tree⟩, ⟨1, .bag⟩], [⟨2, .tree⟩]]).2 =
          (.ok (), K) ∧
        SameTree catalog stacked.forest G H ⟨4, .tree⟩ ∧ SameTree catalog stacked.forest G K ⟨4, .tree⟩ :=
  ⟨⟨reachable_stacked, rfl, by decide, by decide, by decide⟩,
    sameTree_of_bags reachable_stacked rfl (by decide) (by decide) (by decide) rfl⟩

end Session

end LayeredConfig
