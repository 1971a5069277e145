import LayeredConfig.Proofs.Interchange
import LayeredConfig.Proofs.Isolation

/-!
# The effect of layering

What a row of sources does to a tree, key by key: a leaf gets the value of the last source that contributes
it, a slot is taken if any source contributes it and keeps the node that it has, and everything else stays.

* `Contributes`: which keys a source takes part with. A source of the same tree takes part with none: it reads
  what it writes, so that to lay it over the tree changes nothing (`overlay_of_place_eq`).
* `Retouched`: a forest in which entries of one store have been overwritten and none has been added.
* `Layered` and `layered_of_applyAll`: the effect. That the same row, laid over the tree again, changes
  nothing holds to the letter: in between, leaves are overwritten and overwritten back, and the forest
  that comes out is the one that went in (`Laid.again`).

A source that is in the tree itself shows what the tree shows. It is the one source that changes
(`source_changes_stacked`).
-/

namespace LayeredConfig

namespace Store

variable {κ ν : Type} [DecidableEq κ] {s t : Store κ ν} {k : κ}

theorem keys_insert_of_contains (h : s.contains k = true) (v : ν) : (s.insert k v).keys = s.keys := by
  have hk : k ∈ s.entries.map Prod.fst := s.contains_iff_mem_keys.mp h
  show (put k v s.entries).map Prod.fst = s.entries.map Prod.fst
  rw [map_fst_put, if_pos hk]

theorem map_some_entries (s : Store κ ν) :
    s.entries.map some = s.keys.map fun k => (s.get? k).map (k, ·) := by
  rw [keys, List.map_map]
  refine List.map_congr_left fun e he => ?_
  show some e = (s.get? e.1).map (e.1, ·)
  rw [s.get?_eq_some_iff.mpr he]
  rfl

/-- A store is its keys in their order and what it has under them. -/
theorem ext_of_keys (hk : s.keys = t.keys) (hg : ∀ k, s.get? k = t.get? k) : s = t := by
  have hentries : s.entries.map some = t.entries.map some := by
    rw [map_some_entries, map_some_entries, hk]
    exact List.map_congr_left fun k _ => by rw [hg k]
  obtain ⟨es, _⟩ := s
  obtain ⟨es', _⟩ := t
  obtain rfl : es = es' := (List.map_inj_right fun _ _ => Option.some.inj).mp hentries
  rfl

end Store

variable {τ κ : Type} [DecidableEq τ] [DecidableEq κ] {S : Schema τ κ}

namespace Forest

variable {F G H : Forest τ κ} {n m s t d : Node τ} {c k : κ} {v : Value τ} {sources : List (Node τ)}

/-! ## To take over what is there -/

/-- A node that stores something uses a place where a store stands. -/
theorem contains_place (h : F.has n c = true) : F.stores.contains (F.place n) = true := by
  rw [Store.contains, Option.isSome_iff_ne_none]
  intro hnone
  rw [has, storeOf, storeAt, hnone] at h
  cases h

theorem put_of_explicit? (h : F.explicit? n c = some v) : F.put n c v = F := by
  have hhas : F.has n c = true := by rw [has, Store.contains, ← explicit?, h]; rfl
  obtain ⟨s, hs⟩ := Option.isSome_iff_exists.mp (contains_place hhas)
  have hstore : F.storeOf n = s := by rw [storeOf, storeAt, hs]; rfl
  rw [put, Store.insert_of_get? h, withStoreAt, hstore, Store.insert_of_get? hs]

/-- To take over what is there already changes nothing. -/
theorem takeOver_of_explicit? {e : κ × Value τ} (h : F.explicit? n e.1 = some e.2) : takeOver n F e = F := by
  rcases entry_cases e with ⟨c, d, rfl⟩ | hleaf
  · have hhas : F.has n c = true := by rw [has, Store.contains, ← explicit?, h]; rfl
    show F.fill n c d.type = F
    rw [fill, if_pos hhas]
  · rw [takeOver_leaf n F hleaf, put_of_explicit? h]

theorem takeOverAll_of_explicit? {es : List (κ × Value τ)} (h : ∀ e ∈ es, F.explicit? n e.1 = some e.2) :
    es.foldl (takeOver n) F = F := by
  induction es with
  | nil => rfl
  | cons e es ih =>
      rw [List.foldl_cons, takeOver_of_explicit? (h e (List.mem_cons_self ..))]
      exact ih fun e' he' => h e' (List.mem_cons_of_mem _ he')

/-- **To lay a node over another that uses the same store changes nothing.** -/
theorem overlay_of_place_eq (hp : F.place s = F.place n) : F.overlay S n s = F := by
  unfold overlay
  split
  · rfl
  · refine takeOverAll_of_explicit? fun e he => ?_
    rw [explicit?_eq, ← hp]
    exact get?_of_mem_contribution he

/-- The sources that are not in the tree of `t`. -/
def foreign (F : Forest τ κ) (t : Node τ) (sources : List (Node τ)) : List (Node τ) :=
  sources.filter fun s => F.rootOf s ≠ F.rootOf t

omit [DecidableEq κ] in
theorem mem_foreign : s ∈ F.foreign t sources ↔ s ∈ sources ∧ F.rootOf s ≠ F.rootOf t := by
  rw [foreign, List.mem_filter, decide_eq_true_eq]

theorem place_of_mem_foreign (h : Coherent S F) (ht : F.knows t = true)
    (hs : ∀ s ∈ sources, F.knows s = true) (hm : s ∈ F.foreign t sources) :
    F.knows s = true ∧ F.place s ≠ F.place t := by
  obtain ⟨hmem, hroot⟩ := mem_foreign.mp hm
  exact ⟨hs s hmem, h.place_ne_of_rootOf_ne ht (hs s hmem) hroot⟩

/-- Sources of the tree itself may be left out. The row is laid over a forest that has grown from `F`, and the
trees are told apart in `F`. -/
theorem overlayAll_foreign (h : Coherent S F) (hG : Coherent S G) (hgrows : Grows F G)
    (ht : F.knows t = true) (hs : ∀ s ∈ sources, F.knows s = true) :
    sources.foldl (fun F s => F.overlay S t s) G =
      (F.foreign t sources).foldl (fun F s => F.overlay S t s) G := by
  induction sources generalizing G with
  | nil => rfl
  | cons s sources ih =>
      have hsk := hs s (List.mem_cons_self ..)
      have hrest : ∀ s' ∈ sources, F.knows s' = true := fun s' hs' => hs s' (List.mem_cons_of_mem _ hs')
      have htG := (hgrows t ht).1
      by_cases hroot : F.rootOf s = F.rootOf t
      · have hp : G.place s = G.place t := by
          rw [hgrows.place_eq hsk, hgrows.place_eq ht]
          exact (h.place_eq_of_rootOf_eq ht hroot).2
        rw [List.foldl_cons, overlay_of_place_eq hp, ih hG hgrows hrest, foreign, foreign,
          List.filter_cons_of_neg (by simpa using hroot)]
      · have hstep := ih (hG.overlay htG s).1 (hgrows.trans (Grows.overlay hG htG s)) hrest
        rw [List.foldl_cons, hstep, foreign, foreign, List.filter_cons_of_pos (by simpa using hroot),
          List.foldl_cons]

/-! ## Contributions -/

/-- The source `s` takes part with the key `k` when it is laid over `t`. -/
def Contributes (S : Schema τ κ) (F : Forest τ κ) (t s : Node τ) (k : κ) : Prop :=
  F.rootOf s ≠ F.rootOf t ∧ F.has s k = true ∧ S.isSticky k = false ∧
    (S.isBag s.type = true ∨ k ∈ S.closure s.type) ∧
    (s.type = t.type ∨ S.isBag t.type = true ∨ k ∈ S.closure t.type)

instance (S : Schema τ κ) (F : Forest τ κ) (t s : Node τ) (k : κ) : Decidable (Contributes S F t s k) :=
  inferInstanceAs (Decidable (_ ∧ _))

theorem offers_iff {target source : τ} : S.offers target source k = true ↔
    S.isSticky k = false ∧ (S.isBag source = true ∨ k ∈ S.closure source) ∧
      (source = target ∨ S.isBag target = true ∨ k ∈ S.closure target) := by
  simp only [Schema.offers, Schema.reaches, Bool.and_eq_true, Bool.or_eq_true, Bool.not_eq_true',
    decide_eq_true_eq, and_assoc, or_assoc, eq_comm (a := target)]

theorem given_of_contributes (h : Contributes S F t s k) : F.given S t.type s k = F.outline? s k := by
  rw [given, if_pos (offers_iff.mpr h.2.2)]

theorem given_of_mem_contribution {e : κ × Value τ} (he : e ∈ S.contribution t.type (F.view s)) :
    F.given S t.type s e.1 = some e.2.outline := by
  have hlookup := S.lookup_contribution t.type (F.view s) e.1
  have hstored : F.explicit? s e.1 = some e.2 := get?_of_mem_contribution he
  have hoffers : S.offers t.type s.type e.1 = true := by
    cases ho : S.offers t.type s.type e.1 with
    | true => rfl
    | false =>
        rw [view, ho, if_neg Bool.false_ne_true, List.lookup_eq_none_iff] at hlookup
        exact absurd (hlookup e he) (by simp)
  rw [given, if_pos hoffers, outline?, hstored, Option.map_some]

theorem given_eq_none_iff (hs : F.rootOf s ≠ F.rootOf t) :
    F.given S t.type s k = none ↔ ¬ Contributes S F t s k := by
  constructor
  · intro hnone hc
    rw [given_of_contributes hc] at hnone
    have hhas := hc.2.1
    rw [has_eq_isSome_outline?, hnone] at hhas
    cases hhas
  · intro hc
    rw [given]
    split
    · next ho =>
      rw [← Option.not_isSome_iff_eq_none, ← has_eq_isSome_outline?]
      exact fun hhas => hc ⟨hs, hhas, offers_iff.mp ho⟩
    · rfl

theorem givenAll_eq_none_iff : F.givenAll S t.type sources k = none ↔
    ∀ s ∈ sources, F.given S t.type s k = none := by
  induction sources with
  | nil => simp [givenAll]
  | cons s sources ih => rw [givenAll, Option.or_eq_none_iff, ih, List.forall_mem_cons, and_comm]

theorem givenAll_foreign_eq_none_iff : F.givenAll S t.type (F.foreign t sources) k = none ↔
    ∀ s ∈ sources, ¬ Contributes S F t s k := by
  rw [givenAll_eq_none_iff]
  constructor
  · intro hnone s hs hc
    exact (given_eq_none_iff hc.1).mp (hnone s (mem_foreign.mpr ⟨hs, hc.1⟩)) hc
  · intro hc s hs
    obtain ⟨hmem, hroot⟩ := mem_foreign.mp hs
    exact (given_eq_none_iff hroot).mpr (hc s hmem)

/-- The last source that contributes a key is the one that is seen. -/
theorem givenAll_foreign_of_last {before after : List (Node τ)} (hc : Contributes S F t s k)
    (hlast : ∀ s' ∈ after, ¬ Contributes S F t s' k) :
    F.givenAll S t.type (F.foreign t (before ++ s :: after)) k = F.outline? s k := by
  have hnone : F.givenAll S t.type (F.foreign t after) k = none := givenAll_foreign_eq_none_iff.mpr hlast
  have hsplit : F.foreign t (before ++ s :: after) = F.foreign t before ++ s :: F.foreign t after := by
    rw [foreign, List.filter_append, List.filter_cons_of_pos (by simpa using hc.1)]
    rfl
  have hsome : (F.outline? s k).isSome = true := by rw [← has_eq_isSome_outline?]; exact hc.2.1
  rw [hsplit, givenAll_append, givenAll, hnone, Option.none_or, given_of_contributes hc,
    Option.or_of_isSome hsome]

/-! ## The second time -/

/-- The forest `G` is `F` but for values that the node `n` stores. -/
structure Retouched (F G : Forest τ κ) (n : Node τ) : Prop where
  cells : G.cells = F.cells
  next : G.next = F.next
  places : G.stores.keys = F.stores.keys
  keys : (G.storeOf n).keys = (F.storeOf n).keys
  apart : ∀ a, a ≠ F.place n → G.storeAt a = F.storeAt a

namespace Retouched

omit [DecidableEq κ] in
theorem refl (F : Forest τ κ) (n : Node τ) : Retouched F F n := ⟨rfl, rfl, rfl, rfl, fun _ _ => rfl⟩

omit [DecidableEq κ] in
theorem cell (h : Retouched F G n) (m : Node τ) : G.cell m = F.cell m := by
  rw [Forest.cell, Forest.cell, h.cells]

omit [DecidableEq κ] in
theorem place (h : Retouched F G n) (m : Node τ) : G.place m = F.place m := congrArg Cell.place (h.cell m)

omit [DecidableEq κ] in
theorem trans (h : Retouched F G n) (h' : Retouched G H n) : Retouched F H n where
  cells := h'.cells.trans h.cells
  next := h'.next.trans h.next
  places := h'.places.trans h.places
  keys := h'.keys.trans h.keys
  apart := fun a ha => (h'.apart a (h.place n ▸ ha)).trans (h.apart a ha)

theorem has (h : Retouched F G n) (c : κ) : G.has n c = F.has n c := by
  rw [Bool.eq_iff_iff, Forest.has, Forest.has, Store.contains_iff_mem_keys, Store.contains_iff_mem_keys, h.keys]

omit [DecidableEq κ] in
theorem storeOf_of_ne (h : Retouched F G n) (hp : F.place m ≠ F.place n) : G.storeOf m = F.storeOf m := by
  rw [storeOf, h.place, h.apart _ hp]
  rfl

theorem put (hc : F.has n c = true) (v : Value τ) : Retouched F (F.put n c v) n where
  cells := rfl
  next := rfl
  places := Store.keys_insert_of_contains (contains_place hc) _
  keys := by
    rw [storeOf, place_put, storeAt_put, if_pos rfl]
    exact Store.keys_insert_of_contains hc v
  apart := fun a ha => by rw [storeAt_put, if_neg ha]

theorem takeOver {e : κ × Value τ} (he : F.has n e.1 = true) : Retouched F (takeOver n F e) n := by
  rcases entry_cases e with ⟨c, d, rfl⟩ | hleaf
  · show Retouched F (F.fill n c d.type) n
    rw [fill, if_pos he]
    exact refl F n
  · rw [takeOver_leaf n F hleaf]
    exact put he e.2

theorem takeOverAll {es : List (κ × Value τ)} (he : ∀ e ∈ es, F.has n e.1 = true) :
    Retouched F (es.foldl (Forest.takeOver n) F) n := by
  induction es generalizing F with
  | nil => exact refl F n
  | cons e es ih =>
      have hstep := takeOver (he e (List.mem_cons_self ..))
      exact hstep.trans (ih fun e' he' => (hstep.has _).trans (he e' (List.mem_cons_of_mem _ he')))

/-- A source that gives no key that is not there only overwrites. -/
theorem overlay (hs : ∀ k, F.given S n.type s k ≠ none → F.has n k = true) :
    Retouched F (F.overlay S n s) n := by
  unfold Forest.overlay
  split
  · exact refl F n
  · refine takeOverAll fun e he => hs e.1 ?_
    rw [given_of_mem_contribution he]
    exact Option.some_ne_none _

/-- **A row of sources of other trees that gives no key that is not there only overwrites.** -/
theorem overlayAll (hp : ∀ s ∈ sources, F.place s ≠ F.place n)
    (hs : ∀ k, F.givenAll S n.type sources k ≠ none → F.has n k = true) :
    Retouched F (sources.foldl (fun F s => F.overlay S n s) F) n := by
  induction sources generalizing F with
  | nil => exact refl F n
  | cons s sources ih =>
      have hrest : ∀ s' ∈ sources, F.place s' ≠ F.place n := fun s' hs' => hp s' (List.mem_cons_of_mem _ hs')
      have hstep : Retouched F (F.overlay S n s) n := overlay fun k hk => hs k fun hnone =>
        hk ((Option.or_eq_none_iff.mp hnone).2)
      refine hstep.trans (ih (fun s' hs' => ?_) fun k hk => ?_)
      · rw [hstep.place, hstep.place]
        exact hrest s' hs'
      · rw [givenAll_congr fun s' hs' => hstep.storeOf_of_ne (hrest s' hs')] at hk
        rw [hstep.has]
        exact hs k fun hnone => hk (Option.or_eq_none_iff.mp hnone).1

/-- If the values are the same as well, nothing has changed at all. -/
theorem eq (h : Retouched F G n) (hv : ∀ k, G.explicit? n k = F.explicit? n k) : G = F := by
  have hstores : G.stores = F.stores := by
    refine Store.ext_of_keys h.places fun a => ?_
    have hcontains : G.stores.contains a = F.stores.contains a := by
      rw [Bool.eq_iff_iff, Store.contains_iff_mem_keys, Store.contains_iff_mem_keys, h.places]
    have hstore : G.storeAt a = F.storeAt a := by
      by_cases ha : a = F.place n
      · have hself : G.storeOf n = F.storeOf n := Store.ext_of_keys h.keys hv
        rwa [storeOf, storeOf, h.place, ← ha] at hself
      · exact h.apart a ha
    -- Where a store stands it is told by `storeAt`, and stores stand at the same places.
    rw [Store.contains, Store.contains] at hcontains
    rw [storeAt, storeAt] at hstore
    cases hF : F.stores.get? a with
    | none =>
        rw [hF, Option.isSome_none, Option.isSome_eq_false_iff, Option.isNone_iff_eq_none] at hcontains
        exact hcontains
    | some s =>
        rw [hF, Option.isSome_some, Option.isSome_iff_exists] at hcontains
        obtain ⟨s', hs'⟩ := hcontains
        rw [hF, hs'] at hstore
        rw [hs']
        exact congrArg some hstore
  obtain ⟨cells, stores, next⟩ := F
  obtain ⟨cells', stores', next'⟩ := G
  obtain rfl : cells' = cells := h.cells
  obtain rfl : stores' = stores := hstores
  obtain rfl : next' = next := h.next
  rfl

end Retouched

/-- What has one outline stores the same, if slots that were taken keep their nodes. -/
theorem explicit?_of_same_outline (hF : Coherent S F) (hG : Coherent S G) (ho : G.outline? n k = F.outline? n k)
    (hslot : ∀ d, F.child? n k = some d → G.child? n k = some d) : G.explicit? n k = F.explicit? n k := by
  cases hk : S.slotType? k with
  | none => exact explicit?_of_outline?_eq hF hG hk ho
  | some u =>
      cases hv : F.explicit? n k with
      | none =>
          rw [outline?, outline?, hv, Option.map_none, Option.map_eq_none_iff] at ho
          exact ho
      | some v =>
          have hty := hF.typed hv
          rw [hk, Option.map_eq_some_iff] at hty
          obtain ⟨d, hd, -⟩ := hty
          obtain rfl := node?_eq_some.mp hd
          exact child?_eq_some.mp (hslot d (child?_eq_some.mpr hv))

namespace Laid

/-- **A row that is laid over a tree again changes nothing.** -/
theorem again (h : Laid S F G n sources) (hn : F.knows n = true)
    (hs : ∀ s ∈ sources, F.knows s = true ∧ F.place s ≠ F.place n) :
    sources.foldl (fun F s => F.overlay S n s) G = G := by
  have hplace : ∀ s ∈ sources, G.knows s = true ∧ G.place s ≠ G.place n := fun s hsm =>
    h.grows.apart hn (hs s hsm)
  have hgiven : ∀ k, G.givenAll S n.type sources k = F.givenAll S n.type sources k :=
    givenAll_congr (fun s hsm => h.apart (hs s hsm).1 (hs s hsm).2) n.type
  have hretouched : Retouched G (sources.foldl (fun F s => F.overlay S n s) G) n := by
    refine Retouched.overlayAll (fun s hsm => (hplace s hsm).2) fun k hk => ?_
    rw [hgiven, ← Option.isSome_iff_ne_none] at hk
    rw [has_eq_isSome_outline?, h.outline, Option.or_of_isSome hk]
    exact hk
  have hlaid := overlayAll h.coherent (h.grows n hn).1 hplace
  refine hretouched.eq fun k => explicit?_of_same_outline h.coherent hlaid.coherent ?_ fun d hd => ?_
  · rw [hlaid.outline, hgiven, h.outline, ← Option.or_assoc, Option.or_self]
  · exact hlaid.occupant hd

end Laid

/-! ## The effect -/

/-- In the forest `G` some sources of `F` have been laid over the node `t`, one after the other. -/
structure Layered (S : Schema τ κ) (F G : Forest τ κ) (t : Node τ) (sources : List (Node τ)) : Prop where
  /-- A leaf has the value of the last source that contributes it. -/
  last : ∀ {before s after k}, sources = before ++ s :: after → Contributes S F t s k →
    (∀ s' ∈ after, ¬ Contributes S F t s' k) → S.slotType? k = none → G.explicit? t k = F.explicit? s k
  /-- What no source contributes is as it was. -/
  kept : ∀ {k}, (∀ s ∈ sources, ¬ Contributes S F t s k) → G.explicit? t k = F.explicit? t k
  slot : ∀ {k}, S.isSlot k = true →
    (G.has t k = true ↔ F.has t k = true ∨ ∃ s ∈ sources, Contributes S F t s k)
  /-- A slot that was taken keeps its node, and a slot that was not gets a new one. -/
  occupant : ∀ {k d}, F.child? t k = some d → G.child? t k = some d ∧ G.owner? d = some (F.rootOf t)
  filled : ∀ {k d}, F.child? t k = none → G.child? t k = some d →
    F.knows d = false ∧ G.owner? d = some (F.rootOf t)
  sticky : ∀ {k}, S.isSticky k = true → G.explicit? t k = F.explicit? t k
  unknown : S.isBag t.type = false → ∀ {k}, k ∉ S.closure t.type → G.explicit? t k = F.explicit? t k
  /-- Sources of other trees are as they were, as is every other node there. -/
  aside : ∀ {n}, F.knows n = true → F.rootOf n ≠ F.rootOf t → Same F G n
  /-- A source of the tree itself shows what the tree shows, as does every other node of it. -/
  within : ∀ {n}, F.rootOf n = F.rootOf t → F.storeOf n = F.storeOf t ∧ G.storeOf n = G.storeOf t
  standing : ∀ {n}, F.knows n = true →
    G.knows n = true ∧ G.owner? n = F.owner? n ∧ G.rootOf n = F.rootOf n ∧ G.isFrozen n = F.isFrozen n
  again : G.applyAll S t sources = (.ok (), G)

theorem not_contributes_of_sticky (hk : S.isSticky k = true) : ¬ Contributes S F t s k := by
  rintro ⟨-, -, hk', -⟩
  rw [hk] at hk'
  cases hk'

/-- Nothing is contributed to a node that is no bag but what its type reaches. -/
theorem mem_closure_of_contributes (ht : S.isBag t.type = false) (hc : Contributes S F t s k) :
    k ∈ S.closure t.type := by
  obtain ⟨-, -, -, hs, hst⟩ := hc
  have hbag : ∀ {u}, u = t.type → S.isBag u ≠ true := by
    rintro u rfl
    rw [ht]
    exact Bool.false_ne_true
  rcases hst with heq | hb | hmem
  · exact heq ▸ hs.resolve_left (hbag heq)
  · exact absurd hb (hbag rfl)
  · exact hmem

/-- A node that is in a slot where there was none is new. -/
theorem Laid.fresh (h : Laid S F G t sources) (hF : Coherent S F) (ht : F.knows t = true)
    (hc : F.child? t k = none) (hd : G.child? t k = some d) :
    F.knows d = false ∧ G.owner? d = some (F.rootOf t) := by
  have htop := hF.isTop_rootOf ht
  obtain ⟨htG, htc⟩ := h.grows t ht
  have hroot : G.rootOf t = F.rootOf t := by rw [rootOf, rootOf, owner?, owner?, htc]
  have htopG : G.IsTop (F.rootOf t) := hroot ▸ h.coherent.isTop_rootOf htG
  have hdG : G.child? (F.rootOf t) k = some d := by rwa [h.coherent.child?_rootOf htG, hroot] at hd
  obtain ⟨-, -, howner⟩ := h.coherent.slot htopG hdG
  refine ⟨Bool.eq_false_iff.mpr fun hdk => ?_, howner⟩
  -- A node that was there before is in the slot that it was in before, which is another one.
  have hdo : F.owner? d = some (F.rootOf t) := by rwa [owner?, ← (h.grows d hdk).2]
  obtain ⟨c, hdc⟩ := hF.listed hdk (fun hf => hf) hdo
  have hdc' : G.child? (F.rootOf t) c = some d := by
    have hkept := h.occupant ((hF.child?_rootOf ht c).trans hdc)
    rwa [h.coherent.child?_rootOf htG, hroot] at hkept
  obtain rfl := h.coherent.slot_inj htopG hdG hdc'
  rw [hF.child?_rootOf ht, hdc] at hc
  cases hc

/-- **What a row of sources does to a tree.** -/
theorem layered_overlayAll (h : Coherent S F) (ht : F.knows t = true) (hf : F.isFrozen t = false)
    (hs : ∀ s ∈ sources, F.knows s = true) :
    Layered S F (sources.foldl (fun F s => F.overlay S t s) F) t sources := by
  have hplaces : ∀ s ∈ F.foreign t sources, F.knows s = true ∧ F.place s ≠ F.place t := fun s hsm =>
    place_of_mem_foreign h ht hs hsm
  have hlaid := Laid.overlayAll h ht hplaces
  have hnone : ∀ {k}, (∀ s ∈ sources, ¬ Contributes S F t s k) →
      F.givenAll S t.type (F.foreign t sources) k = none := givenAll_foreign_eq_none_iff.mpr
  have hagain := hlaid.again ht hplaces
  have hsame := fun G (hG : Coherent S G) hgrows => overlayAll_foreign h hG hgrows ht hs
  rw [hsame F h (Grows.refl F)]
  generalize (F.foreign t sources).foldl (fun F s => F.overlay S t s) F = G at *
  have hcell : ∀ {n}, F.knows n = true → G.cell n = F.cell n := fun hn => (hlaid.grows _ hn).2
  have howner : ∀ {n}, F.knows n = true → G.owner? n = F.owner? n := fun hn => congrArg Cell.owner? (hcell hn)
  have hroot : ∀ {n}, F.knows n = true → G.rootOf n = F.rootOf n := fun hn => by
    rw [rootOf, rootOf, howner hn]
  have hkept : ∀ {k}, (∀ s ∈ sources, ¬ Contributes S F t s k) → G.explicit? t k = F.explicit? t k := by
    intro k hk
    refine explicit?_of_same_outline h hlaid.coherent ?_ fun d hd => hlaid.occupant hd
    rw [hlaid.outline, hnone hk, Option.none_or]
  constructor
  case last =>
    rintro before s after k rfl hc hlast hk
    refine explicit?_of_outline?_eq h hlaid.coherent hk ?_
    have hsome : (F.outline? s k).isSome = true := by rw [← has_eq_isSome_outline?]; exact hc.2.1
    rw [hlaid.outline, givenAll_foreign_of_last hc hlast, Option.or_of_isSome hsome]
  case kept => exact hkept
  case slot =>
    intro k hk
    rw [has_eq_isSome_outline?, hlaid.outline, Option.isSome_or, Bool.or_eq_true,
      ← has_eq_isSome_outline?, or_comm, Option.isSome_iff_ne_none, ne_eq, givenAll_foreign_eq_none_iff]
    simp only [not_forall, not_not, exists_prop]
  case occupant =>
    intro k d hd
    refine ⟨hlaid.occupant hd, ?_⟩
    rw [h.child?_rootOf ht] at hd
    obtain ⟨hdk, -, hdo⟩ := h.slot (h.isTop_rootOf ht) hd
    rw [howner hdk, hdo]
  case filled => exact fun hc hd => hlaid.fresh h ht hc hd
  case sticky => exact fun hk => hkept fun s _ => not_contributes_of_sticky hk
  case unknown => exact fun hb k hk => hkept fun s _ hc => hk (mem_closure_of_contributes hb hc)
  case aside =>
    intro n hn hne
    have hp := h.place_ne_of_rootOf_ne ht hn hne
    exact ⟨(hlaid.grows n hn).1, howner hn, hroot hn, hlaid.grows.isFrozen h hn, hlaid.apart hn hp⟩
  case within =>
    intro n hn
    obtain ⟨hnk, hp⟩ := h.place_eq_of_rootOf_eq ht hn
    refine ⟨congrArg F.storeAt hp, ?_⟩
    rw [storeOf, storeOf, place, place, hcell hnk, hcell ht]
    exact congrArg G.storeAt hp
  case standing =>
    exact fun hn => ⟨(hlaid.grows _ hn).1, howner hn, hroot hn, hlaid.grows.isFrozen h hn⟩
  case again =>
    rw [applyAll_of_unfrozen ((hlaid.grows.isFrozen h ht).trans hf), hsame G hlaid.coherent hlaid.grows, hagain]

end Forest

namespace Session

open Forest

variable {W : Session τ κ} {t : Node τ} {sources : List (Node τ)}

/-- **The exact effect of layering**, on any unfrozen node and for any row of sources. -/
theorem layered_of_applyAll (h : Reachable S W) (ht : W.forest.knows t = true)
    (hf : W.forest.isFrozen t = false) (hs : ∀ s ∈ sources, W.forest.knows s = true) :
    ∃ G, W.forest.applyAll S t sources = (.ok (), G) ∧ Layered S W.forest G t sources :=
  ⟨_, applyAll_of_unfrozen hf sources, layered_overlayAll h.orderly.coherent ht hf hs⟩

/-- A bag is laid over the node in the right slot of a tree, after the root of that very tree. -/
theorem layered_stacked :
    (Reachable catalog stacked ∧ stacked.forest.knows ⟨3, .tree⟩ = true ∧
      stacked.forest.isFrozen ⟨3, .tree⟩ = false ∧
      ∀ s ∈ [⟨2, .tree⟩, ⟨1, .bag⟩], stacked.forest.knows s = true) ∧
    ∃ G, stacked.forest.applyAll catalog ⟨3, .tree⟩ [⟨2, .tree⟩, ⟨1, .bag⟩] = (.ok (), G) ∧
      Layered catalog stacked.forest G ⟨3, .tree⟩ [⟨2, .tree⟩, ⟨1, .bag⟩] :=
  ⟨⟨reachable_stacked, by decide, by decide, by decide⟩,
    layered_of_applyAll reachable_stacked (by decide) (by decide) (by decide)⟩

theorem contributes_stacked :
    Contributes catalog stacked.forest ⟨2, .tree⟩ ⟨1, .bag⟩ (.specimen .label) := by
  have hreach : catalog.reaches .tree (.specimen .label) = true := Schema.reaches_of_mem_declared _ (by decide)
  exact ⟨by decide, by decide, rfl, Or.inl rfl, Or.inr (Or.inr (of_decide_eq_true hreach))⟩

/-- **A source in the tree itself changes with the tree.** The node in the right slot contributes nothing when it
is laid over its root, but it shows the label of the root, and the bag that follows it changes that. -/
theorem source_changes_stacked :
    Reachable catalog stacked ∧ stacked.forest.knows ⟨2, .tree⟩ = true ∧
      stacked.forest.isFrozen ⟨2, .tree⟩ = false ∧
      (∀ s ∈ [⟨3, .tree⟩, ⟨1, .bag⟩], stacked.forest.knows s = true) ∧
      ∃ G, stacked.forest.applyAll catalog ⟨2, .tree⟩ [⟨3, .tree⟩, ⟨1, .bag⟩] = (.ok (), G) ∧
        ∃ s ∈ [⟨3, .tree⟩, ⟨1, .bag⟩],
          stacked.forest.explicit? s (.specimen .label) = some (.text "high") ∧
          G.explicit? s (.specimen .label) = some (.text "low") := by
  have hlayered : Layered catalog stacked.forest _ ⟨2, .tree⟩ [⟨3, .tree⟩, ⟨1, .bag⟩] :=
    layered_overlayAll reachable_stacked.orderly.coherent (by decide) (by decide) (by decide)
  refine ⟨reachable_stacked, by decide, by decide, by decide, _, applyAll_of_unfrozen (by decide) _, ⟨3, .tree⟩,
    List.mem_cons_self .., rfl, ?_⟩
  have hrow : [(⟨3, .tree⟩ : Node NodeType), ⟨1, .bag⟩] = [⟨3, .tree⟩] ++ ⟨1, .bag⟩ :: [] := rfl
  have hlast := hlayered.last hrow contributes_stacked (fun _ hs => nomatch hs) rfl
  have hwithin := (hlayered.within (n := ⟨3, .tree⟩) (by decide)).2
  rw [explicit?, hwithin]
  exact hlast

end Session

end LayeredConfig
