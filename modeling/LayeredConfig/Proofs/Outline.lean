import LayeredConfig.Proofs.Session

/-!
# What layering leaves in a store

To take an entry over writes a leaf, or makes sure that there is some node in a slot; which node that is does
not depend on the entry. So layering is described by *outlines*, which tell a leaf with its value from a slot
that is taken, and keep quiet about the node in it. The outline of a tree with a source laid over it is what
the source gives, and the outline from before where it gives nothing (`outline?_overlay`); and a row of
sources gives what the last one gives that gives anything (`outline?_overlayAll`).
-/

namespace LayeredConfig

variable {τ κ : Type} [DecidableEq τ] [DecidableEq κ]

/-- What is stored under a key, of a node no more than that there is one. -/
inductive Outline (τ : Type) where
  | leaf (v : Value τ)
  | slot

def Value.outline : Value τ → Outline τ
  | .node _ => .slot
  | v => .leaf v

omit [DecidableEq τ] in
theorem Value.outline_leaf {v : Value τ} (h : v.node? = none) : v.outline = .leaf v := by
  cases v <;> first | rfl | cases h

namespace Schema

variable (S : Schema τ κ)

/-- Whether a source of one type may give a key to a target of another, if it stores it. -/
def offers (target source : τ) (k : κ) : Bool :=
  !S.isSticky k && (S.isBag source || S.reaches source k) &&
    (decide (target = source) || S.isBag target || S.reaches target k)

variable {S}

omit [DecidableEq τ] in
theorem lookup_stored (s : Store κ (Value τ)) (ks : List κ) (k : κ) :
    (ks.filterMap fun c => (s.get? c).map (c, ·)).lookup k = if k ∈ ks then s.get? k else none := by
  induction ks with
  | nil => rfl
  | cons c ks ih =>
      cases hc : s.get? c with
      | none =>
          rw [List.filterMap_cons, hc, Option.map_none, ih]
          by_cases hk : k = c
          · simp [hk, hc]
          · simp [hk]
      | some v =>
          rw [List.filterMap_cons, hc, Option.map_some]
          show ((c, v) :: _).lookup k = _
          rw [Store.lookup_cons_eq, ih]
          by_cases hk : k = c
          · simp [hk, hc]
          · simp [hk]

/-- A source contributes what it may give and stores. -/
theorem lookup_contribution (t : τ) (source : View τ κ) (k : κ) :
    (S.contribution t source).lookup k =
      if S.offers t source.type k = true then source.store.get? k else none := by
  have hmem : k ∈ S.offered t source ↔
      S.offers t source.type k = true ∧ (S.isBag source.type = true → source.store.contains k = true) := by
    rw [offered, List.mem_filter, offers]
    cases hb : S.isBag source.type with
    | true => simp [mem_storedKeys, and_comm]
    | false => simp [reaches, and_assoc, and_left_comm]
  rw [contribution, lookup_stored]
  by_cases ho : S.offers t source.type k = true
  · rw [if_pos ho]
    cases hk : source.store.get? k with
    | none => exact ite_self _
    | some v => exact if_pos (hmem.mpr ⟨ho, fun _ => by rw [Store.contains, hk]; rfl⟩)
  · rw [if_neg ho, if_neg fun h => ho (hmem.mp h).1]

theorem nodup_keys_contribution (t : τ) (source : View τ κ) :
    ((S.contribution t source).map Prod.fst).Nodup := by
  refine ((keys_stored_sublist source.store _).trans List.filter_sublist).nodup ?_
  split
  · exact (Sorting.sortBy_perm _ _).nodup_iff.mpr source.store.nodup_keys
  · exact S.nodup_closure source.type

/-- A bag is given all that any target might be given, and gives a target what the source would have given. -/
theorem offers_eq {bag : τ} (hbag : S.isBag bag = true) (target source : τ) (k : κ) :
    S.offers target source k = (S.offers bag source k && S.offers target bag k) := by
  simp only [offers, hbag, Bool.true_or, Bool.or_true, Bool.and_true]
  cases hb : S.isBag target with
  | true => cases S.isSticky k <;> simp
  | false =>
      have hne : target ≠ bag := by
        rintro rfl
        rw [hbag] at hb
        cases hb
      by_cases hts : target = source
      · -- Between nodes of one type, what the source gives its own type knows.
        subst hts
        cases S.isSticky k <;> cases S.reaches target k <;> simp [hb, hne]
      · cases S.isSticky k <;> simp [hts, hne]

omit [DecidableEq τ] in
theorem closure_bag {t : τ} (hb : S.isBag t = true) : S.closure t = [] := by
  have hdeclared : S.declared t = [] := by
    rw [declared, hb, S.own_bag t hb]
    rfl
  rw [closure, hdeclared, walk_nil]

end Schema

namespace Forest

variable {S : Schema τ κ} {F G : Forest τ κ} {n m s : Node τ} {c k : κ} {t : τ}

/-- The outline of what is stored under a key. -/
def outline? (F : Forest τ κ) (n : Node τ) (k : κ) : Option (Outline τ) := (F.explicit? n k).map Value.outline

theorem has_eq_isSome_outline? (F : Forest τ κ) (n : Node τ) (k : κ) :
    F.has n k = (F.outline? n k).isSome := by
  rw [outline?, Option.isSome_map]
  rfl

/-- Under a leaf the outline is what is stored. -/
theorem outline?_leaf (h : Coherent S F) (hk : S.slotType? k = none) (n : Node τ) :
    F.outline? n k = (F.explicit? n k).map .leaf := by
  cases hv : F.explicit? n k with
  | none => rw [outline?, hv]; rfl
  | some v =>
      have hty := h.typed hv
      rw [hk, Option.map_eq_none_iff] at hty
      rw [outline?, hv, Option.map_some, Option.map_some, Value.outline_leaf hty]

theorem outline?_slot (h : Coherent S F) (hk : S.slotType? k = some t) (n : Node τ) :
    F.outline? n k = if F.has n k = true then some .slot else none := by
  cases hv : F.explicit? n k with
  | none => rw [outline?, hv, has_eq_false_iff.mpr hv]; rfl
  | some v =>
      have hty := h.typed hv
      rw [hk, Option.map_eq_some_iff] at hty
      obtain ⟨d, hd, -⟩ := hty
      have hhas : F.has n k = true := by rw [has_eq_isSome_outline?, outline?, hv]; rfl
      rw [outline?, hv, hhas, node?_eq_some.mp hd]
      rfl

/-- What has one outline stores the same leaves. -/
theorem explicit?_of_outline?_eq (hF : Coherent S F) (hG : Coherent S G) (hk : S.slotType? k = none)
    (h : G.outline? m k = F.outline? n k) : G.explicit? m k = F.explicit? n k := by
  rw [outline?_leaf hF hk, outline?_leaf hG hk] at h
  exact Option.map_injective (fun _ _ e => Outline.leaf.inj e) h

theorem outline?_congr (h : G.storeOf m = F.storeOf n) (k : κ) : G.outline? m k = F.outline? n k := by
  rw [outline?, outline?, explicit?, explicit?, h]

/-! ## One entry -/

theorem outline?_put (n : Node τ) (c : κ) (v : Value τ) (k : κ) :
    (F.put n c v).outline? n k = if k = c then some v.outline else F.outline? n k := by
  rw [outline?, explicit?_put]
  by_cases hk : k = c
  · rw [if_pos ⟨rfl, hk⟩, if_pos hk, Option.map_some]
  · rw [if_neg fun h => hk h.2, if_neg hk]
    rfl

/-- A slot is taken after it is filled, and nothing else has changed. -/
theorem outline?_fill (h : Coherent S F) (hn : F.knows n = true) (ht : S.slotType? c = some t) (k : κ) :
    (F.fill n c t).outline? n k = if k = c then some .slot else F.outline? n k := by
  unfold fill
  cases hc : F.has n c with
  | true =>
      rw [if_pos rfl]
      split
      · next hk => rw [hk, outline?_slot h ht, if_pos hc]
      · rfl
  | false =>
      have hne : n ≠ ⟨F.next, t⟩ := by
        rintro rfl
        rw [h.fresh t] at hn
        cases hn
      have hp : F.advance.place n = F.advance.place (F.rootOf n) := h.place_rootOf hn
      rw [if_neg Bool.false_ne_true, outline?, explicit?_settle, if_pos (Or.inr hp)]
      split
      · rfl
      · show (F.explicit? (F.rootOf n) k).map Value.outline = _
        rw [← h.explicit?_rootOf hn]
        rfl

theorem outline?_takeOver (h : Coherent S F) (hn : F.knows n = true) {e : κ × Value τ}
    (he : e.2.node?.map Node.type = S.slotType? e.1) (k : κ) :
    (takeOver n F e).outline? n k = if k = e.1 then some e.2.outline else F.outline? n k := by
  rcases entry_cases e with ⟨c, d, rfl⟩ | hleaf
  · exact outline?_fill h hn he.symm k
  · rw [takeOver_leaf n F hleaf, outline?_put]

theorem outline?_takeOverAll (h : Coherent S F) (hn : F.knows n = true) {es : List (κ × Value τ)}
    (hk : (es.map Prod.fst).Nodup) (he : ∀ e ∈ es, e.2.node?.map Node.type = S.slotType? e.1) (k : κ) :
    (es.foldl (takeOver n) F).outline? n k = ((es.lookup k).map Value.outline).or (F.outline? n k) := by
  induction es generalizing F with
  | nil => rfl
  | cons e es ih =>
      obtain ⟨c, v⟩ := e
      rw [List.map_cons, List.nodup_cons] at hk
      obtain ⟨hG, hnG⟩ := h.takeOver hn (he _ (List.mem_cons_self ..))
      rw [List.foldl_cons, ih hG hnG hk.2 fun e' he' => he e' (List.mem_cons_of_mem _ he'),
        outline?_takeOver h hn (he _ (List.mem_cons_self ..)), Store.lookup_cons_eq]
      by_cases hkc : k = c
      · -- No later entry is under this key.
        have hnone : es.lookup k = none := by
          rw [List.lookup_eq_none_iff]
          intro e' he'
          rw [bne_iff_ne]
          intro hke
          exact hk.1 (List.mem_map.mpr ⟨e', he', hke.symm.trans hkc⟩)
        rw [if_pos hkc, if_pos hkc, hnone]
        rfl
      · rw [if_neg hkc, if_neg hkc]

/-! ## One source, and many -/

/-- What a source gives to a target of a type. -/
def given (S : Schema τ κ) (F : Forest τ κ) (target : τ) (source : Node τ) (k : κ) : Option (Outline τ) :=
  if S.offers target source.type k = true then F.outline? source k else none

/-- What some sources give, one laid over the other. -/
def givenAll (S : Schema τ κ) (F : Forest τ κ) (target : τ) : List (Node τ) → κ → Option (Outline τ)
  | [], _ => none
  | s :: sources, k => (F.givenAll S target sources k).or (F.given S target s k)

theorem given_congr (h : G.storeOf s = F.storeOf s) (target : τ) (k : κ) :
    G.given S target s k = F.given S target s k := by
  rw [given, given, outline?_congr h]

theorem givenAll_congr {sources : List (Node τ)} (h : ∀ s ∈ sources, G.storeOf s = F.storeOf s) (target : τ)
    (k : κ) : G.givenAll S target sources k = F.givenAll S target sources k := by
  induction sources with
  | nil => rfl
  | cons s sources ih =>
      rw [givenAll, givenAll, ih fun s' hs' => h s' (List.mem_cons_of_mem _ hs'),
        given_congr (h s (List.mem_cons_self ..))]

theorem givenAll_append (target : τ) (first second : List (Node τ)) (k : κ) :
    F.givenAll S target (first ++ second) k =
      (F.givenAll S target second k).or (F.givenAll S target first k) := by
  induction first with
  | nil => exact (Option.or_none ..).symm
  | cons s first ih => rw [List.cons_append, givenAll, ih, givenAll, Option.or_assoc]

/-- **A tree with a source laid over it.** -/
theorem outline?_overlay (h : Coherent S F) (hn : F.knows n = true) (source : Node τ) (k : κ) :
    (F.overlay S n source).outline? n k = (F.given S n.type source k).or (F.outline? n k) := by
  unfold overlay
  by_cases hns : n = source
  · subst hns
    rw [if_pos rfl, given]
    split
    · rw [Option.or_self]
    · rfl
  · have hlookup : (S.contribution n.type (F.view source)).lookup k =
        if S.offers n.type source.type k = true then F.explicit? source k else none :=
      Schema.lookup_contribution _ _ _
    rw [if_neg hns, outline?_takeOverAll h hn (Schema.nodup_keys_contribution _ _)
      fun e he => h.typed (get?_of_mem_contribution he), hlookup, given]
    split <;> rfl

/-- A slot that is taken keeps its node. -/
theorem child?_takeOver_of_some (h : Coherent S F) (hn : F.knows n = true) {d : Node τ}
    (hd : F.child? n k = some d) {e : κ × Value τ} (he : e.2.node?.map Node.type = S.slotType? e.1) :
    (takeOver n F e).child? n k = some d := by
  rcases entry_cases e with ⟨c, m, rfl⟩ | hleaf
  · show (F.fill n c m.type).child? n k = some d
    unfold fill
    cases hc : F.has n c with
    | true => exact hd
    | false =>
        have hkc : k ≠ c := by
          rintro rfl
          rw [child?_eq, has_eq_false_iff.mp hc] at hd
          cases hd
        have hp : F.advance.place n = F.advance.place (F.rootOf n) := h.place_rootOf hn
        rw [if_neg Bool.false_ne_true, child?_eq, explicit?_settle, if_pos (Or.inr hp), if_neg hkc]
        rw [h.child?_rootOf hn] at hd
        exact hd
  · have hke : k ≠ e.1 := by
      rintro rfl
      rw [hleaf, h.type_of_child hd] at he
      cases he
    rw [takeOver_leaf n F hleaf, child?_eq, explicit?_put, if_neg fun hand => hke hand.2]
    exact hd

/-- `H` is `F` with some sources laid over the node `n`. -/
structure Laid (S : Schema τ κ) (F H : Forest τ κ) (n : Node τ) (sources : List (Node τ)) : Prop where
  coherent : Coherent S H
  grows : Grows F H
  /-- What does not share the store of `n` is only read. -/
  apart : ∀ {m}, F.knows m = true → F.place m ≠ F.place n → H.storeOf m = F.storeOf m
  outline : ∀ k, H.outline? n k = (F.givenAll S n.type sources k).or (F.outline? n k)
  /-- A slot that was taken keeps its node. -/
  occupant : ∀ {k d}, F.child? n k = some d → H.child? n k = some d

namespace Laid

variable {H : Forest τ κ} {sources more : List (Node τ)}

theorem refl (h : Coherent S F) (n : Node τ) : Laid S F F n [] :=
  ⟨h, Grows.refl F, fun _ _ => rfl, fun _ => rfl, fun hd => hd⟩

theorem overlay (h : Coherent S F) (hn : F.knows n = true) (source : Node τ) :
    Laid S F (F.overlay S n source) n [source] where
  coherent := (h.overlay hn source).1
  grows := Grows.overlay h hn source
  apart := by
    intro m hm hp
    have hkeeps := Keeps.overlay h hn (Ne.symm hp) source
    rw [storeOf, hkeeps.place hm rfl, hkeeps.store]
    rfl
  outline := outline?_overlay h hn source
  occupant := by
    intro k d hd
    have hgoal : (Coherent S (F.overlay S n source) ∧ (F.overlay S n source).knows n = true) ∧
        (F.overlay S n source).child? n k = some d := by
      refine overlay_induction (P := fun G => (Coherent S G ∧ G.knows n = true) ∧ G.child? n k = some d) h
        source ⟨⟨h, hn⟩, hd⟩ ?_
      rintro G e he ⟨⟨hG, hnG⟩, hdG⟩
      exact ⟨hG.takeOver hnG he, child?_takeOver_of_some hG hnG hdG he⟩
    exact hgoal.2

/-- What is laid over a tree later lies on top, as long as it is not read from the tree itself. -/
theorem trans (h : Laid S F G n sources) (h' : Laid S G H n more) (hn : F.knows n = true)
    (hmore : ∀ s ∈ more, F.knows s = true ∧ F.place s ≠ F.place n) : Laid S F H n (sources ++ more) where
  coherent := h'.coherent
  grows := h.grows.trans h'.grows
  apart := by
    intro m hm hp
    obtain ⟨hmk, hmp⟩ := h.grows.apart hn ⟨hm, hp⟩
    exact (h'.apart hmk hmp).trans (h.apart hm hp)
  outline := by
    intro k
    have hread : ∀ s ∈ more, G.storeOf s = F.storeOf s := fun s hs => h.apart (hmore s hs).1 (hmore s hs).2
    rw [h'.outline, h.outline, givenAll_congr hread, givenAll_append, Option.or_assoc]
  occupant := fun hd => h'.occupant (h.occupant hd)

/-- **A tree with some sources laid over it, one after the other.** -/
theorem overlayAll (h : Coherent S F) (hn : F.knows n = true)
    (hs : ∀ s ∈ sources, F.knows s = true ∧ F.place s ≠ F.place n) :
    Laid S F (sources.foldl (fun F s => F.overlay S n s) F) n sources := by
  induction sources generalizing F with
  | nil => exact refl h n
  | cons s sources ih =>
      have hfirst := overlay h hn s
      have hknown := (hfirst.grows n hn).1
      have hrest : ∀ m ∈ sources, F.knows m = true ∧ F.place m ≠ F.place n := fun m hm =>
        hs m (List.mem_cons_of_mem _ hm)
      exact hfirst.trans (ih hfirst.coherent hknown fun m hm => hfirst.grows.apart hn (hrest m hm)) hn hrest

end Laid

/-! ## New nodes -/

omit [DecidableEq τ] in
theorem mem_keys_slotsOf : k ∈ (S.slotsOf t).map Prod.fst ↔ S.reaches t k = true ∧ S.isSlot k = true := by
  rw [List.mem_map, Schema.reaches, decide_eq_true_eq, Schema.isSlot]
  constructor
  · rintro ⟨e, he, rfl⟩
    have hslot := slotType?_of_mem_slotsOf he
    rw [Schema.slotsOf, List.mem_filterMap] at he
    obtain ⟨c, hc, hce⟩ := he
    obtain ⟨u, -, rfl⟩ := Option.map_eq_some_iff.mp hce
    exact ⟨hc, by rw [hslot]; rfl⟩
  · rintro ⟨hk, hslot⟩
    obtain ⟨u, hu⟩ := Option.isSome_iff_exists.mp hslot
    exact ⟨(k, u), List.mem_filterMap.mpr ⟨k, hk, by rw [hu]; rfl⟩, rfl⟩

theorem outline?_fillAll (h : Coherent S F) (hn : F.knows n = true) {es : List (κ × τ)}
    (he : ∀ e ∈ es, S.slotType? e.1 = some e.2) (k : κ) :
    (es.foldl (fun F e => F.fill n e.1 e.2) F).outline? n k =
      if k ∈ es.map Prod.fst then some .slot else F.outline? n k := by
  induction es generalizing F with
  | nil => rfl
  | cons e es ih =>
      have hslot := he e (List.mem_cons_self ..)
      have hrest := ih (h.fill hn hslot) (knows_fill hn) fun e' he' => he e' (List.mem_cons_of_mem _ he')
      rw [List.foldl_cons, hrest, outline?_fill h hn hslot]
      by_cases hes : k ∈ es.map Prod.fst
      · simp [hes]
      · by_cases hk : k = e.1 <;> simp [hes, hk]

/-- A new tree stores nodes in the slots that its type knows, and nothing else. -/
theorem outline?_create (h : Coherent S F) (t : τ) (k : κ) :
    (F.create S t).1.outline? (F.create S t).2 k =
      if S.reaches t k = true ∧ S.isSlot k = true then some .slot else none := by
  have hempty : (F.bare t).1.outline? (F.bare t).2 k = none := by
    rw [outline?, bare, explicit?_plant_self]
    rfl
  have hslots : ∀ e ∈ S.slotsOf t, S.slotType? e.1 = some e.2 := fun _ he => slotType?_of_mem_slotsOf he
  have hfill := outline?_fillAll (h.bare t) (isTop_bare F t).known hslots k
  rw [hempty] at hfill
  refine hfill.trans ?_
  simp only [mem_keys_slotsOf]

/-- A copy of a node that is no bag stores nothing but what its type knows. -/
theorem reaches_of_has_unfreezeCopy {copy : Node τ} (h : Coherent S F) (hb : S.isBag n.type = false)
    (hcopy : F.unfreezeCopy S n = (.ok copy, G)) (hk : G.has copy k = true) : S.reaches n.type k = true := by
  obtain ⟨rfl, rfl⟩ := eq_of_unfreezeCopy_ok hcopy
  obtain ⟨hcreate, hknown⟩ := h.create n.type
  rw [has_eq_isSome_outline?, outline?_overlay hcreate hknown, outline?_create h, given, Schema.offers] at hk
  cases hr : S.reaches n.type k with
  | true => rfl
  | false => simp [hr, hb] at hk

end Forest

end LayeredConfig
