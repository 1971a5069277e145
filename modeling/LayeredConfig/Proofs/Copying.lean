import LayeredConfig.Proofs.Jobs
import LayeredConfig.Proofs.Layering
import LayeredConfig.Proofs.Paths
import LayeredConfig.Proofs.Reordering
import LayeredConfig.Proofs.Showing

/-!
# What an unfrozen copy is

A copy is made by two enumerations that know nothing of each other: a new tree of the type fills every slot
that the type reaches, and the merge then picks what is not sticky. What comes out is described here by what
the copy stores, and by what it shows.

* `Copying`: the forest with a copy in it, and what the copy stores, key by key;
* `Schema.Carried`: two views of one type that store the same leaves, sticky ones apart, and list the same
  characteristics. If derivations read nothing else (`Schema.ReadsCarried`), both show the same;
* `FreshCopy` and `freshCopy_of_unfreezeCopy`: what a copy is. Slots that the root has lost are there again,
  what is sticky or unknown to the type is gone, and none of it shows.

A bag lists what it stores by name, and entries of one name in the order in which they came in. Its copy takes
the entries over in just that order, so that it lists them alike (`keys_overlay_create_bag`).
-/

namespace LayeredConfig

variable {τ κ : Type} [DecidableEq τ] [DecidableEq κ]

/-! ## What is carried over -/

namespace Schema

variable (S : Schema τ κ)

/-- Whether a copy of a node of the type takes a leaf over: every leaf that is not sticky and that the type
reaches, or any that is not sticky if the node is a bag. -/
def carries (t : τ) (k : κ) : Bool := !S.isSticky k && !S.isSlot k && (S.isBag t || S.reaches t k)

/-- The derivations of what a node of the type presents read nothing but leaves that are carried over, that is
what the type reaches and is not sticky; those of a bag may read any leaf that is not sticky. -/
def ReadsCarried (t : τ) : Prop :=
  ∀ {k f}, S.carries t k = true → S.isPresentable false k = true →
    (S.characteristic k).resolution = .derived f →
    ∀ {R R' : Reading τ κ}, R.type = t → R'.type = t →
      (∀ c, S.carries t c = true → R'.stored c = R.stored c) → ∀ raw, f R' raw = f R raw

/-- Two views of one type that list the same characteristics and store the same leaves, as far as copies take
them over. -/
structure Carried (v w : View τ κ) : Prop where
  type : w.type = v.type
  leaf : ∀ {k}, S.carries v.type k = true → w.store.get? k = v.store.get? k
  listed : (S.withValues w).filter (S.isPresentable false) = (S.withValues v).filter (S.isPresentable false)

variable {S}

omit [DecidableEq τ] in
/-- What is presented and not sticky is carried over. -/
theorem carries_of_listed {v : View τ κ} {k : κ} (hk : k ∈ (S.withValues v).filter (S.isPresentable false)) :
    S.carries v.type k = true := by
  obtain ⟨hmem, hpres⟩ := List.mem_filter.mp hk
  simp only [isPresentable, Bool.and_eq_true, Bool.or_eq_true, Bool.not_eq_true', Bool.false_eq_true,
    false_or] at hpres
  obtain ⟨⟨hslot, -⟩, hsticky⟩ := hpres
  rw [carries, hsticky, hslot]
  cases hb : S.isBag v.type with
  | true => rfl
  | false =>
      rw [withValues, if_neg (by simp [hb]), List.mem_filter] at hmem
      exact decide_eq_true hmem.1

omit [DecidableEq τ] in
theorem Carried.listedAlike {v w : View τ κ} (h : S.Carried v w) :
    S.ListedAlike (fun k => S.carries v.type k = true) v w :=
  ⟨h.type, h.leaf, h.listed, carries_of_listed⟩

omit [DecidableEq τ] in
/-- Views of one type that is no bag list the same if they store the same leaves. -/
theorem carried_of_leaf {v w : View τ κ} (ht : w.type = v.type) (hb : S.isBag v.type = false)
    (hleaf : ∀ {k}, S.carries v.type k = true → w.store.get? k = v.store.get? k) : S.Carried v w where
  type := ht
  leaf := hleaf
  listed := by
    rw [withValues, withValues, ht, if_neg (by simp [hb]), if_neg (by simp [hb]), List.filter_filter,
      List.filter_filter]
    refine List.filter_congr fun k hk => ?_
    cases hp : S.isPresentable false k with
    | false => rw [Bool.false_and, Bool.false_and]
    | true =>
        rw [isPresentable, Bool.false_or, Bool.and_eq_true, Bool.and_eq_true] at hp
        have hc : S.carries v.type k = true := by
          rw [carries, hp.1.1, hp.2, reaches, decide_eq_true hk, Bool.or_true]
          rfl
        rw [Store.contains, Store.contains, hleaf hc]

omit [DecidableEq τ] in
/-- A bag whose entries came in as another one lists them, sticky ones left out, lists the same. -/
theorem carried_of_keys {v w : View τ κ} (ht : w.type = v.type) (hb : S.isBag v.type = true)
    (hleaf : ∀ {k}, S.carries v.type k = true → w.store.get? k = v.store.get? k)
    (hkeys : w.store.keys = (S.storedKeys v.store).filter fun k => !S.isSticky k) : S.Carried v w where
  type := ht
  leaf := hleaf
  listed := by
    have hsorted : (S.storedKeys v.store).Pairwise fun a b => S.precedes a b = true :=
      Sorting.pairwise_sortBy precedes_total precedes_trans _
    have hstored : S.storedKeys w.store = (S.storedKeys v.store).filter fun k => !S.isSticky k := by
      rw [storedKeys, hkeys, Sorting.sortBy_of_pairwise (hsorted.filter _)]
    rw [withValues, withValues, ht, if_pos hb, if_pos hb, hstored, List.filter_filter]
    refine List.filter_congr fun k _ => ?_
    cases hs : S.isSticky k <;> simp [isPresentable, hs]

end Schema

/-! ## The keys of a copied bag -/

theorem Store.keys_insert_of_notMem {ν : Type} {s : Store κ ν} {k : κ} (hk : k ∉ s.keys) (v : ν) :
    (s.insert k v).keys = s.keys ++ [k] := by
  show (Store.put k v s.entries).map Prod.fst = s.entries.map Prod.fst ++ [k]
  rw [Store.map_fst_put]
  exact if_neg hk

omit [DecidableEq τ] in
theorem Schema.map_fst_stored {s : Store κ (Value τ)} {ks : List κ} (h : ∀ k ∈ ks, s.contains k = true) :
    (ks.filterMap fun c => (s.get? c).map (c, ·)).map Prod.fst = ks := by
  induction ks with
  | nil => rfl
  | cons k ks ih =>
      obtain ⟨v, hv⟩ := Option.isSome_iff_exists.mp (h k (List.mem_cons_self ..))
      rw [List.filterMap_cons, hv, Option.map_some, List.map_cons, ih fun k' hk' => h k' (List.mem_cons_of_mem _ hk')]

/-- A bag contributes to a bag whatever it stores and is not sticky, by name. -/
theorem Schema.keys_contribution_bag {S : Schema τ κ} {t : τ} (source : View τ κ)
    (hsource : S.isBag source.type = true) (ht : S.isBag t = true) :
    (S.contribution t source).map Prod.fst =
      (S.storedKeys source.store).filter fun k => !S.isSticky k := by
  have hoffered : S.offered t source = (S.storedKeys source.store).filter fun k => !S.isSticky k := by
    simp only [offered, hsource, ht, if_true, Bool.or_true, Bool.true_or, Bool.and_true]
  rw [contribution, hoffered, map_fst_stored]
  intro k hk
  exact mem_storedKeys.mp (List.mem_filter.mp hk).1

namespace Forest

variable {S : Schema τ κ} {F G H : Forest τ κ} {n r copy d : Node τ} {k : κ} {t : τ}

theorem keys_takeOver (h : Coherent S F) (hn : F.knows n = true) {e : κ × Value τ}
    (he : e.1 ∉ (F.storeOf n).keys) : ((takeOver n F e).storeOf n).keys = (F.storeOf n).keys ++ [e.1] := by
  rcases entry_cases e with ⟨c, d, rfl⟩ | hleaf
  · have hhas : F.has n c = false := by
      rw [has, Bool.eq_false_iff, ne_eq, Store.contains_iff_mem_keys]
      exact he
    have hne : n ≠ ⟨F.next, d.type⟩ := by
      rintro rfl
      rw [h.fresh d.type] at hn
      cases hn
    have hp : F.place n = F.place (F.rootOf n) := h.place_rootOf hn
    have hstore : F.storeOf (F.rootOf n) = F.storeOf n := congrArg F.storeAt hp.symm
    show ((F.fill n c d.type).storeOf n).keys = _
    unfold fill
    rw [hhas, if_neg Bool.false_ne_true, storeOf, place_settle, if_neg hne, storeAt_settle]
    show (if F.place n = F.place (F.rootOf n) then _ else _ : Store κ (Value τ)).keys = _
    rw [if_pos hp]
    show ((F.storeOf (F.rootOf n)).insert c _).keys = _
    rw [hstore, Store.keys_insert_of_notMem he]
  · rw [takeOver_leaf n F hleaf, storeOf, place_put, storeAt_put, if_pos rfl, Store.keys_insert_of_notMem he]

/-- Entries under new keys are stored in the order in which they are taken over. -/
theorem keys_takeOverAll (h : Coherent S F) (hn : F.knows n = true) {es : List (κ × Value τ)}
    (hk : (es.map Prod.fst).Nodup) (he : ∀ e ∈ es, e.2.node?.map Node.type = S.slotType? e.1)
    (hfree : ∀ e ∈ es, e.1 ∉ (F.storeOf n).keys) :
    ((es.foldl (takeOver n) F).storeOf n).keys = (F.storeOf n).keys ++ es.map Prod.fst := by
  induction es generalizing F with
  | nil => exact (List.append_nil _).symm
  | cons e es ih =>
      rw [List.map_cons, List.nodup_cons] at hk
      obtain ⟨hG, hnG⟩ := h.takeOver hn (he e (List.mem_cons_self ..))
      have hstep := keys_takeOver h hn (hfree e (List.mem_cons_self ..))
      rw [List.foldl_cons, ih hG hnG hk.2 fun e' he' => he e' (List.mem_cons_of_mem _ he'), hstep,
        List.append_assoc, List.map_cons]
      · rfl
      · intro e' he'
        rw [hstep, List.mem_append, List.mem_singleton, not_or]
        refine ⟨hfree e' (List.mem_cons_of_mem _ he'), fun heq => hk.1 ?_⟩
        exact heq ▸ List.mem_map_of_mem he'

/-! ## The forest with a copy -/

theorem unfreezeCopy_of_root (hr : F.owner? r = none) : F.unfreezeCopy S r =
    (.ok (F.create S r.type).2, (F.create S r.type).1.overlay S (F.create S r.type).2 r) := by
  have hok : F.requireRoot S r = .ok () := by rw [requireRoot, hr]
  rw [unfreezeCopy, hok]

/-- What making a copy does: it grows a new tree, with the root laid over it. -/
structure Copying (S : Schema τ κ) (F G : Forest τ κ) (r copy : Node τ) : Prop where
  coherent : Coherent S G
  type : copy.type = r.type
  new : F.knows copy = false
  isTop : G.IsTop copy
  unfrozen : G.isFrozen copy = false
  /-- The root is only read. -/
  aside : ∀ {n}, F.knows n = true → Same F G n
  outline : ∀ k, G.outline? copy k =
    (F.given S r.type r k).or (if S.reaches r.type k = true ∧ S.isSlot k = true then some .slot else none)
  keys_bag : S.isBag r.type = true →
    (G.storeOf copy).keys = (S.storedKeys (F.storeOf r)).filter fun k => !S.isSticky k

/-- A new bag stores nothing. -/
theorem keys_create_bag (h : Coherent S F) (hb : S.isBag t = true) :
    ((F.create S t).1.storeOf (F.create S t).2).keys = [] := by
  rw [List.eq_nil_iff_forall_not_mem]
  intro k hk
  rw [← Store.contains_iff_mem_keys, ← has, has_eq_isSome_outline?, outline?_create h, Schema.reaches,
    S.closure_bag hb] at hk
  simp at hk

theorem keys_overlay_create_bag (h : Coherent S F) (hr : F.knows r = true) (hb : S.isBag r.type = true)
    (hstore : (F.create S r.type).1.storeOf r = F.storeOf r) :
    (((F.create S r.type).1.overlay S (F.create S r.type).2 r).storeOf (F.create S r.type).2).keys =
      (S.storedKeys (F.storeOf r)).filter fun k => !S.isSticky k := by
  obtain ⟨hcreate, hknown⟩ := h.create r.type
  have hne : (F.create S r.type).2 ≠ r := fun he => Bool.eq_false_iff.mp (h.fresh r.type) (he ▸ hr)
  unfold overlay
  rw [if_neg hne, keys_takeOverAll hcreate hknown (Schema.nodup_keys_contribution _ _)
    (fun e he => hcreate.typed (get?_of_mem_contribution he)) (fun e _ => by simp [keys_create_bag h hb]),
    keys_create_bag h hb, List.nil_append, ← hstore]
  exact Schema.keys_contribution_bag _ hb hb

theorem Copying.unfreezeCopy (h : Coherent S F) (hr : F.IsTop r) :
    ∃ copy G, F.unfreezeCopy S r = (.ok copy, G) ∧ Copying S F G r copy := by
  obtain ⟨hcreate, hknown⟩ := h.create r.type
  obtain ⟨-, hcell⟩ := Grows.create (S := S) h r.type
  obtain ⟨hk, hc⟩ := Grows.overlay hcreate hknown r _ hknown
  have hcopy := unfreezeCopy_of_root (S := S) hr.root
  have htop : ((F.create S r.type).1.overlay S (F.create S r.type).2 r).IsTop (F.create S r.type).2 :=
    ⟨hk, fun hf => hf, by rw [owner?, hc, hcell]⟩
  have hkept := (Keeps.create (S := S) h (h.place_lt hr.known) r.type).1
  have hstore : (F.create S r.type).1.storeOf r = F.storeOf r := by
    rw [storeOf, hkept.place hr.known rfl, hkept.store]
    rfl
  refine ⟨_, _, hcopy, ?_⟩
  constructor
  case coherent => exact (hcreate.overlay hknown r).1
  case type => rfl
  case new => exact h.fresh r.type
  case isTop => exact htop
  case unfrozen => rw [htop.isFrozen_eq, hc, hcell]
  case aside =>
    intro n hn
    have hroot := h.isTop_rootOf hn
    have hkeeps := Keeps.unfreezeCopy (S := S) h (h.place_lt hroot.known) r
    rw [hcopy] at hkeeps
    exact hkeeps.same h hroot rfl
  case outline =>
    intro k
    rw [outline?_overlay hcreate hknown, outline?_create h]
    exact congrArg (Option.or · _) (given_congr hstore r.type k)
  case keys_bag => exact fun hb => keys_overlay_create_bag h hr.known hb hstore

theorem offers_self {t : τ} : S.offers t t k = true ↔
    S.isSticky k = false ∧ (S.isBag t = true ∨ k ∈ S.closure t) := by
  rw [offers_iff]
  tauto

/-- What a copy is, and what becomes of a copy of it. -/
structure FreshCopy (S : Schema τ κ) (F G : Forest τ κ) (r copy : Node τ) : Prop
    extends Copying S F G r copy where
  /-- Of the leaves it stores those that are not sticky and that its type knows, and a bag knows all. -/
  leaf : ∀ {k}, S.slotType? k = none → G.explicit? copy k =
    if S.isSticky k = false ∧ (S.isBag r.type = true ∨ k ∈ S.closure r.type) then F.explicit? r k else none
  /-- All slots of its type are taken, whether the root had them or not. -/
  slot : S.isBag r.type = false → ∀ {k}, S.isSlot k = true → (G.has copy k = true ↔ k ∈ S.closure r.type)
  bag : S.isBag r.type = true → ∀ {k}, (G.has copy k = true ↔ S.isSticky k = false ∧ F.has r k = true)
  /-- In its slots there are new nodes of its own. -/
  occupant : ∀ {k d}, G.child? copy k = some d →
    F.knows d = false ∧ G.owner? d = some copy ∧ S.slotType? k = some d.type
  changes : G.hasChanges S copy = G.hasChanges S r
  shows : S.ReadsCarried r.type → ∀ {style : SetStyle}, style ≠ .source →
    G.present S style copy = G.present S style r
  /-- To copy the copy gives the same once more. -/
  again : ∃ copy' H, G.unfreezeCopy S copy = (.ok copy', H) ∧ ∀ k, H.outline? copy' k = G.outline? copy k

namespace Copying

variable (hc : Copying S F G r copy)

include hc

theorem explicit?_leaf (h : Coherent S F) (hk : S.slotType? k = none) : G.explicit? copy k =
    if S.isSticky k = false ∧ (S.isBag r.type = true ∨ k ∈ S.closure r.type) then F.explicit? r k else none := by
  have hslot : S.isSlot k = false := by rw [Schema.isSlot, hk]; rfl
  have houtline : G.outline? copy k = F.given S r.type r k := by
    rw [hc.outline, hslot]
    simp
  rw [given] at houtline
  by_cases ho : S.offers r.type r.type k = true
  · rw [if_pos (offers_self.mp ho)]
    rw [if_pos ho] at houtline
    exact explicit?_of_outline?_eq h hc.coherent hk houtline
  · rw [if_neg fun hand => ho (offers_self.mpr hand)]
    rw [if_neg ho, outline?, Option.map_eq_none_iff] at houtline
    exact houtline

theorem has_slot (hb : S.isBag r.type = false) (hk : S.isSlot k = true) :
    G.has copy k = true ↔ k ∈ S.closure r.type := by
  simp only [has_eq_isSome_outline?, hc.outline, hk, Schema.reaches, decide_eq_true_eq, and_true,
    Option.isSome_or, Bool.or_eq_true]
  constructor
  · rintro (hgiven | hslot)
    · rw [given] at hgiven
      split at hgiven
      · next ho => exact (offers_self.mp ho).2.resolve_left (by simp [hb])
      · cases hgiven
    · split at hslot
      · next hmem => exact hmem
      · cases hslot
  · intro hmem
    rw [if_pos hmem]
    exact Or.inr rfl

theorem has_bag (hb : S.isBag r.type = true) :
    G.has copy k = true ↔ S.isSticky k = false ∧ F.has r k = true := by
  have hreach : S.reaches r.type k = false := by
    rw [Schema.reaches, S.closure_bag hb]
    exact decide_eq_false List.not_mem_nil
  rw [has_eq_isSome_outline?, hc.outline, hreach, has_eq_isSome_outline?, given, Schema.offers, hb]
  cases S.isSticky k <;> simp

/-- A node in a slot of the copy is new: one that was there before would have had the copy as its owner. -/
theorem occupant (h : Coherent S F) (hd : G.child? copy k = some d) :
    F.knows d = false ∧ G.owner? d = some copy ∧ S.slotType? k = some d.type := by
  obtain ⟨-, -, howner⟩ := hc.coherent.slot hc.isTop hd
  refine ⟨Bool.eq_false_iff.mpr fun hdk => ?_, howner, hc.coherent.type_of_child hd⟩
  have hold : F.owner? d = some copy := (hc.aside hdk).owner.symm.trans howner
  have hknown := (h.owner hdk (fun hf => hf) hold).1.known
  rw [hc.new] at hknown
  cases hknown

/-- The copy and the root store the same as far as copies take it over, and list the same. -/
theorem carried (h : Coherent S F) (hr : F.knows r = true) : S.Carried (G.view r) (G.view copy) := by
  have hstore : G.storeOf r = F.storeOf r := (hc.aside hr).store
  have hleaf : ∀ {k}, S.carries r.type k = true → G.explicit? copy k = G.explicit? r k := by
    intro k hk
    simp only [Schema.carries, Bool.and_eq_true, Bool.or_eq_true, Bool.not_eq_true', Schema.reaches,
      decide_eq_true_eq] at hk
    rw [hc.explicit?_leaf h (Schema.slotType?_eq_none hk.1.2), if_pos ⟨hk.1.1, hk.2⟩, explicit?, explicit?, hstore]
  cases hb : S.isBag r.type with
  | false => exact Schema.carried_of_leaf hc.type hb hleaf
  | true =>
      apply Schema.carried_of_keys hc.type hb hleaf
      show (G.storeOf copy).keys = (S.storedKeys (G.storeOf r)).filter fun k => !S.isSticky k
      rw [hstore]
      exact hc.keys_bag hb

/-- A copy of the copy stores what the copy stores. -/
theorem outline?_again (h' : Copying S G H copy d) (k : κ) : H.outline? d k = G.outline? copy k := by
  rw [h'.outline, given, hc.type, hc.outline, given]
  cases S.offers r.type r.type k with
  | false => simp
  | true => simp [Option.or_assoc]

theorem freshCopy (h : Coherent S F) (hr : F.IsTop r) : FreshCopy S F G r copy where
  toCopying := hc
  leaf := hc.explicit?_leaf h
  slot := fun hb _ hk => hc.has_slot hb hk
  bag := fun hb _ => hc.has_bag hb
  occupant := hc.occupant h
  changes := (hc.carried h hr.known).listedAlike.hasChanges_eq
  shows := by
    intro hreads style hstyle
    exact (hc.carried h hr.known).listedAlike.present_eq hreads hstyle fun _ _ => rfl
  again := by
    obtain ⟨copy', H, hcopy, h'⟩ := unfreezeCopy hc.coherent hc.isTop
    exact ⟨copy', H, hcopy, hc.outline?_again h'⟩

end Copying

end Forest

/-! ## The catalogue -/

omit [DecidableEq τ] in
/-- Everything that a type reaches is declared by some type of which it reaches everything. -/
theorem Schema.declared_of_mem_closure {S : Schema τ κ} {t : τ} {k : κ} (hk : k ∈ S.closure t) :
    ∃ u, k ∈ S.declared u ∧ ∀ c ∈ S.declared u, c ∈ S.closure t := by
  obtain ⟨u, hu, hk⟩ := mem_closure_iff.mp hk
  exact ⟨u, mem_declared_iff.mpr hk, fun c hc => mem_closure_iff.mpr ⟨u, hu, mem_declared_iff.mp hc⟩⟩

namespace Key

theorem derived_cases {k : Key} {f : Reading NodeType Key → Option (Value NodeType) → Option (Value NodeType)}
    (hf : (catalog.characteristic k).resolution = .derived f) :
    (∃ g : Option (Value NodeType) → Option (Value NodeType), f = fun _ raw => g raw) ∨
      k = .specimen .picky ∧ f = picky := by
  cases k with
  | specimen s =>
      cases s with
      | doubled => exact Or.inl ⟨doubled, (Resolution.derived.inj hf).symm⟩
      | liar => exact Or.inl ⟨liar, (Resolution.derived.inj hf).symm⟩
      | picky => exact Or.inr ⟨rfl, (Resolution.derived.inj hf).symm⟩
      | _ => cases hf
  | environment e => cases e <;> cases hf
  | run e => cases e <;> cases hf
  | _ => cases hf

/-- The one field that a derivation reads is declared wherever the derivation is. -/
theorem wide_of_picky {t : NodeType} (ht : .specimen .picky ∈ catalog.declared t) :
    .specimen .wide ∈ catalog.declared t := by
  rw [Schema.mem_declared_iff] at *
  revert ht
  cases t <;> decide

/-- **No derivation of the catalogue reads anything that a copy does not take over.** -/
theorem readsCarried (t : NodeType) : catalog.ReadsCarried t := by
  intro k f hk _ hf R R' _ _ hstored raw
  rcases derived_cases hf with ⟨g, rfl⟩ | ⟨rfl, rfl⟩
  · rfl
  · have hwide : catalog.carries t (.specimen .wide) = true := by
      show (catalog.isBag t || catalog.reaches t (.specimen .wide)) = true
      rw [Bool.or_eq_true]
      rcases Bool.or_eq_true_iff.mp (Bool.and_eq_true_iff.mp hk).2 with hb | hreach
      · exact Or.inl hb
      · obtain ⟨u, hu, hall⟩ := catalog.declared_of_mem_closure (of_decide_eq_true hreach)
        exact Or.inr (decide_eq_true (hall _ (wide_of_picky hu)))
    unfold picky
    rw [hstored _ hwide]

end Key

namespace Session

open Forest

variable {S : Schema τ κ} {W : Session τ κ} {r : Node τ}

/-- In the forest of jobs and specimens a copy shows what its root shows, and goes by the same generated id. -/
structure ShowsAlike (G : Forest NodeType Key) (r copy : Node NodeType) : Prop where
  present : ∀ {style : SetStyle}, style ≠ .source → G.present catalog style copy = G.present catalog style r
  id : G.has copy .id = false
  generated : G.has r .id = false → ∀ settings, G.resolvedId settings copy = G.resolvedId settings r

theorem showsAlike {F G : Forest NodeType Key} {r copy : Node NodeType} (h : FreshCopy catalog F G r copy) :
    ShowsAlike G r copy := by
  have hpresent : ∀ {style : SetStyle}, style ≠ .source →
      G.present catalog style copy = G.present catalog style r := h.shows (Key.readsCarried r.type)
  have hid : G.has copy .id = false := by
    rw [has_eq_false_iff, h.leaf rfl]
    exact if_neg fun hand => nomatch hand.1
  refine ⟨hpresent, hid, fun hr settings => ?_⟩
  have hdisplay : G.present catalog .display copy = G.present catalog .display r := hpresent (by decide)
  rw [resolvedId, resolvedId, hid, hr, if_neg Bool.false_ne_true, if_neg Bool.false_ne_true, hdisplay]

/-- **What an unfrozen copy is**, of any root, frozen or not; and jobs and specimens have no derivation in the
way of showing what the root shows. -/
theorem freshCopy_of_unfreezeCopy (h : Reachable S W) (hr : W.forest.IsTop r) {J : Session NodeType Key}
    (hJ : JobReachable J) {j : Node NodeType} (hj : J.forest.IsTop j) :
    (∃ copy G, W.forest.unfreezeCopy S r = (.ok copy, G) ∧ FreshCopy S W.forest G r copy) ∧
    ∃ copy G, J.forest.unfreezeCopy catalog j = (.ok copy, G) ∧ FreshCopy catalog J.forest G j copy ∧
      ShowsAlike G j copy := by
  have hcoh := h.orderly.coherent
  have hcohJ := hJ.reachable.orderly.coherent
  obtain ⟨copy, G, hcopy, hc⟩ := Copying.unfreezeCopy hcoh hr
  obtain ⟨copyJ, GJ, hcopyJ, hcJ⟩ := Copying.unfreezeCopy hcohJ hj
  have hfresh := hcJ.freshCopy hcohJ hj
  exact ⟨⟨copy, G, hcopy, hc.freshCopy hcoh hr⟩, copyJ, GJ, hcopyJ, hfresh, showsAlike hfresh⟩

/-- A frozen tree without slots, with a label, an id, and a run's field that no tree knows. -/
def labelled : Session NodeType Key :=
  ⟨[.bare .tree, .set ⟨1, .tree⟩ (.specimen .label) (.text "low"), .set ⟨1, .tree⟩ .id (.text "top"),
    .set ⟨1, .tree⟩ (.run .warmupCount) (.int 9), .freeze ⟨1, .tree⟩].foldl (Operation.run catalog) .empty, []⟩

theorem reachable_labelled : Reachable catalog labelled := by
  refine Reachable.run .refl ?_
  decide

theorem freshCopy_labelled :
    (Reachable catalog labelled ∧ labelled.forest.IsTop ⟨1, .tree⟩ ∧ JobReachable warm ∧
      warm.forest.IsTop ⟨1, .bag⟩) ∧
    (∃ copy G, labelled.forest.unfreezeCopy catalog ⟨1, .tree⟩ = (.ok copy, G) ∧
      FreshCopy catalog labelled.forest G ⟨1, .tree⟩ copy) ∧
    ∃ copy G, warm.forest.unfreezeCopy catalog ⟨1, .bag⟩ = (.ok copy, G) ∧
      FreshCopy catalog warm.forest G ⟨1, .bag⟩ copy ∧ ShowsAlike G ⟨1, .bag⟩ copy := by
  have htop : labelled.forest.IsTop ⟨1, .tree⟩ := ⟨by decide, fun hf => hf, by decide⟩
  have htop' : warm.forest.IsTop ⟨1, .bag⟩ := ⟨by decide, fun hf => hf, by decide⟩
  exact ⟨⟨reachable_labelled, htop, jobReachable_warm, htop'⟩,
    freshCopy_of_unfreezeCopy reachable_labelled htop jobReachable_warm htop'⟩

end Session

end LayeredConfig
