import LayeredConfig.Proofs.Copying
import LayeredConfig.Proofs.InsertionOrder
import LayeredConfig.Proofs.Mutating
import LayeredConfig.Proofs.Replacing
import LayeredConfig.Proofs.SameValues

/-!
# What a variation of a job stores

A job is varied by making another one: it gets the id of the job, the job is laid over it, and then one thing is
changed. `Job.Varied` describes the outcome by what it stores; it does not matter how the job came to store
what it stores, and so a second variation can be described by what the first one has left.

* To adjust a leaf puts its value on top of what the job stored (`Job.varied_adjust`), so that adjustments obey
  the laws of independent fields: the last one counts under its key, and those of two keys commute
  (`Job.adjustments`).
* A collector that is given to a job replaces all that the job stored of its collector, and nothing else
  (`Job.collectorReplaced_withGc`). The id that the collector has got stays behind in the copy that is made of
  it, and so does everything that collectors do not know.
-/

namespace LayeredConfig

namespace Job

open Forest Session

variable {J W : Session NodeType Key} {F G H : Forest NodeType Key} {i j l : Job} {a b k : Key}
  {gc copy : Node NodeType} {stored laid : Key → Option (Value NodeType)}

/-- In the forest `G` the job `i` is a new root with the id of the job `j` of the forest `F`. It has a node in
every slot, and of the other leaves that jobs know it stores the ones of `stored` that are not sticky; and it
stores nothing else. -/
structure Varied (F : Forest NodeType Key) (j : Job) (stored : Key → Option (Value NodeType))
    (G : Forest NodeType Key) (i : Job) : Prop where
  new : F.knows i.val = false
  isTop : G.IsTop i.val
  unfrozen : G.isFrozen i.val = false
  complete : Complete G i
  id : G.explicit? i.val .id = F.explicit? j.val .id
  leaf : ∀ {k}, isLeaf k = true → catalog.isSticky k = false → G.explicit? i.val k = stored k
  /-- The marks of mutators and of defaults are sticky. -/
  mark : ∀ {k}, catalog.isSticky k = true → k ≠ .id → G.has i.val k = false
  foreign : ∀ {k}, catalog.reaches .job k = false → G.has i.val k = false

example : catalog.isSticky (.flags .isMutator) = true ∧ catalog.isSticky (.flags .isDefault) = true := by decide

namespace Varied

theorem rebase (h : Varied F j stored G i) (hknown : ∀ n, H.knows n = true → F.knows n = true)
    (hid : F.explicit? j.val .id = H.explicit? l.val .id)
    (hstored : ∀ {k}, isLeaf k = true → catalog.isSticky k = false → stored k = laid k) :
    Varied H l laid G i where
  new := Bool.eq_false_iff.mpr fun hk => Bool.eq_false_iff.mp h.new (hknown _ hk)
  isTop := h.isTop
  unfrozen := h.unfrozen
  complete := h.complete
  id := h.id.trans hid
  leaf := fun hk hs => (h.leaf hk hs).trans (hstored hk hs)
  mark := h.mark
  foreign := h.foreign

theorem carry (h : Varied F j stored G i) (hsame : Same G H i.val) : Varied F j stored H i where
  new := h.new
  isTop := ⟨hsame.known, fun hf => hf, hsame.owner.trans h.isTop.root⟩
  unfrozen := hsame.frozen.trans h.unfrozen
  complete := fun hreach hslot => (hsame.has_eq _).trans (h.complete hreach hslot)
  id := (explicit?_congr hsame.store _).trans h.id
  leaf := fun hk hs => (explicit?_congr hsame.store _).trans (h.leaf hk hs)
  mark := fun hs hid => (hsame.has_eq _).trans (h.mark hs hid)
  foreign := fun hk => (hsame.has_eq _).trans (h.foreign hk)

/-- Another description comes of a change to the job that leaves alone its sticky leaves and what jobs do not
know, and empties no slot. -/
theorem update (h : Varied F j stored G i) (htop : H.IsTop i.val ∧ H.isFrozen i.val = false)
    (hrest : ∀ {k}, catalog.isSticky k = true ∨ catalog.reaches .job k = false →
      H.explicit? i.val k = G.explicit? i.val k)
    (hslot : ∀ {k}, catalog.reaches .job k = true → catalog.isSlot k = true → H.has i.val k = true)
    (hleaf : ∀ {k}, isLeaf k = true → catalog.isSticky k = false → H.explicit? i.val k = laid k) :
    Varied F j laid H i where
  new := h.new
  isTop := htop.1
  unfrozen := htop.2
  complete := hslot
  id := (hrest (Or.inl rfl)).trans h.id
  leaf := hleaf
  mark := fun hs hid => (congrArg Option.isSome (hrest (Or.inl hs))).trans (h.mark hs hid)
  foreign := fun hk => (congrArg Option.isSome (hrest (Or.inr hk))).trans (h.foreign hk)

theorem put (h : Varied F j stored G i) (ha : isLeaf a = true) (hs : catalog.isSticky a = false)
    (v : Value NodeType) :
    Varied F j (fun k => if k = a then some v else stored k) (G.put i.val a v) i := by
  obtain ⟨hreach, hslot⟩ := isLeaf_iff.mp ha
  have hvalue : ∀ k, (G.put i.val a v).explicit? i.val k = if k = a then some v else G.explicit? i.val k := by
    intro k
    rw [explicit?_put]
    simp only [true_and]
  obtain ⟨htop, hfrozen⟩ := h.isTop.of_cell (G := G.put i.val a v) h.isTop.known rfl
  apply h.update ⟨htop, hfrozen.trans h.unfrozen⟩
  case hrest =>
    intro k hk
    have hne : k ≠ a := by
      rintro rfl
      rcases hk with hk | hk
      · exact Bool.false_ne_true (hs.symm.trans hk)
      · exact Bool.false_ne_true (hk.symm.trans hreach)
    rw [hvalue, if_neg hne]
  case hslot =>
    intro k hk hks
    have hne : k ≠ a := by
      rintro rfl
      exact Bool.false_ne_true (hslot.symm.trans hks)
    exact (congrArg Option.isSome ((hvalue k).trans (if_neg hne))).trans (h.complete hk hks)
  case hleaf =>
    intro k hk hks
    rw [hvalue, h.leaf hk hks]

end Varied

/-! ## The copy that every variation starts from -/

theorem explicit?_id (h : Reachable catalog W) (j : Job) :
    W.forest.explicit? j.val .id = (explicitId? W.forest j).map .text := by
  rw [explicitId?]
  cases hv : W.forest.explicit? j.val .id with
  | none => rfl
  | some v =>
      have hfits : Format.text.Fits v := h.typeDiscipline.fits hv
      cases v with
      | text s => rfl
      | _ => exact hfits.elim

theorem outline?_identified (h : Coherent catalog F) (id? : Option String) (k : Key) :
    (F.draft catalog .job (id?.toList.map .id)).1.outline? (F.draft catalog .job (id?.toList.map .id)).2 k =
      if k = .id then id?.map fun s => .leaf (.text s)
      else if catalog.reaches .job k = true ∧ catalog.isSlot k = true then some .slot else none := by
  have hcreated := outline?_create (S := catalog) h .job k
  rw [draft_eq]
  dsimp only
  cases id? with
  | none =>
      rw [Option.toList_none, List.map_nil, List.foldl_nil, hcreated]
      by_cases hk : k = .id
      · have hslot : catalog.isSlot k = false := hk ▸ rfl
        rw [if_pos hk, hslot, if_neg fun hand => Bool.false_ne_true hand.2]
        rfl
      · rw [if_neg hk]
  | some s =>
      rw [Option.toList_some, List.map_cons, List.map_nil, List.foldl_cons, List.foldl_nil, draftStep,
        outline?_put, hcreated]
      rfl

/-- **A copy of a job holds its id, the leaves that are not sticky, and a node in every slot.** -/
theorem outline?_derived (h : Reachable catalog W) (hj : W.Holds j.val) (k : Key) :
    (draft W.forest (deriveSteps W.forest j)).1.outline? (draft W.forest (deriveSteps W.forest j)).2.val k =
      if k = .id then W.forest.outline? j.val .id
      else if catalog.reaches .job k = true then
        if catalog.isSlot k = true then some .slot
        else if catalog.isSticky k = true then none else W.forest.outline? j.val k
      else none := by
  let ids := (explicitId? W.forest j).toList.map (DraftStep.id (S := catalog))
  have hread : ∀ m ∈ ids.flatMap DraftStep.operands, W.Holds m := by
    rw [operands_ids]
    exact fun _ hm => nomatch hm
  have hdrafting := Adds.drafting h.orderly .job ids hread
  have hcoh : Coherent catalog (W.forest.draft catalog .job ids).1 :=
    (hdrafting.run.steps.orderly h.orderly).coherent
  have hknown := (Adds.isTop_draft h.orderly .job ids hread).1.known
  have hstart := outline?_identified h.orderly.coherent (explicitId? W.forest j) k
  have hstore := (hdrafting.same h.orderly hj.1).store
  have hid : W.forest.outline? j.val .id = (explicitId? W.forest j).map fun s => .leaf (.text s) := by
    rw [outline?, explicit?_id h, Option.map_map]
    rfl
  have hoffers : catalog.offers (W.forest.draft catalog .job ids).2.type j.val.type k =
      (!catalog.isSticky k && catalog.reaches .job k) := offers_job (Or.inr j.property) k
  have hmade : draft W.forest (deriveSteps W.forest j) =
      ((W.forest.draft catalog .job ids).1.overlay catalog (W.forest.draft catalog .job ids).2 j.val,
        ⟨(W.forest.draft catalog .job ids).2, rfl⟩) := by
    simp only [draft, deriveSteps, draft_eq, List.foldl_append]
    rfl
  rw [hmade]
  dsimp only
  rw [outline?_overlay hcoh hknown, given_congr hstore, given, hoffers, hstart]
  by_cases hk : k = .id
  · rw [if_pos hk, if_pos hk, hk, hid]
    rfl
  · rw [if_neg hk, if_neg hk]
    cases hreach : catalog.reaches .job k with
    | false => simp
    | true =>
        cases hslot : catalog.isSlot k with
        | false => cases catalog.isSticky k <;> simp
        | true =>
            -- A slot is taken in the new job, whether the copied one had it or not.
            obtain ⟨t, ht⟩ := Option.isSome_iff_exists.mp hslot
            rw [outline?_slot h.orderly.coherent ht]
            cases catalog.isSticky k <;> cases W.forest.has j.val k <;> rfl

theorem adds_derived (h : Reachable catalog W) (hj : W.Holds j.val) :
    Adds catalog W ⟨(draft W.forest (deriveSteps W.forest j)).1, W.drafts⟩
      [(draft W.forest (deriveSteps W.forest j)).2.val] :=
  Adds.job h.orderly _ (operands_deriveSteps W.forest j) fun _ hn => List.mem_singleton.mp hn ▸ hj

theorem varied_derived (h : Reachable catalog W) (hj : W.Holds j.val) :
    Varied W.forest j (W.forest.explicit? j.val) (draft W.forest (deriveSteps W.forest j)).1
      (draft W.forest (deriveSteps W.forest j)).2 := by
  have hadds := adds_derived h hj
  have houtline := fun k : Key => outline?_derived h hj k
  have hcoh := (hadds.reachable h).orderly.coherent
  have htop := Adds.isTop_draft h.orderly .job (deriveSteps W.forest j) fun m hm => by
    rw [operands_deriveSteps] at hm
    exact List.mem_singleton.mp hm ▸ hj
  constructor
  case new => exact (hadds.fresh _ (List.mem_singleton.mpr rfl)).1
  case isTop => exact htop.1
  case unfrozen => exact htop.2
  case complete =>
    intro k hreach hslot
    have hid : k ≠ .id := by
      rintro rfl
      cases hslot
    rw [has_eq_isSome_outline?, houtline, if_neg hid, if_pos hreach, if_pos hslot]
    rfl
  case id =>
    have hleaf := houtline .id
    rw [if_pos rfl] at hleaf
    exact explicit?_of_outline?_eq h.orderly.coherent hcoh rfl hleaf
  case leaf =>
    intro k hk hsticky
    obtain ⟨hreach, hslot⟩ := isLeaf_iff.mp hk
    have hid : k ≠ .id := by
      rintro rfl
      cases hsticky
    have hleaf := houtline k
    rw [if_neg hid, hreach, hslot, hsticky] at hleaf
    exact explicit?_of_outline?_eq h.orderly.coherent hcoh (Schema.slotType?_eq_none hslot) hleaf
  case mark =>
    intro k hsticky hid
    rw [has_eq_isSome_outline?, houtline, if_neg hid, hsticky]
    cases hreach : catalog.reaches .job k with
    | false => rfl
    | true =>
        -- No slot that jobs know is sticky.
        have hslots : ∀ t ∈ parts, ∀ c ∈ catalog.declarations t,
            catalog.isSticky c = true → catalog.isSlot c = false := by decide
        rw [forall_known hslots hreach hsticky]
        rfl
  case foreign =>
    intro k hreach
    have hid : k ≠ .id := by
      rintro rfl
      exact Bool.eq_false_iff.mp hreach (catalog.reaches_id rfl)
    rw [has_eq_isSome_outline?, houtline, if_neg hid, hreach]
    rfl

/-! ## Adjusting a leaf -/

theorem adjust_eq (ha : catalog.isSlot a = false) (F : Forest NodeType Key) (j : Job) (x : a.Content) :
    adjust F j a x = ((draft F (deriveSteps F j)).1.put (draft F (deriveSteps F j)).2.val a
      ((catalog.format a).write x), (draft F (deriveSteps F j)).2) := by
  have hstep : ∀ (n : Node NodeType) (G : Forest NodeType Key),
      G.draftStep catalog n (.value a x) = G.put n a ((catalog.format a).write x) := by
    intro n G
    rw [draftStep, ha, if_neg Bool.false_ne_true]
  simp only [adjust, draft, draft_eq, List.foldl_append, List.foldl_cons, List.foldl_nil, hstep]

theorem isLeaf_of_adjustable (ha : a ∈ adjustable) :
    isLeaf a = true ∧ catalog.isSticky a = false ∧ Straight catalog a := by
  have hall : ∀ c ∈ adjustable, (∃ t ∈ parts, c ∈ catalog.declarations t) ∧ catalog.isSlot c = false ∧
      catalog.isSticky c = false ∧ isStraight c = true := by decide
  obtain ⟨⟨t, ht, hdeclared⟩, hslot, hsticky, hstraight⟩ := hall a ha
  exact ⟨isLeaf_iff.mpr ⟨reaches_job ht hdeclared, hslot⟩, hsticky, straight_of_isStraight hstraight⟩

theorem varied_adjust_of_isLeaf (h : Reachable catalog W) (hj : W.Holds j.val) (ha : isLeaf a = true)
    (hs : catalog.isSticky a = false) (x : a.Content) :
    Varied W.forest j (fun k => if k = a then some ((catalog.format a).write x) else W.forest.explicit? j.val k)
      (adjust W.forest j a x).1 (adjust W.forest j a x).2 := by
  rw [adjust_eq (isLeaf_iff.mp ha).2]
  exact (varied_derived h hj).put ha hs _

theorem varied_adjust (h : Reachable catalog W) (hj : W.Holds j.val) (ha : a ∈ adjustable) (x : a.Content) :
    Varied W.forest j (fun k => if k = a then some ((catalog.format a).write x) else W.forest.explicit? j.val k)
      (adjust W.forest j a x).1 (adjust W.forest j a x).2 := by
  obtain ⟨hleaf, hsticky, -⟩ := isLeaf_of_adjustable ha
  exact varied_adjust_of_isLeaf h hj hleaf hsticky x

theorem Varied.get?_eq (hi : Varied F j stored G i) (ha : isLeaf a = true) (hs : catalog.isSticky a = false)
    (hc : Straight catalog a) {x : a.Content} (hx : stored a = some ((catalog.format a).write x)) :
    G.get? catalog i.val a = (catalog.format a).read ((catalog.format a).write x) := by
  rw [Forest.get?, value?_of_straight hc ((hi.leaf ha hs).trans hx)]
  rfl

theorem get?_adjust (h : Reachable catalog W) (hj : W.Holds j.val) (ha : a ∈ adjustable) (x : a.Content) :
    (adjust W.forest j a x).1.get? catalog (adjust W.forest j a x).2.val a =
      (catalog.format a).read ((catalog.format a).write x) := by
  obtain ⟨hleaf, hsticky, hstraight⟩ := isLeaf_of_adjustable ha
  exact (varied_adjust h hj ha x).get?_eq hleaf hsticky hstraight (if_pos rfl)

/-- Two jobs that flatten to bags with the same entries. -/
structure SameBag (F : Forest NodeType Key) (x y : Job) : Prop where
  stored : ∀ k, (toBag F x).1.explicit? (toBag F x).2 k = (toBag F y).1.explicit? (toBag F y).2 k
  leaves : (toBag F x).1.leafEntries catalog (toBag F x).2 = (toBag F y).1.leafEntries catalog (toBag F y).2
  slots : (toBag F x).1.slotEntries catalog (toBag F x).2 = (toBag F y).1.slotEntries catalog (toBag F y).2

theorem sameBag_of_leaf (h : Reachable catalog W) {x y : Job}
    (hleaf : ∀ {k}, isLeaf k = true → W.forest.explicit? x.val k = W.forest.explicit? y.val k) :
    SameBag W.forest x y := by
  have hstored : ∀ k, (toBag W.forest x).1.explicit? (toBag W.forest x).2 k =
      (toBag W.forest y).1.explicit? (toBag W.forest y).2 k := by
    intro k
    rw [explicit?_toBag h, explicit?_toBag h]
    cases hk : isLeaf k with
    | true => exact hleaf hk
    | false => rfl
  have hkeys : (toBag W.forest x).1.stored catalog (toBag W.forest x).2 =
      (toBag W.forest y).1.stored catalog (toBag W.forest y).2 :=
    Schema.storedKeys_eq Key.number_injective (funext hstored)
  constructor
  case stored => exact hstored
  case leaves => simp only [leafEntries, hkeys, hstored]
  case slots => simp only [slotEntries, hkeys]

theorem Varied.sameBag (h : Reachable catalog W) {x y : Job} (hx : Varied F j stored W.forest x)
    (hy : Varied F j laid W.forest y)
    (hstored : ∀ {k}, isLeaf k = true → catalog.isSticky k = false → stored k = laid k) :
    SameBag W.forest x y := by
  refine sameBag_of_leaf h fun {k} hk => ?_
  by_cases hid : k = .id
  · rw [hid, hx.id, hy.id]
  · cases hs : catalog.isSticky k with
    | true => rw [has_eq_false_iff.mp (hx.mark hs hid), has_eq_false_iff.mp (hy.mark hs hid)]
    | false => rw [hx.leaf hk hs, hy.leaf hk hs, hstored hk hs]

theorem Varied.sameBag_later {x y : Job} (hx : Varied W.forest j stored G x) (h : Reachable catalog W)
    (hj : W.Holds j.val) (hG : Adds catalog W ⟨G, W.drafts⟩ [x.val])
    (hH : Adds catalog ⟨G, W.drafts⟩ ⟨H, W.drafts⟩ [y.val]) (hy : Varied G j laid H y)
    (hstored : G.explicit? j.val = W.forest.explicit? j.val →
      ∀ {k}, isLeaf k = true → catalog.isSticky k = false → stored k = laid k) :
    SameBag H x y := by
  have hreached := hG.reachable h
  have hsame := hG.same h.orderly hj.1
  have hread : G.explicit? j.val = W.forest.explicit? j.val := funext (explicit?_congr hsame.store)
  have hx' := hx.carry (hH.same hreached.orderly (hG.fresh _ (List.mem_singleton.mpr rfl)).2.known)
  have hy' : Varied W.forest j laid H y :=
    hy.rebase (fun n hn => (hG.same h.orderly hn).known) (congrFun hread _) fun _ _ => rfl
  exact Varied.sameBag (W := ⟨H, W.drafts⟩) (hH.reachable hreached) hx' hy' (hstored hread)

def adjustTwice (F : Forest NodeType Key) (j : Job) (a : Key) (x : a.Content) (b : Key) (y : b.Content) :
    Forest NodeType Key × Job :=
  let first := adjust F j a x
  adjust first.1 first.2 b y

theorem adds_adjustTwice (h : Reachable catalog W) (hj : W.Holds j.val) (a : Key) (x : a.Content) (b : Key)
    (y : b.Content) : Adds catalog W ⟨(adjustTwice W.forest j a x b y).1, W.drafts⟩
      [(adjustTwice W.forest j a x b y).2.val] := by
  have hfirst := Adds.adjust h.orderly hj a x
  have hheld := (hfirst.new_of_mem (List.mem_singleton.mpr rfl)).holds h.orderly rfl
  have hsecond := Adds.adjust (hfirst.reachable h).orderly hheld b y
  exact (hfirst.trans h.orderly hsecond).mono fun n hn => List.mem_append_right _ hn

theorem varied_adjustTwice (h : Reachable catalog W) (hj : W.Holds j.val) (ha : a ∈ adjustable)
    (hb : b ∈ adjustable) (x : a.Content) (y : b.Content) :
    Varied W.forest j (fun k => if k = b then some ((catalog.format b).write y)
      else if k = a then some ((catalog.format a).write x) else W.forest.explicit? j.val k)
      (adjustTwice W.forest j a x b y).1 (adjustTwice W.forest j a x b y).2 := by
  have hadds := Adds.adjust h.orderly hj a x
  have hheld := (hadds.new_of_mem (List.mem_singleton.mpr rfl)).holds h.orderly rfl
  have hfirst := varied_adjust h hj ha x
  have hsecond := varied_adjust (hadds.reachable h) hheld hb y
  refine hsecond.rebase (fun n hn => (hadds.same h.orderly hn).known) hfirst.id fun {k} hk hs => ?_
  by_cases hkb : k = b
  · rw [if_pos hkb, if_pos hkb]
  · rw [if_neg hkb, if_neg hkb]
    exact hfirst.leaf hk hs

/-- What it is to adjust a job under the keys `a` and `b`. -/
structure Adjustments (F : Forest NodeType Key) (j : Job) {a b : Key} (v w : a.Content) (u : b.Content) :
    Prop where
  varied : Varied F j (fun k => if k = a then some ((catalog.format a).write v) else F.explicit? j.val k)
    (adjust F j a v).1 (adjust F j a v).2
  reads : (catalog.format a).read ((catalog.format a).write v) = some v →
    (adjust F j a v).1.get? catalog (adjust F j a v).2.val a = some v
  same : ∀ {n}, F.knows n = true → Same F (adjust F j a v).1 n
  overwrites :
    let twice := adjustTwice F j a v a w
    let once := adjust twice.1 j a w
    SameBag once.1 twice.2 once.2
  /-- Under two keys it does not matter what is adjusted first. -/
  commutes :
    let made := adjustTwice F j a v b u
    let made' := adjustTwice made.1 j b u a v
    SameBag made'.1 made.2 made'.2

/-- **Adjustments of a job are writes to independent fields of a copy.** -/
theorem adjustments (hJ : JobReachable J) (hj : J.Holds j.val) (ha : a ∈ adjustable) (hb : b ∈ adjustable)
    (hab : a ≠ b) (v w : a.Content) (u : b.Content) : Adjustments J.forest j v w u := by
  have h := hJ.reachable
  constructor
  case varied => exact varied_adjust h hj ha v
  case reads => exact fun hv => (get?_adjust h hj ha v).trans hv
  case same => exact (Adds.adjust h.orderly hj a v).same h.orderly
  case overwrites =>
    have hadds := adds_adjustTwice h hj a v a w
    have htwice := varied_adjustTwice h hj ha ha v w
    dsimp only
    generalize adjustTwice J.forest j a v a w = twice at hadds htwice ⊢
    have h' := hadds.reachable h
    have hj' := hadds.holds h.orderly hj
    refine htwice.sameBag_later h hj hadds (Adds.adjust h'.orderly hj' a w) (varied_adjust h' hj' ha w) ?_
    intro hread k _ _
    rw [hread]
    by_cases hk : k = a
    · rw [if_pos hk, if_pos hk]
    · rw [if_neg hk, if_neg hk, if_neg hk]
  case commutes =>
    have hadds := adds_adjustTwice h hj a v b u
    have hmade := varied_adjustTwice h hj ha hb v u
    dsimp only
    generalize adjustTwice J.forest j a v b u = made at hadds hmade ⊢
    have h' := hadds.reachable h
    have hj' := hadds.holds h.orderly hj
    refine hmade.sameBag_later h hj hadds (adds_adjustTwice h' hj' b u a v)
      (varied_adjustTwice h' hj' hb ha u v) ?_
    intro hread k _ _
    rw [hread]
    by_cases hk : k = a
    · rw [if_pos hk, if_pos hk, if_neg fun hkb => hab (hk.symm.trans hkb)]
    · rw [if_neg hk, if_neg hk]

theorem adjustments_tuned :
    let v : Key.Content (.run .launchCount) := (3 : Int32)
    let w : Key.Content (.run .launchCount) := (5 : Int32)
    let u : Key.Content (.environment .environmentVariables) := [EnvironmentVariable.mk "LEVEL" "2"]
    (JobReachable Mutator.tuned ∧ Mutator.tuned.Holds Mutator.fast.val ∧ Key.run .launchCount ∈ adjustable ∧
      Key.environment .environmentVariables ∈ adjustable ∧
      Key.run .launchCount ≠ .environment .environmentVariables) ∧
      Adjustments Mutator.tuned.forest Mutator.fast v w u := by
  intro v w u
  have hheld : Mutator.tuned.Holds Mutator.fast.val := by decide +kernel
  have ha : Key.run .launchCount ∈ adjustable := by decide
  have hb : Key.environment .environmentVariables ∈ adjustable := by decide
  have hab : Key.run .launchCount ≠ .environment .environmentVariables := by decide
  exact ⟨⟨Mutator.jobReachable_tuned, hheld, ha, hb, hab⟩,
    adjustments Mutator.jobReachable_tuned hheld ha hb hab v w u⟩

/-! ## The collector -/

theorem reaches_collector : catalog.reaches .job collector = true :=
  reaches_job (t := .environment) (by decide) (by decide)

theorem isLeaf_of_reaches_gc (hk : catalog.reaches .gc k = true) :
    isLeaf k = true ∧ (k = .id ∨ catalog.isSticky k = false) := by
  have hall : ∀ c ∈ catalog.declarations .gc, catalog.isSlot c = false ∧
      (c = .id ∨ catalog.isSticky c = false) := by decide
  have hdeclared := mem_closure_gc.mp (of_decide_eq_true hk)
  obtain ⟨hslot, hsticky⟩ := hall k hdeclared
  exact ⟨isLeaf_iff.mpr ⟨reaches_job (by decide) hdeclared, hslot⟩, hsticky⟩

theorem exists_child_of_complete (h : Coherent catalog G) (hi : Complete G i)
    (hreach : catalog.reaches .job k = true) {t : NodeType} (hk : catalog.slotType? k = some t) :
    ∃ d, G.child? i.val k = some d := by
  have hslot : catalog.isSlot k = true := by
    rw [Schema.isSlot, hk]
    rfl
  obtain ⟨v, hv⟩ := has_iff_exists.mp (hi hreach hslot)
  have htype := h.typed hv
  rw [hk, Option.map_eq_some_iff] at htype
  obtain ⟨d, hd, -⟩ := htype
  exact ⟨d, by rw [child?_eq, hv]; exact hd⟩

/-- A copy of a collector is fit to take the place of the collector of a complete job. -/
theorem exists_replacement (h : Coherent catalog F) (hc : Copying catalog F G gc copy)
    (hcopy : F.unfreezeCopy catalog gc = (.ok copy, G)) (ht : gc.type = .gc) (hi : Varied H j stored G i) :
    ∃ p, Replacement catalog G i.val collector p copy := by
  obtain ⟨p, hp⟩ := exists_child_of_complete hc.coherent hi.complete reaches_collector (t := .gc) rfl
  have htype : copy.type = .gc := hc.type.trans ht
  have hslot : catalog.isSlot collector = true := rfl
  refine ⟨p, ?_⟩
  constructor
  case isTop => exact hi.isTop
  case unfrozen => exact hi.unfrozen
  case occupant => exact hp
  case isTop_new => exact hc.isTop
  case unfrozen_new => exact hc.unfrozen
  case ne =>
    intro he
    rw [he, i.property] at htype
    cases htype
  case slotType => rw [htype]; rfl
  case not_bag => rw [htype]; rfl
  case slots_loose =>
    intro k hk hslot
    rw [htype] at hk
    rw [Key.isSlot_of_reaches_gc hk] at hslot
    cases hslot
  case stored =>
    intro k hk
    have hgc := reaches_of_has_unfreezeCopy h (by rw [ht]; rfl) hcopy hk
    refine ⟨hc.type ▸ hgc, ?_⟩
    rintro rfl
    rw [Key.isSlot_of_reaches_gc (ht ▸ hgc)] at hslot
    cases hslot

theorem Varied.replace {p : Node NodeType} (h : Varied F j stored G i)
    (hr : Replaced catalog G H i.val collector p copy) (ht : copy.type = .gc)
    (hid : G.explicit? copy .id = none) :
    Varied F j (fun k => if catalog.reaches .gc k = true then G.explicit? copy k else stored k) H i := by
  have hcollector : catalog.isSlot collector = true := rfl
  have hforeign : ∀ {k}, k ≠ collector → catalog.reaches .gc k = false →
      H.explicit? i.val k = G.explicit? i.val k := fun hk hreach => hr.foreign hk (ht ▸ hreach)
  apply h.update hr.isTop
  case hrest =>
    intro k hk
    cases hgc : catalog.reaches .gc k with
    | true =>
        -- What collectors know jobs know as well, so that only the id is left.
        obtain ⟨hleaf, hid' | hs⟩ := isLeaf_of_reaches_gc hgc
        · have hsticky : catalog.isSticky k = true := hid' ▸ rfl
          rw [hr.sticky (ht ▸ hgc) hsticky, hid', hid]
          rfl
        · rcases hk with hk | hk
          · exact absurd (hs.symm.trans hk) Bool.false_ne_true
          · exact absurd (hk.symm.trans (isLeaf_iff.mp hleaf).1) Bool.false_ne_true
    | false =>
        refine hforeign ?_ hgc
        rintro rfl
        rcases hk with hk | hk
        · cases hk
        · exact Bool.false_ne_true (hk.symm.trans reaches_collector)
  case hslot =>
    intro k hk hks
    by_cases hkc : k = collector
    · rw [hkc]
      exact has_iff_exists.mpr ⟨_, child?_eq_some.mp hr.occupant.1⟩
    · have hgc : catalog.reaches .gc k = false :=
        Bool.eq_false_iff.mpr fun hgc => Bool.false_ne_true ((Key.isSlot_of_reaches_gc hgc).symm.trans hks)
      exact (congrArg Option.isSome (hforeign hkc hgc)).trans (h.complete hk hks)
  case hleaf =>
    intro k hk hs
    have hkc : k ≠ collector := by
      rintro rfl
      exact Bool.false_ne_true ((isLeaf_iff.mp hk).2.symm.trans hcollector)
    cases hgc : catalog.reaches .gc k with
    | true => exact hr.belonging hkc (Schema.belongs_eq_true.mpr ⟨ht ▸ hgc, hs⟩)
    | false => exact (hforeign hkc hgc).trans (h.leaf hk hs)

/-- **In the copy of a job the collector gives way to a copy of the given one.** -/
theorem varied_equip (h : Coherent catalog G) (hi : Varied F j stored G i) {environment : Node NodeType}
    (he : G.child? i.val (.job .environment) = some environment) (hg : G.IsTop gc) (ht : gc.type = .gc) :
    ∃ H, equip G i environment gc = (.ok i, H) ∧
      Varied F j (fun k => if catalog.reaches .gc k = true then G.explicit? gc k else stored k) H i := by
  obtain ⟨copy, G', hcopy, hc⟩ := Copying.unfreezeCopy h hg
  have hsame := hc.aside hi.isTop.known
  have hi' := hi.carry hsame
  obtain ⟨p, hx⟩ := exists_replacement h hc hcopy ht hi'
  have he' : G'.child? i.val (.job .environment) = some environment := by
    rw [child?_eq, explicit?_congr hsame.store]
    exact he
  have hequip : equip G i environment gc =
      (.ok i, (G'.release catalog collector p).graft catalog i.val collector copy) := by
    rw [equip, hcopy]
    dsimp only
    rw [hc.coherent.set_child hi'.isTop hi'.unfrozen he', hx.set_eq hc.coherent]
    rfl
  have hfresh := hc.freshCopy h hg
  have hid : G'.explicit? copy .id = none := by
    rw [hfresh.leaf rfl]
    exact if_neg fun hand => nomatch hand.1
  refine ⟨_, hequip, ?_⟩
  refine (hi'.replace (hx.replaced hc.coherent) (hc.type.trans ht) hid).rebase (fun _ hn => hn) rfl ?_
  intro k hk hs
  cases hreach : catalog.reaches .gc k with
  | false => rfl
  | true =>
      rw [if_pos rfl, if_pos rfl, hfresh.leaf (Schema.slotType?_eq_none (isLeaf_iff.mp hk).2), ht]
      exact if_pos ⟨hs, Or.inr (of_decide_eq_true hreach)⟩

theorem withGc_eq_equip (h : Reachable catalog W) (hj : W.Holds j.val) (gc : Node NodeType) :
    ∃ G i environment, withGc W.forest j gc = equip G i environment gc ∧
      Adds catalog W ⟨G, W.drafts⟩ [i.val] ∧ Varied W.forest j (W.forest.explicit? j.val) G i ∧
      G.child? i.val (.job .environment) = some environment := by
  have hadds := adds_derived h hj
  have hvaried := varied_derived h hj
  rw [withGc_eq]
  dsimp only
  generalize draft W.forest (deriveSteps W.forest j) = made at hadds hvaried ⊢
  have hreach : catalog.reaches .job (.job .environment) = true :=
    catalog.reaches_of_mem_declared (by decide)
  obtain ⟨environment, he⟩ :=
    exists_child_of_complete (hadds.reachable h).orderly.coherent hvaried.complete hreach (t := .environment) rfl
  have hfound : made.1.childOrNew catalog made.2.val (.job .environment) = (made.1, some environment) := by
    have hslot : catalog.slotType? (.job .environment) = some .environment := rfl
    rw [childOrNew, hslot, he]
  refine ⟨made.1, made.2, environment, ?_, hadds, hvaried, he⟩
  rw [hfound]
  rfl

/-- What it is to give the collector `gc` to a job. -/
structure CollectorReplaced (F : Forest NodeType Key) (j : Job) (gc : Node NodeType) : Prop where
  refused_iff : (∃ e, (withGc F j gc).1 = .error e) ↔ ∃ o, F.owner? gc = some o
  refusal : ∀ {o}, F.owner? gc = some o →
    (withGc F j gc).1 = .error (.node (.notRoot (F.label catalog gc) (F.label catalog o)))
  /-- Of what collectors know the new job stores what the collector stores, its id apart, and of all else what
  the job stores. -/
  granted : F.owner? gc = none → ∃ i G, withGc F j gc = (.ok i, G) ∧
    Varied F j (fun k => if catalog.reaches .gc k = true then F.explicit? gc k else F.explicit? j.val k) G i ∧
    ∀ {k}, catalog.reaches .gc k = true → k ≠ .id → G.explicit? i.val k = F.explicit? gc k
  same : ∀ {n}, F.knows n = true → Same F (withGc F j gc).2 n

/-- **The collector of a job is replaced, and nothing else.** -/
theorem collectorReplaced_withGc (hJ : JobReachable J) (hj : J.Holds j.val) (hg : J.Holds gc)
    (ht : gc.type = .gc) : CollectorReplaced J.forest j gc := by
  have h := hJ.reachable
  obtain ⟨G, i, environment, heq, hadds, hi, he⟩ := withGc_eq_equip h hj gc
  have hsame := hadds.same h.orderly hg.1
  have hrefusal : ∀ {o}, J.forest.owner? gc = some o → (withGc J.forest j gc).1 =
      .error (.node (.notRoot (J.forest.label catalog gc) (J.forest.label catalog o))) := by
    intro o ho
    have hroot : J.forest.knows o = true := (h.orderly.coherent.owner hg.1 (fun hf => hf) ho).1.known
    rw [← hsame.label_eq, ← (hadds.same h.orderly hroot).label_eq, heq, equip, unfreezeCopy, requireRoot,
      hsame.owner, ho]
  have hgranted : J.forest.owner? gc = none → ∃ G, withGc J.forest j gc = (.ok i, G) ∧ Varied J.forest j
      (fun k => if catalog.reaches .gc k = true then J.forest.explicit? gc k else J.forest.explicit? j.val k)
      G i := by
    intro ho
    have htop : G.IsTop gc := ⟨hsame.known, fun hf => hf, hsame.owner.trans ho⟩
    have hequip := varied_equip (hadds.reachable h).orderly.coherent hi he htop ht
    rwa [funext (explicit?_congr hsame.store), ← heq] at hequip
  constructor
  case refused_iff =>
    constructor
    · rintro ⟨e, hrefused⟩
      rw [← Option.isSome_iff_exists, ← Option.ne_none_iff_isSome]
      intro ho
      obtain ⟨H, hok, -⟩ := hgranted ho
      rw [hok] at hrefused
      cases hrefused
    · rintro ⟨o, ho⟩
      exact ⟨_, hrefusal ho⟩
  case refusal => exact hrefusal
  case granted =>
    intro ho
    obtain ⟨H, hok, hvaried⟩ := hgranted ho
    refine ⟨i, H, hok, hvaried, fun {k} hk hid => ?_⟩
    obtain ⟨hleaf, hsticky⟩ := isLeaf_of_reaches_gc hk
    rw [hvaried.leaf hleaf (hsticky.resolve_left hid), if_pos hk]
  case same =>
    intro n hn
    have hall := (Adds.withGc h.orderly hj hg).same h.orderly hn
    rwa [JobOperation.outcome, JobOperation.answered] at hall

/-- A frozen collector with an id, a setting and a launch count, of which collectors know nothing; and a job with
an id, another setting of its collector and a launch count of its own. -/
def collecting : Session NodeType Key :=
  ⟨[.bare .gc, .set ⟨1, .gc⟩ .id (.text "server"), .set ⟨1, .gc⟩ (.gc .server) (.bool true),
      .set ⟨1, .gc⟩ (.run .launchCount) (.int 9), .freeze ⟨1, .gc⟩, .bare .job,
      .set ⟨2, .job⟩ .id (.text "Fast"), .set ⟨2, .job⟩ (.gc .force) (.bool true),
      .set ⟨2, .job⟩ (.run .launchCount) (.int 3)].foldl (Operation.run catalog) .empty, []⟩

theorem jobReachable_collecting : JobReachable collecting := by
  refine JobReachable.run .refl ?_
  decide

theorem collectorReplaced_collecting :
    (JobReachable collecting ∧ collecting.Holds (⟨2, .job⟩ : Node NodeType) ∧
      collecting.Holds (⟨1, .gc⟩ : Node NodeType) ∧ (⟨1, .gc⟩ : Node NodeType).type = .gc) ∧
      CollectorReplaced collecting.forest ⟨⟨2, .job⟩, rfl⟩ ⟨1, .gc⟩ := by
  have hj : collecting.Holds (⟨2, .job⟩ : Node NodeType) := by decide +kernel
  have hg : collecting.Holds (⟨1, .gc⟩ : Node NodeType) := by decide +kernel
  exact ⟨⟨jobReachable_collecting, hj, hg, rfl⟩, collectorReplaced_withGc jobReachable_collecting hj hg rfl⟩

end Job

end LayeredConfig
