import LayeredConfig.Proofs.Comparison
import LayeredConfig.Proofs.Outline
import LayeredConfig.Proofs.Parts
import LayeredConfig.Proofs.Showing

/-!
# Flattening a job and taking it back

A job is flattened by writing every leaf that its type knows into a bag. A job is made from a bag in two
passes: the bag is laid over a new job, which leaves the sticky leaves behind, and then the sticky leaves are
written. Between them the passes cover every leaf that jobs know (`Job.outline?_ofBag`), and what is written
has been stored before, so that no check refuses it. Hence the two are inverse to each other
(`Job.flattening_inverse`): a job comes back with all its leaves, and shows what it showed before; and of a
bag exactly the leaves that jobs know come back.
-/

namespace LayeredConfig

namespace Forest

variable {τ κ : Type} [DecidableEq τ] [DecidableEq κ] {S : Schema τ κ} {F : Forest τ κ} {n : Node τ}

/-- To write accepted leaves into a draft is to take them over. -/
theorem foldl_raw (n : Node τ) {es : List (κ × Value τ)}
    (he : ∀ e ∈ es, S.isSlot e.1 = false ∧ S.accepts e.1 e.2 = true) (F : Forest τ κ) :
    (es.map fun e => DraftStep.raw e.1 e.2).foldl (draftStep S n) F = es.foldl (takeOver n) F := by
  induction es generalizing F with
  | nil => rfl
  | cons e es ih =>
      obtain ⟨hslot, hacc⟩ := he e (List.mem_cons_self ..)
      have hleaf : e.2.node? = none := by
        have hty := Schema.node?_of_accepts hacc
        rwa [Schema.slotType?_eq_none hslot, Option.map_eq_none_iff] at hty
      have hstep : F.draftStep S n (.raw e.1 e.2) = takeOver n F e := by
        rw [takeOver_leaf n F hleaf]
        show (if S.isSlot e.1 || !S.accepts e.1 e.2 then F else F.put n e.1 e.2) = F.put n e.1 e.2
        rw [hslot, hacc]
        rfl
      rw [List.map_cons, List.foldl_cons, List.foldl_cons, hstep]
      exact ih (fun e' he' => he e' (List.mem_cons_of_mem _ he')) _

theorem outline?_foldl_raw (h : Coherent S F) (hn : F.knows n = true) {es : List (κ × Value τ)}
    (hk : (es.map Prod.fst).Nodup) (he : ∀ e ∈ es, S.isSlot e.1 = false ∧ S.accepts e.1 e.2 = true) (k : κ) :
    ((es.map fun e => DraftStep.raw e.1 e.2).foldl (draftStep S n) F).outline? n k =
      ((es.lookup k).map Value.outline).or (F.outline? n k) := by
  rw [foldl_raw n he]
  exact outline?_takeOverAll h hn hk (fun e hes => Schema.node?_of_accepts (he e hes).2) k

theorem draft_eq (F : Forest τ κ) (t : τ) (steps : List (DraftStep S)) : F.draft S t steps =
    (steps.foldl (draftStep S (F.create S t).2) (F.create S t).1, (F.create S t).2) := rfl

theorem explicit?_of_outline?_none {k : κ} (h : F.outline? n k = none) : F.explicit? n k = none := by
  rwa [outline?, Option.map_eq_none_iff] at h

/-- The entries of the leaves of a node, each under its key. -/
theorem lookup_leafEntries (F : Forest τ κ) (n : Node τ) (k : κ) :
    (F.leafEntries S n).lookup k = if S.isSlot k = true then none else F.explicit? n k := by
  have hmem : k ∈ (F.stored S n).filter (fun c => !S.isSlot c) ↔
      (F.storeOf n).contains k = true ∧ S.isSlot k = false := by
    rw [List.mem_filter, stored, Schema.mem_storedKeys, Bool.not_eq_true']
  show (((F.stored S n).filter fun c => !S.isSlot c).filterMap
    fun c => ((F.storeOf n).get? c).map (c, ·)).lookup k = _
  rw [Schema.lookup_stored]
  by_cases hk : (F.storeOf n).contains k = true ∧ S.isSlot k = false
  · rw [if_pos (hmem.mpr hk), hk.2]
    rfl
  · rw [if_neg fun h => hk (hmem.mp h)]
    cases hslot : S.isSlot k with
    | true => rfl
    | false =>
        have hnone : F.has n k = false := Bool.eq_false_iff.mpr fun hc => hk ⟨hc, hslot⟩
        rw [has_eq_false_iff.mp hnone]
        rfl

theorem nodup_keys_leafEntries (F : Forest τ κ) (n : Node τ) :
    ((F.leafEntries S n).map Prod.fst).Nodup := by
  refine ((Schema.keys_stored_sublist (F.storeOf n) _).trans List.filter_sublist).nodup ?_
  exact (Sorting.sortBy_perm _ _).nodup_iff.mpr (F.storeOf n).nodup_keys

end Forest

namespace Job

open Forest Session

variable {W : Session NodeType Key} {j : Job} {b : Node NodeType} {k : Key}

/-- Whether a key is a leaf that jobs know. -/
def isLeaf (k : Key) : Bool := catalog.reaches .job k && !catalog.isSlot k

theorem isLeaf_iff : isLeaf k = true ↔ catalog.reaches .job k = true ∧ catalog.isSlot k = false := by
  rw [isLeaf, Bool.and_eq_true, Bool.not_eq_true']

/-! ## A job becomes a bag -/

/-- What is copied out of a job under some keys. -/
def copied (F : Forest NodeType Key) (j : Job) (keys : List Key) : List (Key × Value NodeType) :=
  keys.filterMap fun k => (F.explicit? j.val k).map (k, ·)

theorem copySteps_eq (F : Forest NodeType Key) (j : Job) (keys : List Key) :
    copySteps F j keys = (copied F j keys).map fun e => DraftStep.raw e.1 e.2 := by
  have hstep : ∀ k, (F.explicit? j.val k).map (DraftStep.raw (S := catalog) k) =
      ((F.explicit? j.val k).map (k, ·)).map fun e => DraftStep.raw e.1 e.2 := by
    intro k
    cases F.explicit? j.val k <;> rfl
  simp only [copySteps, copied, List.map_filterMap, hstep]

/-- A bag with some leaves of a job holds these leaves, and nothing else. -/
theorem outline?_copy (h : Reachable catalog W) (j : Job) {keys : List Key} (hkeys : keys.Nodup)
    (hleaf : ∀ k ∈ keys, catalog.isSlot k = false) (k : Key) :
    (W.forest.draft catalog .bag (copySteps W.forest j keys)).1.outline?
        (W.forest.draft catalog .bag (copySteps W.forest j keys)).2 k =
      if k ∈ keys then W.forest.outline? j.val k else none := by
  have hcoh := h.orderly.coherent
  obtain ⟨hcreate, hb⟩ := hcoh.create .bag
  have hempty : (W.forest.create catalog .bag).1.outline? (W.forest.create catalog .bag).2 k = none := by
    rw [outline?_create hcoh, Schema.reaches, catalog.closure_bag rfl]
    exact if_neg fun hk => by simp at hk
  have hnodup : ((copied W.forest j keys).map Prod.fst).Nodup :=
    (Schema.keys_stored_sublist _ _).nodup hkeys
  have hlookup : (copied W.forest j keys).lookup k = if k ∈ keys then W.forest.explicit? j.val k else none :=
    Schema.lookup_stored (W.forest.storeOf j.val) keys k
  have hraw : ∀ e ∈ copied W.forest j keys, catalog.isSlot e.1 = false ∧ catalog.accepts e.1 e.2 = true := by
    intro e he
    obtain ⟨c, hc, hce⟩ := List.mem_filterMap.mp he
    obtain ⟨v, hv, rfl⟩ := Option.map_eq_some_iff.mp hce
    exact ⟨hleaf c hc, h.typeDiscipline.accepted hv⟩
  have hsteps := outline?_foldl_raw hcreate hb hnodup hraw k
  rw [hempty, Option.or_none, hlookup] at hsteps
  rw [draft_eq, copySteps_eq, hsteps]
  split <;> rfl

theorem explicit?_copy (h : Reachable catalog W) (j : Job) {keys : List Key} (hkeys : keys.Nodup)
    (hleaf : ∀ k ∈ keys, catalog.isSlot k = false) (hk : k ∈ keys) :
    (W.forest.draft catalog .bag (copySteps W.forest j keys)).1.explicit?
        (W.forest.draft catalog .bag (copySteps W.forest j keys)).2 k = W.forest.explicit? j.val k := by
  have houtline := outline?_copy h j hkeys hleaf k
  rw [if_pos hk] at houtline
  have hcoh := ((Adds.bag h.orderly j keys).reachable h).orderly.coherent
  exact explicit?_of_outline?_eq h.orderly.coherent hcoh (Schema.slotType?_eq_none (hleaf k hk)) houtline

/-- **The bag holds the leaves of the job that jobs know, and nothing else.** -/
theorem outline?_toBag (h : Reachable catalog W) (j : Job) (k : Key) :
    (toBag W.forest j).1.outline? (toBag W.forest j).2 k =
      if isLeaf k = true then W.forest.outline? j.val k else none := by
  have hmem : k ∈ (catalog.closure .job).filter (fun k => !catalog.isSlot k) ↔ isLeaf k = true := by
    rw [List.mem_filter, isLeaf_iff, Schema.reaches, decide_eq_true_eq, Bool.not_eq_true']
  have hcopy := outline?_copy h j ((catalog.nodup_closure .job).filter fun k => !catalog.isSlot k)
    (fun c hc => by simpa using (List.mem_filter.mp hc).2) k
  simp only [hmem] at hcopy
  exact hcopy

/-! ## A bag becomes a job -/

/-- A job may be given what is not sticky and what jobs know, by a bag or by another job. -/
theorem offers_job {t : NodeType} (ht : t = .bag ∨ t = .job) (k : Key) :
    catalog.offers .job t k = (!catalog.isSticky k && catalog.reaches .job k) := by
  rcases ht with rfl | rfl
  · show (!catalog.isSticky k && true && (false || false || catalog.reaches .job k)) = _
    rw [Bool.and_true, Bool.false_or, Bool.false_or]
  · show (!catalog.isSticky k && (false || catalog.reaches .job k) && true) = _
    rw [Bool.and_true, Bool.false_or]

/-- The sticky leaves of a bag that jobs know. -/
def stickyLeaves (F : Forest NodeType Key) (b : Node NodeType) : List (Key × Value NodeType) :=
  (F.leafEntries catalog b).filter fun e => catalog.isSticky e.1 && catalog.reaches .job e.1

/-- **The job holds the leaves of the bag that jobs know, and a node in every slot.** -/
theorem outline?_ofBag (h : Reachable catalog W) (hb : W.forest.knows b = true) (ht : b.type = .bag) (k : Key) :
    (ofBag W.forest b).1.outline? (ofBag W.forest b).2.val k =
      if catalog.reaches .job k = true then
        if catalog.isSlot k = true then some .slot else W.forest.outline? b k
      else none := by
  have hcoh := h.orderly.coherent
  have hcreate := hcoh.create .job
  have hcreated := outline?_create (S := catalog) hcoh .job k
  rcases hnew : W.forest.create catalog .job with ⟨F, n⟩
  rw [hnew] at hcreate hcreated
  obtain ⟨hF, hn⟩ := hcreate
  have htype : n.type = .job := by
    have := congrArg Prod.snd hnew
    exact congrArg Node.type this.symm
  have hstore : F.storeOf b = W.forest.storeOf b := by
    have hkeeps := (Keeps.create (S := catalog) hcoh (hcoh.place_lt hb) .job).1
    rw [hnew] at hkeeps
    rw [storeOf, hkeeps.place hb rfl, hkeeps.store]
    rfl
  -- The bag is laid over the job first.
  obtain ⟨hG, hnG⟩ := hF.overlay hn b
  have hlaid := outline?_overlay hF hn b k
  rw [hcreated, given_congr hstore, given, htype, ht] at hlaid
  -- Then the sticky leaves are written.
  have hnodup : ((stickyLeaves W.forest b).map Prod.fst).Nodup :=
    (nodup_keys_leafEntries W.forest b).sublist (List.filter_sublist.map Prod.fst)
  have hlookup : (stickyLeaves W.forest b).lookup k =
      if catalog.isSticky k = true ∧ isLeaf k = true then W.forest.explicit? b k else none := by
    rw [stickyLeaves, Store.lookup_filter (fun a => catalog.isSticky a && catalog.reaches .job a),
      lookup_leafEntries, isLeaf]
    cases catalog.isSticky k <;> cases catalog.reaches .job k <;> cases catalog.isSlot k <;> rfl
  have hraw : ∀ e ∈ stickyLeaves W.forest b, catalog.isSlot e.1 = false ∧ catalog.accepts e.1 e.2 = true := by
    intro e he
    obtain ⟨c, hc, hce⟩ := List.mem_filterMap.mp (List.mem_filter.mp he).1
    obtain ⟨v, hv, rfl⟩ := Option.map_eq_some_iff.mp hce
    exact ⟨by simpa using (List.mem_filter.mp hc).2, h.typeDiscipline.accepted hv⟩
  have hsteps := outline?_foldl_raw hG hnG hnodup hraw k
  rw [hlookup, hlaid] at hsteps
  show (W.forest.draft catalog .job (stepsOfBag W.forest b)).1.outline?
    (W.forest.draft catalog .job (stepsOfBag W.forest b)).2 k = _
  rw [draft_eq, hnew, stepsOfBag, List.foldl_cons]
  refine hsteps.trans ?_
  rw [offers_job (Or.inl rfl), isLeaf]
  cases hreach : catalog.reaches .job k with
  | false => simp
  | true =>
      cases hslot : catalog.isSlot k with
      | true =>
          obtain ⟨t, hk⟩ := Option.isSome_iff_exists.mp hslot
          rw [outline?_slot hcoh hk]
          cases catalog.isSticky k <;> cases W.forest.has b k <;> rfl
      | false =>
          -- A leaf is either left behind and written, or copied.
          cases catalog.isSticky k with
          | true => simp [outline?]
          | false => simp

/-! ## What is stored at the end -/

theorem reachable_toBag (h : Reachable catalog W) (j : Job) :
    Reachable catalog ⟨(toBag W.forest j).1, W.drafts⟩ :=
  (Adds.bag h.orderly j _).reachable h

theorem holds_toBag (h : Reachable catalog W) (j : Job) :
    Holds ⟨(toBag W.forest j).1, W.drafts⟩ (toBag W.forest j).2 :=
  ((Adds.bag h.orderly j _).new_of_mem (List.mem_singleton.mpr rfl)).holds h.orderly rfl

theorem adds_ofBag (h : Reachable catalog W) (hb : W.Holds b) :
    Adds catalog W ⟨(ofBag W.forest b).1, W.drafts⟩ [(ofBag W.forest b).2.val] :=
  Adds.job h.orderly _ (operands_stepsOfBag W.forest b) fun _ hm => List.mem_singleton.mp hm ▸ hb

theorem reachable_ofBag (h : Reachable catalog W) (hb : W.Holds b) :
    Reachable catalog ⟨(ofBag W.forest b).1, W.drafts⟩ := (adds_ofBag h hb).reachable h

/-- A job that is made from a bag is an unfrozen root. -/
theorem isTop_ofBag (h : Reachable catalog W) (hb : W.Holds b) :
    (ofBag W.forest b).1.IsTop (ofBag W.forest b).2.val ∧
      (ofBag W.forest b).1.isFrozen (ofBag W.forest b).2.val = false := by
  refine Adds.isTop_draft h.orderly .job _ fun m hm => ?_
  rw [operands_stepsOfBag] at hm
  exact List.mem_singleton.mp hm ▸ hb

theorem explicit?_toBag (h : Reachable catalog W) (j : Job) (k : Key) :
    (toBag W.forest j).1.explicit? (toBag W.forest j).2 k =
      if isLeaf k = true then W.forest.explicit? j.val k else none := by
  have houtline := outline?_toBag h j k
  cases hk : isLeaf k with
  | false =>
      rw [hk] at houtline
      exact explicit?_of_outline?_none houtline
  | true =>
      rw [hk] at houtline
      exact explicit?_of_outline?_eq h.orderly.coherent (reachable_toBag h j).orderly.coherent
        (Schema.slotType?_eq_none (isLeaf_iff.mp hk).2) houtline

theorem explicit?_ofBag (h : Reachable catalog W) (hb : W.Holds b) (ht : b.type = .bag)
    (hk : catalog.isSlot k = false) : (ofBag W.forest b).1.explicit? (ofBag W.forest b).2.val k =
      if catalog.reaches .job k = true then W.forest.explicit? b k else none := by
  have houtline := outline?_ofBag h hb.1 ht k
  rw [hk, if_neg Bool.false_ne_true] at houtline
  cases hreach : catalog.reaches .job k with
  | false =>
      rw [hreach] at houtline
      exact explicit?_of_outline?_none houtline
  | true =>
      rw [hreach] at houtline
      exact explicit?_of_outline?_eq h.orderly.coherent (reachable_ofBag h hb).orderly.coherent
        (Schema.slotType?_eq_none hk) houtline

/-- Whether a job has a node in every slot that jobs know. -/
def Complete (F : Forest NodeType Key) (j : Job) : Prop :=
  ∀ {k}, catalog.reaches .job k = true → catalog.isSlot k = true → F.has j.val k = true

theorem complete_ofBag (h : Reachable catalog W) (hb : W.Holds b) (ht : b.type = .bag) :
    Complete (ofBag W.forest b).1 (ofBag W.forest b).2 := by
  intro k hreach hslot
  rw [has_eq_isSome_outline?, outline?_ofBag h hb.1 ht, hreach, hslot]
  rfl

/-! ## Jobs that store the same leaves -/

section Agreement

variable {F G : Forest NodeType Key} {i j : Job}

theorem isSteadyType_job : catalog.isSteadyType .job = true := by
  have hall : ∀ t ∈ parts, ∀ c ∈ catalog.declarations t, (catalog.isSlot c || catalog.isSteady c) = true := by decide
  exact List.all_eq_true.mpr fun k hk => forall_known hall (decide_eq_true hk)

/-- Two jobs that store the same leaves look the same. -/
theorem agree (h : Reachable catalog W)
    (hleaf : ∀ {k}, isLeaf k = true → G.explicit? i.val k = W.forest.explicit? j.val k) :
    catalog.Agree (W.forest.view j.val) (G.view i.val) where
  type := i.property.trans j.property.symm
  not_bag := by rw [Forest.view, j.property]; rfl
  steady := by rw [Forest.view, j.property]; exact isSteadyType_job
  leaf := by
    intro k hk hslot
    rw [Forest.view, j.property] at hk
    exact hleaf (isLeaf_iff.mpr ⟨decide_eq_true hk, hslot⟩)
  fits := fun hv => h.typeDiscipline.fits hv

theorem present_eq (h : catalog.Agree (F.view j.val) (G.view i.val)) (style : SetStyle) :
    G.present catalog style i.val = F.present catalog style j.val :=
  h.present_eq (m := G.naming catalog) (n := F.naming catalog) rfl style

theorem resolvedId_eq (h : catalog.Agree (F.view j.val) (G.view i.val)) (settings : Settings) :
    resolvedId G settings i = resolvedId F settings j := by
  have hhas : G.has i.val .id = F.has j.val .id :=
    h.contains_eq (of_decide_eq_true (catalog.reaches_id h.not_bag)) rfl
  have hid : G.idOf catalog i.val = F.idOf catalog j.val := h.idText_eq
  rw [resolvedId, resolvedId, Forest.resolvedId, Forest.resolvedId, hhas, hid, present_eq h]

theorem displayInfo_eq (h : catalog.Agree (F.view j.val) (G.view i.val)) (settings : Settings) :
    displayInfo G settings i = displayInfo F settings j := by
  simp only [displayInfo, resolvedId_eq h, present_eq h]

/-- Complete jobs that look the same are equal in the order. -/
theorem compareJobs_of_agree (h : catalog.Agree (G.view j.val) (G.view i.val)) (hi : Complete G i)
    (hj : Complete G j) (policy : OrderPolicy) : compareJobs G policy i j = .eq := by
  rw [compareJobs_eq]
  refine (compareIn_eq_iff catalog G policy).mpr fun k hk => ?_
  have hreach : catalog.reaches .job k = true := decide_eq_true hk
  rw [← j.property] at hk
  rw [compareAt]
  cases hslot : catalog.isSlot k with
  | true => rw [hi hreach hslot, hj hreach hslot]; rfl
  | false =>
      have hhas : G.has i.val k = G.has j.val k := h.contains_eq hk hslot
      have htext : G.presentOne catalog .default i.val k = G.presentOne catalog .default j.val k :=
        h.presentOne_eq rfl .default hk hslot
      rw [hhas, htext, OrderPolicy.compareTexts_self]
      cases G.has j.val k <;> rfl

end Agreement

/-! ## There and back -/

/-- In the forest `G` the job `i` is what the job `j` was in the forest `F`. -/
structure Reproduced (F G : Forest NodeType Key) (j i : Job) : Prop where
  isTop : G.IsTop i.val
  unfrozen : G.isFrozen i.val = false
  /-- The first job is as it was. -/
  same : Same F G j.val
  /-- All leaves that jobs know are there, and no others. -/
  leaf : ∀ {k}, catalog.isSlot k = false →
    G.explicit? i.val k = if catalog.reaches .job k = true then F.explicit? j.val k else none
  complete : Complete G i
  bag : ∀ k, (toBag G i).1.explicit? (toBag G i).2 k = (toBag F j).1.explicit? (toBag F j).2 k
  displayInfo : ∀ settings, displayInfo G settings i = displayInfo F settings j
  resolvedId : ∀ settings, resolvedId G settings i = resolvedId F settings j
  folderInfo : ∀ settings, folderInfo G settings i = folderInfo F settings j
  customized : customized G i = customized F j
  order : Complete F j → ∀ policy, compareJobs G policy i j = .eq ∧ compareJobs G policy j i = .eq

/-- A job that is flattened and taken back is itself over again. -/
theorem reproduced_ofBag_toBag (h : Reachable catalog W) (hj : W.Holds j.val) :
    Reproduced W.forest (ofBag (toBag W.forest j).1 (toBag W.forest j).2).1 j
      (ofBag (toBag W.forest j).1 (toBag W.forest j).2).2 := by
  have hbag := Adds.bag h.orderly j ((catalog.closure .job).filter fun k => !catalog.isSlot k)
  have h₁ := reachable_toBag h j
  have hb := holds_toBag h j
  have hstored := explicit?_toBag h j
  have ht : (toBag W.forest j).2.type = .bag := rfl
  rcases hmade : toBag W.forest j with ⟨F, b⟩
  rw [show W.forest.draft catalog .bag _ = toBag W.forest j from rfl] at hbag
  rw [hmade] at hbag h₁ hb hstored ht
  have hjob := adds_ofBag h₁ hb
  have h₂ := reachable_ofBag h₁ hb
  have hleaf : ∀ {k}, catalog.isSlot k = false → (ofBag F b).1.explicit? (ofBag F b).2.val k =
      if catalog.reaches .job k = true then W.forest.explicit? j.val k else none := by
    intro k hk
    rw [explicit?_ofBag h₁ hb ht hk, hstored, isLeaf, hk]
    cases catalog.reaches .job k <;> rfl
  have hknown : ∀ {k}, isLeaf k = true →
      (ofBag F b).1.explicit? (ofBag F b).2.val k = W.forest.explicit? j.val k := by
    intro k hk
    rw [hleaf (isLeaf_iff.mp hk).2, if_pos (isLeaf_iff.mp hk).1]
  have hsame : Same W.forest (ofBag F b).1 j.val := (hbag.trans h.orderly hjob).same h.orderly hj.1
  have hagree := agree h hknown
  obtain ⟨htop, hfrozen⟩ := isTop_ofBag h₁ hb
  constructor
  case isTop => exact htop
  case unfrozen => exact hfrozen
  case same => exact hsame
  case leaf => exact hleaf
  case complete => exact complete_ofBag h₁ hb ht
  case bag =>
    intro k
    rw [explicit?_toBag h₂, hmade, hstored]
    cases hk : isLeaf k with
    | true => exact hknown hk
    | false => rfl
  case displayInfo => exact displayInfo_eq hagree
  case resolvedId => exact resolvedId_eq hagree
  case folderInfo => exact fun settings => congrArg folderSafe (resolvedId_eq hagree settings)
  case customized => exact hagree.presentable_eq false
  case order =>
    intro hj policy
    have hcomplete : Complete (ofBag F b).1 j := fun hreach hslot => by
      rw [has, hsame.store]
      exact hj hreach hslot
    have hview : catalog.Agree ((ofBag F b).1.view j.val) ((ofBag F b).1.view (ofBag F b).2.val) := by
      rw [Forest.view, hsame.store]
      exact hagree
    have heq := compareJobs_of_agree hview (complete_ofBag h₁ hb ht) hcomplete policy
    exact ⟨heq, by rw [compareJobs_swap, heq]; rfl⟩

/-- **Flattening and taking back are inverse to each other.** A job comes back as it was; and of a bag the
leaves that jobs know come back, and no others. -/
theorem flattening_inverse {J : Session NodeType Key} (hJ : JobReachable J) :
    (∀ j : Job, J.Holds j.val →
      let bag := toBag J.forest j
      let back := ofBag bag.1 bag.2
      Reproduced J.forest back.1 j back.2) ∧
    ∀ b : Node NodeType, J.Holds b → b.type = .bag →
      let job := ofBag J.forest b
      let back := toBag job.1 job.2
      (∀ k, back.1.explicit? back.2 k = if isLeaf k = true then J.forest.explicit? b k else none) ∧
        Complete job.1 job.2 := by
  refine ⟨fun j hj => reproduced_ofBag_toBag hJ.reachable hj, fun b hb ht => ⟨fun k => ?_, ?_⟩⟩
  · rw [explicit?_toBag (reachable_ofBag hJ.reachable hb)]
    cases hk : isLeaf k with
    | false => rfl
    | true =>
        rw [isLeaf, Bool.and_eq_true, Bool.not_eq_true'] at hk
        rw [explicit?_ofBag hJ.reachable hb ht hk.2, if_pos hk.1]
  · exact complete_ofBag hJ.reachable hb ht

/-- A job without slots that is marked as a mutator and stores an integer that jobs do not know, and a bag with
the same integer and a slot. -/
def mixed : Session NodeType Key :=
  ⟨[.bare .job, .set (nth 0).val (.flags .isMutator) (.bool true), .set (nth 0).val (.specimen .alpha) (.int 3),
      .bare .bag, .set ⟨2, .bag⟩ (.specimen .alpha) (.int 3), .childOrNew ⟨2, .bag⟩ (Key.job .run)].foldl
    (Operation.run catalog) .empty, []⟩

theorem jobReachable_mixed : JobReachable mixed := by
  refine JobReachable.run .refl ?_
  decide

theorem flattening_inverse_mixed :
    (JobReachable mixed ∧ mixed.Holds (nth 0).val ∧ mixed.forest.has (nth 0).val (.specimen .alpha) = true ∧
        mixed.forest.has (nth 0).val (.flags .isMutator) = true ∧ isLeaf (.flags .isMutator) = true) ∧
      (mixed.Holds ⟨2, .bag⟩ ∧ mixed.forest.has ⟨2, .bag⟩ (.specimen .alpha) = true ∧
        mixed.forest.has ⟨2, .bag⟩ (.job .run) = true) ∧
      Reproduced mixed.forest (ofBag (toBag mixed.forest (nth 0)).1 (toBag mixed.forest (nth 0)).2).1 (nth 0)
        (ofBag (toBag mixed.forest (nth 0)).1 (toBag mixed.forest (nth 0)).2).2 ∧
      Complete (ofBag mixed.forest ⟨2, .bag⟩).1 (ofBag mixed.forest ⟨2, .bag⟩).2 := by
  have hjob : mixed.Holds (nth 0).val := by decide
  have hbag : mixed.Holds ⟨2, .bag⟩ := by decide
  have hknown : isLeaf (.flags .isMutator) = true := by decide +kernel
  have hinverse := flattening_inverse jobReachable_mixed
  refine ⟨⟨jobReachable_mixed, hjob, ?_, ?_, hknown⟩, ⟨hbag, ?_⟩, hinverse.1 _ hjob, (hinverse.2 _ hbag rfl).2⟩
  · decide
  · decide
  · decide

end Job

end LayeredConfig
